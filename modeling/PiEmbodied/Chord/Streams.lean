import PiEmbodied.Chord.Connection

/-!
# Streams

The frames of one member on their way, in order: those on the wire, then those
its slot will send.  They are sound for what the consumer holds when they lead
it, batch by batch, through the provider's values to the provider's value.
-/

namespace PiEmbodied.Chord

open Delta Coding

/-! ## Sound frames -/

/-- The stream a feed is at: the member's value with the feed's encoder. -/
abbrev StreamEnd := JsonValue × Encoder

/-- Whatever the consumer holds, the frames take it to the stream's end, and
every `ops` frame takes it to the value the frame is stamped with.  After an
error frame the consumer must hold nothing until the next value. -/
def Sound : Option MemberState → List StateOut → Option StreamEnd → Prop
  | held, [], streamEnd =>
    ∀ member, held = some member →
      ∀ value enc, streamEnd = some (value, enc) →
        member.value = value ∧ codecMirror.Between enc member.decoder
  | _, .snap value :: rest, streamEnd | _, .reset value :: rest, streamEnd =>
    Sound (some ⟨value, decoder⟩) rest streamEnd
  | _, .error _ :: rest, streamEnd | none, .ops _ _ :: rest, streamEnd => Sound none rest streamEnd
  | some member, .ops wire upTo :: rest, streamEnd =>
    ∃ dec ops, codec.decodeBatch member.decoder wire = .ok (dec, ops) ∧
      applyOps member.value ops = .ok upTo ∧
      Sound (some ⟨upTo, dec⟩) rest streamEnd

variable {held : Option MemberState} {frames : List StateOut}
  {streamEnd : Option StreamEnd}

theorem sound_none (sound : Sound held frames streamEnd) : Sound none frames streamEnd := by
  induction frames generalizing held with
  | nil =>
    intro member isHeld
    cases isHeld
  | cons frame rest ih =>
    cases frame with
    | snap value | reset value | error e => exact sound
    | ops wire upTo =>
      cases held with
      | none => exact sound
      | some member =>
        obtain ⟨dec, ops, _, _, later⟩ := sound
        exact ih later

/-- To change the frames at the end, it is enough to change them for whatever
is held when they come. -/
theorem sound_append {old new : List StateOut} {next : Option StreamEnd}
    (change : ∀ other, Sound other old streamEnd → Sound other new next)
    (sound : Sound held (frames ++ old) streamEnd) : Sound held (frames ++ new) next := by
  induction frames generalizing held with
  | nil => exact change held sound
  | cons frame rest ih =>
    rw [List.cons_append] at sound ⊢
    cases frame with
    | snap value | reset value | error e => exact ih sound
    | ops wire upTo =>
      cases held with
      | none => exact ih sound
      | some member =>
        obtain ⟨dec, ops, decoded, applied, later⟩ := sound
        exact ⟨dec, ops, decoded, applied, ih later⟩

theorem sound_dropped {held : Option MemberState} {frames dropped : List StateOut}
    {streamEnd : Option StreamEnd} (sound : Sound held (frames ++ dropped) streamEnd) :
    Sound held frames none := by
  have nowhere : ∀ other, Sound other [] none := by
    intro other member _ value enc isEnd
    cases isEnd
  have cut := sound_append (fun other _ => nowhere other) sound
  rwa [List.append_nil] at cut

theorem sound_unfollowed (sound : Sound held frames streamEnd) : Sound held frames none := by
  have whole : Sound held (frames ++ []) streamEnd := by
    rw [List.append_nil]
    exact sound
  exact sound_dropped whole

/-- A frame that opens a stream at a value: the value, or the error of one that
could not be sent. -/
def Opens (value : JsonValue) (frame : StateOut) : Prop :=
  frame = .snap value ∨ frame = .reset value ∨ ∃ e, frame = .error e

theorem snapshot_opens (served : Served) (name : Name) (value : JsonValue)
    {as : JsonValue → StateOut} (isValue : as = .snap ∨ as = .reset) :
    Opens value (served.snapshot name as value) := by
  unfold Served.snapshot
  split
  · exact .inr (.inr ⟨_, rfl⟩)
  · rcases isValue with rfl | rfl
    · exact .inl rfl
    · exact .inr (.inl rfl)

variable {value : JsonValue} {frame : StateOut}

theorem sound_opened (opens : Opens value frame) : Sound held [frame] (some (value, encoder)) := by
  have fresh : Sound (some ⟨value, decoder⟩) [] (some (value, encoder)) := by
    intro member isHeld other enc isEnd
    cases isHeld
    cases isEnd
    exact ⟨rfl, between_fresh decoder⟩
  rcases opens with rfl | rfl | ⟨e, rfl⟩
  · exact fresh
  · exact fresh
  · intro member isHeld
    cases isHeld

theorem sound_open (opens : Opens value frame) (sound : Sound held frames streamEnd) :
    Sound held (frames ++ [frame]) (some (value, encoder)) := by
  have whole : Sound held (frames ++ []) streamEnd := by
    rw [List.append_nil]
    exact sound
  exact sound_append (fun _ _ => sound_opened opens) whole

theorem sound_openAll {opening : List StateOut} (opens : ∀ frame ∈ opening, Opens value frame) :
    ∀ {held : Option MemberState} {streamEnd : Option StreamEnd}, Sound held frames streamEnd →
      Sound held (frames ++ opening)
        (if opening = [] then streamEnd else some (value, encoder)) := by
  induction opening generalizing frames with
  | nil =>
    intro held streamEnd sound
    rw [List.append_nil, if_pos rfl]
    exact sound
  | cons frame rest ih =>
    intro held streamEnd sound
    have first := sound_open (opens frame List.mem_cons_self) sound
    have later :=
      ih
        (fun other member => opens other (List.mem_cons_of_mem frame member)) first
    rw [List.append_assoc, List.singleton_append] at later
    rw [if_neg (List.cons_ne_nil frame rest)]
    by_cases done : rest = []
    · rwa [if_pos done] at later
    · rwa [if_neg done] at later

/-! ## Batches -/

theorem encodeOp_ne_nil (enc : Encoder) (op : Op Unit) : (encodeOp enc op).2 ≠ [] := by
  cases op with
  | r value => exact List.cons_ne_nil _ _
  | edit path change =>
    rcases encodeOp_edit_cases enc path change with
      ⟨_, written⟩ | ⟨id, _, written⟩ | written | written
    all_goals
      rw [written]
      exact List.cons_ne_nil _ _

variable {enc : Encoder} {batch : List (Op Unit)}

theorem encodeBatch_nil (nothing : (codec.encodeBatch enc batch).2 = []) : batch = [] := by
  cases batch with
  | nil => rfl
  | cons op rest =>
    have first := (List.append_eq_nil_iff.mp nothing).1
    exact absurd (List.map_eq_nil_iff.mp first) (encodeOp_ne_nil _ op)

theorem decodeRun_batch {dec : Decoder} (between : codecMirror.Between enc dec)
    (valid : ∀ op ∈ batch, op.Valid) :
    ∃ next, codec.decodeRun dec (codec.encodeBatch enc batch).2 = .ok (next, batch) ∧
      codecMirror.Between (codec.encodeBatch enc batch).1 next := by
  obtain ⟨next, decoded, related⟩ := codecMirror.run between valid
  exact ⟨next, decoded, codecMirror.begins related⟩

variable {before : JsonValue}

theorem sound_batch_alone (valid : ∀ op ∈ batch, op.Valid)
    (applied : applyOps before batch = .ok value) (sound : Sound held [] (some (before, enc))) :
    Sound held [.ops (codec.encodeBatch enc batch).2 value]
      (some (value, (codec.encodeBatch enc batch).1)) := by
  cases held with
  | none =>
    intro member isHeld
    cases isHeld
  | some member =>
    obtain ⟨sameValue, between⟩ := sound member rfl before enc rfl
    obtain ⟨next, decoded, betweenNext⟩ :=
      decodeRun_batch (codecMirror.between_beginDecode between) valid
    refine ⟨next, batch, decoded, by rw [sameValue]; exact applied, ?_⟩
    intro other isOther last lastEnc isEnd
    cases isOther
    cases isEnd
    exact ⟨rfl, betweenNext⟩

theorem sound_batch_joined
    {upTo : JsonValue} {wire : List JsonValue} (valid : ∀ op ∈ batch, op.Valid)
    (applied : applyOps before batch = .ok value)
    (sound : Sound held [.ops wire upTo] (some (before, enc))) :
    Sound held [.ops (wire ++ (codec.encodeBatch enc batch).2) value]
      (some (value, (codec.encodeBatch enc batch).1)) := by
  cases held with
  | none =>
    intro member isHeld
    cases isHeld
  | some member =>
    obtain ⟨dec, ops, decoded, appliedBefore, reached⟩ := sound
    obtain ⟨sameValue, between⟩ := reached _ rfl before enc rfl
    obtain ⟨next, decodedNext, betweenNext⟩ := decodeRun_batch between valid
    have joined :
        codec.decodeBatch member.decoder (wire ++ (codec.encodeBatch enc batch).2) =
          .ok (next, ops ++ batch) := by
      unfold Coder.decodeBatch at decoded ⊢
      rw [codec.decodeRun_append decoded, decodedNext]
      rfl
    refine ⟨next, ops ++ batch, joined, ?_, ?_⟩
    · rw [applyOps_append appliedBefore]
      dsimp only at sameValue
      rw [sameValue]
      exact applied
    · intro other isOther last lastEnc isEnd
      cases isOther
      cases isEnd
      exact ⟨rfl, betweenNext⟩

theorem sound_batch_empty {held : Option MemberState} {before value : JsonValue} {enc : Encoder}
    (applied : applyOps before [] = .ok value) (sound : Sound held [] (some (before, enc))) :
    Sound held [] (some (value, (codec.encodeBatch enc []).1)) := by
  intro member isHeld last lastEnc isEnd
  cases isEnd
  cases applied
  obtain ⟨sameValue, between⟩ := sound member isHeld before enc rfl
  exact ⟨sameValue, codecMirror.begins between⟩

theorem sound_batch (valid : ∀ op ∈ batch, op.Valid) (applied : applyOps before batch = .ok value)
    (sound : Sound held frames (some (before, enc))) :
    Sound held (frames ++ [.ops (codec.encodeBatch enc batch).2 value])
      (some (value, (codec.encodeBatch enc batch).1)) := by
  have whole : Sound held (frames ++ []) (some (before, enc)) := by
    rw [List.append_nil]
    exact sound
  exact sound_append (fun _ => sound_batch_alone valid applied) whole

theorem sound_batch_queued {slot : StateSlot} {size : ℕ} (valid : ∀ op ∈ batch, op.Valid)
    (applied : applyOps before batch = .ok value)
    (sound : Sound held (frames ++ Provider.slotFrames slot) (some (before, enc))) :
    Sound held
      (frames ++ Provider.slotFrames
        { slot with
          ops := slot.ops ++ (codec.encodeBatch enc batch).2
          upTo := value
          size := size })
      (some (value, (codec.encodeBatch enc batch).1)) := by
  unfold Provider.slotFrames at sound ⊢
  dsimp only at sound ⊢
  rw [← List.append_assoc] at sound ⊢
  by_cases nothing : slot.ops = []
  · rw [if_pos nothing] at sound
    rw [nothing, List.nil_append]
    by_cases empty : (codec.encodeBatch enc batch).2 = []
    · have noOps := encodeBatch_nil empty
      subst noOps
      rw [if_pos empty]
      exact sound_append (fun _ => sound_batch_empty applied) sound
    · rw [if_neg empty]
      exact sound_append (fun _ => sound_batch_alone valid applied) sound
  · rw [if_neg nothing] at sound
    rw [if_neg (by simp [nothing])]
    exact sound_append (fun _ => sound_batch_joined valid applied) sound

end PiEmbodied.Chord
