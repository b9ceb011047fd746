import PiEmbodied.Chord.Delta.PathKey

/-!
# The wire codec

Path interning and arity omission live between the tracker and a boundary.  The
encoder defines an id on a path's second use and drops the path of an operation
at the previous one's path; the decoder keeps the mirror of that state.
-/

namespace PiEmbodied.Chord.Delta

open Coding

/-! ## The encoder -/

structure Encoder where
  seen : Finset Text
  ids : Text → Option ℕ
  nextId : ℕ
  /-- The last path in this batch. -/
  previous : Option Text

def encoder : Encoder where
  seen := ∅
  ids := fun _ => none
  nextId := 0
  previous := none

def encodeOp (enc : Encoder) (op : Op Unit) : Encoder × List WireOp :=
  match op with
  | .r value =>
    -- a reader may start here, so nothing after it refers to what was before
    (encoder, [.r value])
  | .edit path change =>
    let key := pathKey path
    if enc.previous = some key then (enc, [.edit none change])
    else
      match enc.ids key with
      | some id => ({ enc with previous := some key }, [.edit (some (.id id)) change])
      | none =>
        if key ∈ enc.seen then
          ({ enc with
              ids := Function.update enc.ids key (some enc.nextId)
              nextId := enc.nextId + 1
              previous := some key },
            [.define enc.nextId path, .edit (some (.id enc.nextId)) change])
        else
          ({ enc with
              seen := insert key enc.seen
              previous := some key },
            [.edit (some (.inline path)) change])

structure Decoder where
  paths : ℕ → Option Path
  previous : Option Path

def decoder : Decoder where
  paths := fun _ => none
  previous := none

def Decoder.path (dec : Decoder) : Option PathRef → Except DeltaError Path
  | none =>
    match dec.previous with
    | none => .error (.path [])
    | some path => .ok path
  | some (.id number) =>
    match dec.paths number with
    | none => .error (.pathId number)
    | some path => .ok path
  | some (.inline path) => .ok path

def decodeWireOp (dec : Decoder) (op : WireOp) : Except DeltaError (Decoder × List (Op Unit)) :=
  match op with
  | .define id path => .ok ({ dec with paths := Function.update dec.paths id (some path) }, [])
  | .r value => .ok (decoder, [.r value])
  | .edit ref change => do
      let path ← dec.path ref
      if !change.mayTargetRoot ∧ path = [] then throw (.path path)
      return ({ dec with previous := some path }, [.edit path change])

/-- The two sides over raw tuples: each op received is validated before
use. -/
def codec : Coder Encoder Decoder (Op Unit) JsonValue DeltaError where
  beginEncode := fun enc => { enc with previous := none }
  encodeOne := fun enc op => ((encodeOp enc op).1, (encodeOp enc op).2.map WireOp.toJson)
  beginDecode := fun dec => { dec with previous := none }
  decodeOne := fun dec raw => do decodeWireOp dec (← assertValidWireOp raw)

def encodeBatches (batches : List (List (Op Unit))) : List (List JsonValue) :=
  (codec.encodeStream encoder batches).2

def decodeBatches (wires : List (List JsonValue)) : Except DeltaError (List (List (Op Unit))) :=
  (codec.decodeStream decoder wires).map Prod.snd

/-! ## Wire ops pass the validator -/

/-- Everything the encoder can write for an edit: no path, an id, a definition
with its id, or the path inline. -/
theorem encodeOp_edit_cases (enc : Encoder) (path : Path) (change : Edit Unit) :
    (enc.previous = some (pathKey path) ∧
      encodeOp enc (.edit path change) = (enc, [.edit none change])) ∨
    (∃ id, enc.ids (pathKey path) = some id ∧
      encodeOp enc (.edit path change) =
        ({ enc with previous := some (pathKey path) }, [.edit (some (.id id)) change])) ∨
    encodeOp enc (.edit path change) =
      ({ enc with
          ids := Function.update enc.ids (pathKey path) (some enc.nextId)
          nextId := enc.nextId + 1
          previous := some (pathKey path) },
        [.define enc.nextId path, .edit (some (.id enc.nextId)) change]) ∨
    encodeOp enc (.edit path change) =
      ({ enc with
          seen := insert (pathKey path) enc.seen
          previous := some (pathKey path) },
        [.edit (some (.inline path)) change]) := by
  by_cases repeated : enc.previous = some (pathKey path)
  · exact .inl ⟨repeated, if_pos repeated⟩
  · right
    unfold encodeOp
    dsimp only
    rw [if_neg repeated]
    cases known : enc.ids (pathKey path) with
    | some id => exact .inl ⟨id, rfl, rfl⟩
    | none =>
      by_cases seenBefore : pathKey path ∈ enc.seen
      · exact .inr (.inl (if_pos seenBefore))
      · exact .inr (.inr (if_neg seenBefore))

variable {op : Op Unit}

theorem encodeOp_valid (enc : Encoder) (valid : op.Valid) :
    ∀ wire ∈ (encodeOp enc op).2, wire.Valid := by
  cases op with
  | r value => simp [encodeOp, WireOp.Valid]
  | edit path change =>
    obtain ⟨safe, _, payload⟩ := valid
    rcases encodeOp_edit_cases enc path change with
      ⟨_, written⟩ | ⟨id, _, written⟩ | written | written
    · simp [written, WireOp.Valid, payload]
    · simp [written, WireOp.Valid, PathRef.Valid, payload]
    · simp [written, WireOp.Valid, PathRef.Valid, payload, safe]
    · simp [written, WireOp.Valid, PathRef.Valid, payload, safe]

theorem encodeStream_valid {batches : List (List (Op Unit))}
    (valid : ∀ batch ∈ batches, ∀ op ∈ batch, op.Valid) :
    ∀ enc, ∀ wire ∈ (codec.encodeStream enc batches).2, ∀ raw ∈ wire,
      ∃ op : WireOp, op.Valid ∧ op.toJson = raw := by
  have inBatch :
      ∀ {batch : List (Op Unit)}, (∀ op ∈ batch, op.Valid) →
        ∀ enc, ∀ raw ∈ (codec.encodeRun enc batch).2,
          ∃ op : WireOp, op.Valid ∧ op.toJson = raw := by
    intro batch
    induction batch with
    | nil =>
      intro _ enc raw member
      exact absurd member List.not_mem_nil
    | cons op rest ih =>
      intro validBatch enc raw member
      obtain ⟨validOp, validRest⟩ := List.forall_mem_cons.mp validBatch
      rcases List.mem_append.mp member with here | later
      · obtain ⟨wire, inWires, same⟩ := List.mem_map.mp here
        exact ⟨wire, encodeOp_valid enc validOp wire inWires, same⟩
      · exact ih validRest _ raw later
  induction batches with
  | nil =>
    intro enc wire member
    exact absurd member List.not_mem_nil
  | cons batch rest ih =>
    intro enc wire member raw inWire
    obtain ⟨validBatch, validRest⟩ := List.forall_mem_cons.mp valid
    rcases List.mem_cons.mp member with rfl | later
    · exact inBatch validBatch _ raw inWire
    · exact ih validRest _ wire later raw inWire

/-! ## The mirror -/

/-- Every id of the encoder names its path at the decoder, no id is used twice,
and the path the encoder would omit is the one the decoder would supply. -/
structure Mirrors (enc : Encoder) (dec : Decoder) : Prop where
  ids : ∀ path id, enc.ids (pathKey path) = some id → dec.paths id = some path
  fresh : ∀ key id, enc.ids key = some id → id < enc.nextId
  previous : ∀ path, enc.previous = some (pathKey path) → dec.previous = some path

theorem mirrors_reset (dec : Decoder) : Mirrors encoder dec where
  ids := by simp [encoder]
  fresh := by simp [encoder]
  previous := by simp [encoder]

theorem decodeOne_toJson (dec : Decoder) {op : WireOp} (valid : op.Valid) :
    codec.decodeOne dec op.toJson = decodeWireOp dec op := by
  change (assertValidWireOp op.toJson >>= decodeWireOp dec) = _
  rw [assertValidWireOp_toJson valid]
  rfl

variable {dec : Decoder}

theorem decodeRun_edit {ref : Option PathRef} {path : Path} {change : Edit Unit}
    (valid : (WireOp.edit ref change).Valid) (known : dec.path ref = .ok path)
    (root : change.mayTargetRoot ∨ path ≠ []) :
    codec.decodeRun dec [(WireOp.edit ref change).toJson] =
      .ok ({ dec with previous := some path }, [.edit path change]) := by
  have allowed : ¬(!change.mayTargetRoot ∧ path = []) := by
    rintro ⟨notRoot, empty⟩
    rcases root with may | nonempty
    · simp [may] at notRoot
    · exact nonempty empty
  simp only [Coder.decodeRun, decodeOne_toJson dec valid, decodeWireOp, known,
    bind, Except.bind, if_neg allowed]
  rfl

theorem decodeRun_define {id : ℕ} {path : Path} (safe : SafePath path) (rest : List JsonValue) :
    codec.decodeRun dec ((WireOp.define id path).toJson :: rest) =
      codec.decodeRun
        { dec with paths := Function.update dec.paths id (some path) }
        rest := by
  have validDefinition : (WireOp.define id path).Valid := safe
  rw [Coder.decodeRun, decodeOne_toJson dec validDefinition]
  simp only [decodeWireOp, bind, Except.bind, List.nil_append]
  cases codec.decodeRun _ rest <;> rfl

theorem mirrors_one {enc : Encoder} (mirrors : Mirrors enc dec) (valid : op.Valid) :
    ∃ next, codec.decodeRun dec ((encodeOp enc op).2.map WireOp.toJson) = .ok (next, [op]) ∧
      Mirrors (encodeOp enc op).1 next := by
  cases op with
  | r value => exact ⟨decoder, rfl, mirrors_reset decoder⟩
  | edit path change =>
    have wiresValid := encodeOp_valid enc valid
    obtain ⟨safe, root, _⟩ := valid
    have samePath :
        ∀ other, some (pathKey path) = some (pathKey other) → some path = some other := by
      intro other same
      rw [pathKey_injective (Option.some.inj same)]
    rcases encodeOp_edit_cases enc path change with
      ⟨repeated, written⟩ | ⟨id, known, written⟩ | written | written
    · rw [written] at wiresValid ⊢
      have supplied : dec.path none = .ok path := by
        simp only [Decoder.path, mirrors.previous path repeated]
      refine ⟨_, decodeRun_edit (wiresValid _ List.mem_cons_self) supplied
        root, mirrors.ids, mirrors.fresh, ?_⟩
      intro other same
      rw [repeated] at same
      exact samePath other same
    · rw [written] at wiresValid ⊢
      have named : dec.path (some (.id id)) = .ok path := by
        simp only [Decoder.path, mirrors.ids path id known]
      exact ⟨_, decodeRun_edit (wiresValid _ List.mem_cons_self) named root,
        mirrors.ids, mirrors.fresh, samePath⟩
    · rw [written] at wiresValid ⊢
      let defined : Decoder :=
        { dec with
          paths := Function.update dec.paths enc.nextId (some path) }
      have named : defined.path (some (.id enc.nextId)) = .ok path := by
        simp [defined, Decoder.path]
      refine ⟨{ defined with previous := some path }, ?_, ?_, ?_, samePath⟩
      · rw [List.map_cons, decodeRun_define safe]
        exact decodeRun_edit (wiresValid _ (List.mem_cons_of_mem _ List.mem_cons_self)) named root
      · intro other id known
        dsimp only at known
        by_cases same : pathKey other = pathKey path
        · rw [same, Function.update_self] at known
          rw [pathKey_injective same, ← Option.some.inj known]
          exact Function.update_self ..
        · rw [Function.update_of_ne same] at known
          have older := mirrors.fresh _ id known
          have notNew : id ≠ enc.nextId := by omega
          dsimp only [defined]
          rw [Function.update_of_ne notNew]
          exact mirrors.ids other id known
      · intro key id known
        dsimp only at known ⊢
        by_cases same : key = pathKey path
        · rw [same, Function.update_self] at known
          have isNew := Option.some.inj known
          omega
        · rw [Function.update_of_ne same] at known
          have older := mirrors.fresh key id known
          omega
    · rw [written] at wiresValid ⊢
      exact ⟨_, decodeRun_edit (wiresValid _ List.mem_cons_self) rfl root,
        mirrors.ids, mirrors.fresh, samePath⟩

def codecMirror : Mirror codec where
  Related := Mirrors
  Allowed := Op.Valid
  begins := fun mirrors => ⟨mirrors.ids, mirrors.fresh, fun _ same => by simp [codec] at same⟩
  beginsBoth := fun mirrors => ⟨mirrors.ids, mirrors.fresh, fun _ same => by simp [codec] at same⟩
  one := fun mirrors valid => mirrors_one mirrors valid
  Base := fun op => isReplace op
  base := by
    intro enc dec op isBase
    cases op with
    | r value => exact ⟨decoder, rfl, mirrors_reset decoder⟩
    | edit path change => exact absurd isBase (by simp [isReplace])

theorem between_fresh (dec : Decoder) : codecMirror.Between encoder dec :=
  mirrors_reset dec

/-! ## The stream -/

/-- The codec over a stream of valid batches: the decoder returns the batches,
every wire op passes the validator, wire batches joined in order decode to the
batches joined alike, and a fresh decoder may start at any batch that begins
with a replacement. -/
theorem codec_stream (batches : List (List (Op Unit)))
    (valid : ∀ batch ∈ batches, ∀ op ∈ batch, assertValidOp op.toJson = .ok op) :
    decodeBatches (encodeBatches batches) = .ok batches ∧
    (∀ wire ∈ encodeBatches batches, ∀ raw ∈ wire, ∃ op, assertValidWireOp raw = .ok op) ∧
    (∀ (groups : List (List (List (Op Unit)))) (wireGroups : List (List (List JsonValue))),
      groups.flatten = batches →
      wireGroups.flatten = encodeBatches batches →
      wireGroups.map List.length = groups.map List.length →
      decodeBatches (wireGroups.map List.flatten) = .ok (groups.map List.flatten)) ∧
    (∀ before first rest after, batches = before ++ (first :: rest) :: after → isReplace first →
      decodeBatches ((encodeBatches batches).drop before.length) =
        .ok ((first :: rest) :: after)) := by
  have allowed : ∀ batch ∈ batches, ∀ op ∈ batch, op.Valid := by
    intro batch inBatches op inBatch
    exact (assertValidOp_ok.mp (valid batch inBatches op inBatch)).2
  refine ⟨?_, ?_, ?_, ?_⟩
  · obtain ⟨next, decoded, _⟩ :=
      codecMirror.stream (between_fresh decoder) allowed
    simp only [decodeBatches, encodeBatches, decoded]
    rfl
  · intro wire inWires raw inWire
    obtain ⟨op, validOp, rfl⟩ := encodeStream_valid allowed encoder wire inWires raw inWire
    exact ⟨op, assertValidWireOp_toJson validOp⟩
  · rintro groups wireGroups rfl encoded sameShape
    obtain ⟨next, decoded, _⟩ :=
      codecMirror.grouped groups (between_fresh decoder) allowed encoded sameShape
    simp only [decodeBatches, decoded]
    rfl
  · rintro before first rest after rfl isBase
    have laterAllowed : ∀ other ∈ rest :: after, ∀ op ∈ other, op.Valid := by
      intro other member op inOther
      rcases List.mem_cons.mp member with rfl | later
      · exact allowed (first :: other) (by simp) op (List.mem_cons_of_mem first inOther)
      · exact allowed other (by simp [later]) op inOther
    have suffix :
        (encodeBatches (before ++ (first :: rest) :: after)).drop before.length =
          (codec.encodeStream (codec.encodeStream encoder before).1
            ((first :: rest) :: after)).2 := by
      rw [encodeBatches, codec.encodeStream_append]
      exact List.drop_left' (codec.encodeStream_length encoder before)
    have recovered :
        ∃ next,
          codec.decodeStream decoder
              (codec.encodeStream (codec.encodeStream encoder before).1
                ((first :: rest) :: after)).2 =
            .ok (next, (first :: rest) :: after) ∧ _ :=
      codecMirror.recovers isBase laterAllowed
    obtain ⟨next, decoded, _⟩ := recovered
    rw [suffix, decodeBatches, decoded]
    rfl

/-- A stream whose second batch uses one path again, whose third is a base. -/
theorem codec_stream_example :
    let edit : Op Unit := .edit [.key (units "a"), .index 0] (.t 1)
    let base : Op Unit := .r (.arr () [])
    decodeBatches (encodeBatches [[edit], [edit, edit], [base, edit]]) =
      .ok [[edit], [edit, edit], [base, edit]] := by
  intro edit base
  refine (codec_stream [[edit], [edit, edit], [base, edit]] ?_).1
  have validEdit : assertValidOp edit.toJson = .ok edit :=
    assertValidOp_ok.mpr ⟨rfl, by decide, .inr (by decide), trivial⟩
  have validBase : assertValidOp base.toJson = .ok base := rfl
  simp [validEdit, validBase]

end PiEmbodied.Chord.Delta
