import PiEmbodied.Instances

/-!
# Camera frames in the requests

Two handlers rewrite the messages of a request: the first replaces older camera
frames with a stub, the second leaves out thinking of earlier turns.  A frame is
named by the indices of its message and of its part.
-/

namespace PiEmbodied.Robot.Frames

/-! ## Messages -/

inductive Part where
  | text (text : String)
  | image (data : String)
deriving DecidableEq

inductive Block where
  | thinking (thinking : String) (redacted : Bool)
      (thinkingSignature : Option String)
  | other (value : String)
deriving DecidableEq

/-- `AgentMessage`; the content of an assistant message may be no array. -/
inductive Message where
  | toolResult (content : List Part)
  | assistant (api : String) (content : Option (List Block))
  | other (value : String)
deriving DecidableEq

namespace Part

/-- `p.type === "image"` -/
def isImage : Part → Bool
  | .text _ => false
  | .image _ => true

end Part

namespace Message

def hasImage : Message → Bool
  | .toolResult content => content.any Part.isImage
  | _ => false

def images : Message → ℕ
  | .toolResult content => content.countP Part.isImage
  | _ => 0

def hasStub (stub : String) : Message → Bool
  | .toolResult content => content.any (· = .text stub)
  | _ => false

end Message

def anchorOf (anchored : Bool) (messages : List Message) : Option ℕ :=
  if anchored then messages.findIdx? Message.hasImage else none

def keepOf (keepImages every : ℕ) (anchor : Option ℕ) (messages : List Message) : ℤ :=
  let frames : ℤ := (messages.map Message.images).sum
  let frames := if anchor.isSome then frames - 1 else frames
  if every > 0 then
    frames - every * (max 0 (frames - keepImages) / every)
  else keepImages

/-- The parts of a tool result, forwards, the frames that may still stay after
it, and whether one was replaced; `first` until the anchor frame is met. -/
def trimParts (stub : String) (first : Bool) (keep : ℤ) : List Part → List Part × ℤ × Bool
  | [] => ([], keep, false)
  | .text text :: rest =>
    let others := trimParts stub first keep rest
    (.text text :: others.1, others.2)
  | .image data :: rest =>
    if first then
      let others := trimParts stub false keep rest
      (.image data :: others.1, others.2)
    else
      let others := trimParts stub false (keep - 1) rest
      if keep > 0 then (.image data :: others.1, others.2)
      else (.text stub :: others.1, others.2.1, true)

def trimMessages (stub : String) (anchor : Option ℕ) (keep : ℤ) :
    List (Message × ℕ) → List Message × Bool
  | [] => ([], false)
  | (.toolResult content, index) :: rest =>
    let parts := trimParts stub (anchor = some index) keep content
    let others := trimMessages stub anchor parts.2.1 rest
    (.toolResult parts.1 :: others.1, parts.2.2 || others.2)
  | (message, _) :: rest =>
    let others := trimMessages stub anchor keep rest
    (message :: others.1, others.2)

def trimFrames (stub : String) (keepImages every : ℕ) (anchored : Bool)
    (messages : List Message) : Option (List Message) :=
  let anchor := anchorOf anchored messages
  let keep := keepOf keepImages every anchor messages
  let trimmed := trimMessages stub anchor keep messages.zipIdx.reverse
  if trimmed.2 then some trimmed.1.reverse else none

/-! ## Thinking of earlier turns -/

def textOnly : List String :=
  ["reasoning", "reasoning_content", "reasoning_text"]

def unsigned : Block → Bool
  | .thinking _ redacted signature =>
    !redacted && (signature.all fun name => name = "" || name ∈ textOnly)
  | .other _ => false

def Message.droppable : Message → Bool
  | .assistant api (some content) => api = "openai-completions" && content.any unsigned
  | _ => false

def lastAssistant (messages : List Message) : Option ℕ :=
  (messages.zipIdx.filter fun (message, _) =>
    match message with
    | .assistant _ _ => true
    | _ => false).getLast?.map Prod.snd

/-- A message before index `last` without its unsigned thinking. -/
def withoutThinking (last : ℤ) (index : ℕ) : Message → Message
  | .assistant api (some content) =>
    if (index : ℤ) < last ∧
        (Message.assistant api (some content)).droppable then
      .assistant api (some (content.filter fun block => !unsigned block))
    else .assistant api (some content)
  | message => message

def dropReplayedThinking (messages : List Message) (keepFrom : Option ℕ) : Option (List Message) :=
  let last : ℤ :=
    match keepFrom with
    | some keepFrom => keepFrom
    | none =>
      match lastAssistant messages with
      | some index => index
      | none => -1
  let changed := messages.zipIdx.any fun (message, index) =>
    decide ((index : ℤ) < last) && message.droppable
  if changed then
    some (messages.mapIdx fun index message => withoutThinking last index message)
  else none

/-- `--replay-thinking`: false, true, none or frames. -/
inductive ReplayThinking where
  | latest
  | all
  | none
  | frames
deriving DecidableEq

/-- The loop of `keepThinkingFrom` over the messages from an index. -/
def newestStub (stub : String) (start index : ℕ) : List Message → ℕ
  | [] => start
  | message :: rest =>
    newestStub stub (if message.hasStub stub then index + 1 else start)
      (index + 1) rest

def keepThinkingFrom (replay : ReplayThinking) (messages : List Message)
    (stub : String) : Option ℕ :=
  match replay with
  | .none => some messages.length
  | .frames => some (newestStub stub 0 0 messages)
  | _ => none

def request (stub : String) (keepImages every : ℕ) (anchored : Bool)
    (replay : ReplayThinking) (messages : List Message) : List Message :=
  let messages := (trimFrames stub keepImages every anchored messages).getD messages
  if replay = .all then messages
  else
    (dropReplayedThinking messages (keepThinkingFrom replay messages stub)).getD messages

def imageIndices (index : ℕ) : List Part → List ℕ
  | [] => []
  | .text _ :: rest => imageIndices (index + 1) rest
  | .image _ :: rest => index :: imageIndices (index + 1) rest

def stubbedParts (index : ℕ) : List Part → List Part → List ℕ
  | .image _ :: rest, .text _ :: others => index :: stubbedParts (index + 1) rest others
  | _ :: rest, _ :: others => stubbedParts (index + 1) rest others
  | _, _ => []

def stubbedFrom (index : ℕ) : List Message → List Message → List (ℕ × ℕ)
  | .toolResult content :: rest, .toolResult parts :: others =>
    (stubbedParts 0 content parts).map (index, ·) ++ stubbedFrom (index + 1) rest others
  | _ :: rest, _ :: others => stubbedFrom (index + 1) rest others
  | _, _ => []

/-- The frames that the messages of a request have a stub for. -/
def stubbed (messages rewritten : List Message) : List (ℕ × ℕ) :=
  stubbedFrom 0 messages rewritten

/-- The frames of some parts that may be replaced: the anchor may not. -/
def looseIndices (first : Bool) (index : ℕ) (content : List Part) : List ℕ :=
  if first then (imageIndices index content).tail
  else imageIndices index content

def looseFrames (anchor : Option ℕ) (index : ℕ) : Message → List ℕ
  | .toolResult content => looseIndices (anchor = some index) 0 content
  | _ => []

/-- The frames that may be replaced, the oldest message first and the frames of
one message from its last. -/
def orderFrom (anchor : Option ℕ) (index : ℕ) : List Message → List (ℕ × ℕ)
  | [] => []
  | message :: rest =>
    (looseFrames anchor index message).reverse.map (index, ·) ++ orderFrom anchor (index + 1) rest

def order (anchored : Bool) (messages : List Message) : List (ℕ × ℕ) :=
  orderFrom (anchorOf anchored messages) 0 messages

def cutOf (keepImages every frames : ℕ) : ℕ :=
  every * ((frames - keepImages) / every)

def oldFrames (keepImages every : ℕ) (anchored : Bool) (messages : List Message) : List (ℕ × ℕ) :=
  (order anchored messages).take (cutOf keepImages every (order anchored messages).length)

/-! ## Parts of one message -/

theorem length_imageIndices (index : ℕ) (content : List Part) :
    (imageIndices index content).length = content.countP Part.isImage := by
  induction content generalizing index with
  | nil => rfl
  | cons part rest ih =>
    cases part with
    | text text => simp [imageIndices, ih, Part.isImage]
    | image data => rw [imageIndices, List.length_cons, ih, List.countP_cons_of_pos rfl]

theorem trimParts_keep (stub : String) (first : Bool) (keep : ℤ) (index : ℕ) (content : List Part) :
    (trimParts stub first keep content).2.1 = keep - (looseIndices first index content).length := by
  induction content generalizing first keep index with
  | nil => simp [trimParts, looseIndices, imageIndices]
  | cons part rest ih =>
    cases part with
    | text text =>
      have others := ih first keep (index + 1)
      simpa [trimParts, looseIndices, imageIndices] using others
    | image data =>
      cases first with
      | true =>
        have others := ih false keep (index + 1)
        simpa [trimParts, looseIndices, imageIndices] using others
      | false =>
        have others := ih false (keep - 1) (index + 1)
        simp only [looseIndices, Bool.false_eq_true, if_false] at others
        simp only [trimParts, looseIndices, imageIndices,
          Bool.false_eq_true, if_false, List.length_cons]
        split
        · rw [others]
          omega
        · simp only [others]
          omega

variable {stub : String} {content : List Part}

theorem trimParts_same {first : Bool} {keep : ℤ}
    (unchanged : (trimParts stub first keep content).2.2 = false) :
    (trimParts stub first keep content).1 = content := by
  induction content generalizing first keep with
  | nil => rfl
  | cons part rest ih =>
    cases part with
    | text text =>
      simp only [trimParts] at unchanged ⊢
      rw [ih unchanged]
    | image data =>
      simp only [trimParts] at unchanged ⊢
      split at unchanged
      · rename_i isFirst
        rw [if_pos isFirst, ih unchanged]
      · rename_i notFirst
        split at unchanged
        · rename_i stays
          rw [if_neg notFirst, if_pos stays, ih unchanged]
        · cases unchanged

theorem stubbedParts_trimParts (stub : String) (first : Bool) (keep : ℤ) (index : ℕ)
    (content : List Part) :
    stubbedParts index content (trimParts stub first keep content).1 =
      (looseIndices first index content).drop keep.toNat := by
  induction content generalizing first keep index with
  | nil => simp [looseIndices, imageIndices, stubbedParts]
  | cons part rest ih =>
    cases part with
    | text text =>
      have others := ih first keep (index + 1)
      simpa [trimParts, looseIndices, imageIndices, stubbedParts] using others
    | image data =>
      cases first with
      | true =>
        have others := ih false keep (index + 1)
        simpa [trimParts, looseIndices, imageIndices, stubbedParts] using others
      | false =>
        have others := ih false (keep - 1) (index + 1)
        simp only [looseIndices, Bool.false_eq_true, if_false] at others
        simp only [trimParts, looseIndices, imageIndices, Bool.false_eq_true, if_false]
        split
        · rename_i stays
          have more : keep.toNat = (keep - 1).toNat + 1 := by omega
          rw [more, List.drop_succ_cons, ← others]
          rfl
        · rename_i gone
          have nothing : keep.toNat = 0 := by omega
          have nothingLeft : (keep - 1).toNat = 0 := by omega
          rw [nothingLeft, List.drop_zero] at others
          rw [nothing, List.drop_zero, ← others]
          rfl

theorem trimParts_kept {stub : String} {first : Bool} {keep : ℤ} {index : ℕ} {content : List Part}
    (enough : (looseIndices first index content).length ≤ keep) :
    (trimParts stub first keep content).1 = content := by
  apply trimParts_same
  induction content generalizing first keep index with
  | nil => rfl
  | cons part rest ih =>
    cases part with
    | text text =>
      have others := @ih first keep (index + 1)
      simp only [looseIndices, imageIndices] at others enough
      exact others enough
    | image data =>
      cases first with
      | true =>
        have others := @ih false keep (index + 1)
        simp only [looseIndices, imageIndices, if_true,
          Bool.false_eq_true, if_false, List.tail_cons] at others enough
        exact others enough
      | false =>
        have others := @ih false (keep - 1) (index + 1)
        simp only [looseIndices, imageIndices, Bool.false_eq_true,
          if_false, List.length_cons] at others enough
        have stays : keep > 0 := by omega
        simp only [trimParts, Bool.false_eq_true, if_false, stays, if_true]
        exact others (by omega)

theorem looseIndices_of_no_image
    (noImage : content.any Part.isImage = false) (first : Bool) (index : ℕ) :
    looseIndices first index content = [] := by
  have isNone : content.countP Part.isImage = 0 := by
    rw [List.countP_eq_zero]
    intro part member isImage
    rw [List.any_eq_false] at noImage
    exact noImage part member isImage
  have isEmpty : imageIndices index content = [] := by
    rw [← List.length_eq_zero_iff, length_imageIndices, isNone]
  cases first with
  | true | false => simp [looseIndices, isEmpty]

/-! ## Messages forwards -/

def trimMessage (stub : String) (anchor : Option ℕ) (keep : ℤ) (index : ℕ) : Message → Message
  | .toolResult content => .toolResult (trimParts stub (anchor = some index) keep content).1
  | message => message

/-- The messages when the oldest `cut` frames go, of which there are `before`
in earlier messages. -/
def trimFrom (stub : String) (anchor : Option ℕ) (cut before index : ℕ) :
    List Message → List Message
  | [] => []
  | message :: rest =>
    let count := (looseFrames anchor index message).length
    trimMessage stub anchor (before + count - cut) index message ::
      trimFrom stub anchor cut (before + count) (index + 1) rest

def countLoose (anchor : Option ℕ) (messages : List (Message × ℕ)) : ℕ :=
  (messages.map fun (message, index) => (looseFrames anchor index message).length).sum

theorem trimMessages_append (stub : String) (anchor : Option ℕ) (keep : ℤ)
    (later earlier : List (Message × ℕ)) :
    (trimMessages stub anchor keep (later ++ earlier)).1 =
      (trimMessages stub anchor keep later).1 ++
        (trimMessages stub anchor (keep - countLoose anchor later) earlier).1 := by
  induction later generalizing keep with
  | nil => simp [trimMessages, countLoose]
  | cons entry rest ih =>
    obtain ⟨message, index⟩ := entry
    have isSum :
        countLoose anchor ((message, index) :: rest) =
          (looseFrames anchor index message).length +
            countLoose anchor rest := by
      simp [countLoose]
    cases message with
    | toolResult content =>
      have isKeep := trimParts_keep stub (anchor = some index) keep 0 content
      have sameKeep :
          keep - (looseIndices (anchor = some index) 0 content).length - countLoose anchor rest =
            keep -
              ((looseIndices (anchor = some index) 0 content).length +
                countLoose anchor rest : ℕ) := by
        omega
      simp only [List.cons_append, trimMessages, ih, isKeep, isSum, looseFrames, sameKeep]
    | assistant api content | other value =>
      simp only [List.cons_append, trimMessages, ih,
        isSum, looseFrames, List.length_nil, Nat.zero_add]

theorem trimMessages_single (stub : String) (anchor : Option ℕ) (keep : ℤ) (message : Message)
    (index : ℕ) :
    (trimMessages stub anchor keep [(message, index)]).1 =
      [trimMessage stub anchor keep index message] := by
  cases message with
  | toolResult content | assistant api content | other value => rfl

theorem trimMessages_same {anchor : Option ℕ} {keep : ℤ} {messages : List (Message × ℕ)}
    (unchanged : (trimMessages stub anchor keep messages).2 = false) :
    (trimMessages stub anchor keep messages).1 = messages.map Prod.fst := by
  induction messages generalizing keep with
  | nil => rfl
  | cons entry rest ih =>
    obtain ⟨message, index⟩ := entry
    cases message with
    | toolResult content =>
      simp only [trimMessages, Bool.or_eq_false_iff] at unchanged ⊢
      rw [trimParts_same unchanged.1, ih unchanged.2]
      rfl
    | assistant api content | other value =>
      simp only [trimMessages] at unchanged ⊢
      rw [ih unchanged]
      rfl

variable (anchor : Option ℕ) (anchored : Bool)

theorem countLoose_zipIdx (index : ℕ) (messages : List Message) :
    countLoose anchor (messages.zipIdx index).reverse =
      (orderFrom anchor index messages).length := by
  induction messages generalizing index with
  | nil => rfl
  | cons message rest ih =>
    have isRest := ih (index + 1)
    simp only [countLoose, List.zipIdx_cons, List.reverse_cons,
      List.map_append, List.sum_append, List.map_cons, List.map_nil,
      List.sum_cons, List.sum_nil, orderFrom, List.length_append,
      List.length_map, List.length_reverse] at isRest ⊢
    omega

theorem trimMessages_eq (stub : String) (anchor : Option ℕ) (cut before index : ℕ)
    (messages : List Message) :
    (trimMessages stub anchor ((orderFrom anchor index messages).length + before - cut)
        (messages.zipIdx index).reverse).1.reverse =
      trimFrom stub anchor cut before index messages := by
  induction messages generalizing before index with
  | nil => rfl
  | cons message rest ih =>
    have isRest :=
      ih
        (before + (looseFrames anchor index message).length) (index + 1)
    have isLength :
        (orderFrom anchor index (message :: rest)).length =
          (looseFrames anchor index message).length +
            (orderFrom anchor (index + 1) rest).length := by
      simp [orderFrom]
    have sameKeep :
        (((orderFrom anchor index (message :: rest)).length : ℤ) + before - cut) =
          (orderFrom anchor (index + 1) rest).length +
            ((before + (looseFrames anchor index message).length : ℕ) : ℤ) -
            cut := by
      omega
    have leftKeep :
        ((orderFrom anchor (index + 1) rest).length : ℤ) +
            ((before + (looseFrames anchor index message).length : ℕ) : ℤ) -
            cut - (orderFrom anchor (index + 1) rest).length =
          before + (looseFrames anchor index message).length - cut := by
      omega
    rw [List.zipIdx_cons, List.reverse_cons, trimMessages_append,
      List.reverse_append, sameKeep, isRest, countLoose_zipIdx, leftKeep,
      trimMessages_single]
    rfl

/-! ## How many frames stay -/

theorem length_orderFrom_before {anchor : Option ℕ} {index : ℕ}
    (before : ∀ found ∈ anchor, found < index) (messages : List Message) :
    (orderFrom anchor index messages).length = (messages.map Message.images).sum := by
  induction messages generalizing index with
  | nil => rfl
  | cons message rest ih =>
    have notHere : anchor ≠ some index := by
      intro isHere
      exact absurd (before index isHere) (Nat.lt_irrefl index)
    have isRest := @ih (index + 1) fun found isFound => Nat.lt_succ_of_lt (before found isFound)
    have isImages : (looseFrames anchor index message).length = message.images := by
      cases message with
      | toolResult content =>
        simp [looseFrames, looseIndices, notHere, Message.images, length_imageIndices]
      | assistant api content | other value => rfl
    simp only [orderFrom, List.length_append, List.length_map,
      List.length_reverse, isImages, isRest, List.map_cons, List.sum_cons]

theorem length_orderFrom (index : ℕ) (messages : List Message) :
    ((orderFrom ((messages.findIdx? Message.hasImage).map (· + index)) index messages).length : ℤ) =
      (messages.map Message.images).sum -
        if (messages.findIdx? Message.hasImage).isSome then 1 else 0 := by
  induction messages generalizing index with
  | nil => rfl
  | cons message rest ih =>
    by_cases found : message.hasImage = true
    · have isFirst : (message :: rest).findIdx? Message.hasImage = some 0 := by
        simp [List.findIdx?_cons, found]
      have isRest := @length_orderFrom_before (some (0 + index)) (index + 1) (by simp) rest
      cases message with
      | toolResult content =>
        have positive : 0 < content.countP Part.isImage := by
          rw [List.countP_pos_iff]
          simpa [Message.hasImage] using found
        rw [isFirst]
        simp only [Option.map_some, orderFrom, List.length_append,
          List.length_map, List.length_reverse, looseFrames, looseIndices,
          Nat.zero_add, decide_true, if_true,
          List.length_tail, length_imageIndices, Option.isSome_some,
          List.map_cons, List.sum_cons, Message.images]
        simp only [Nat.zero_add] at isRest
        rw [isRest]
        omega
      | assistant api content | other value => cases found
    · have notHere : message.hasImage = false := by simpa using found
      have isLater :
          (message :: rest).findIdx? Message.hasImage =
            (rest.findIdx? Message.hasImage).map (· + 1) := by
        simp [List.findIdx?_cons, notHere]
      have isRest := ih (index + 1)
      have sameAnchor :
          ((rest.findIdx? Message.hasImage).map (· + 1)).map (· + index) =
            (rest.findIdx? Message.hasImage).map (· + (index + 1)) := by
        rw [Option.map_map]
        congr 1
        funext found
        simp only [Function.comp_apply]
        omega
      have nothing : ∀ anchor, looseFrames anchor index message = [] := by
        intro anchor
        cases message with
        | toolResult content => exact looseIndices_of_no_image notHere _ _
        | assistant api content | other value => rfl
      have noImages : message.images = 0 := by
        cases message with
        | toolResult content =>
          rw [Message.images, List.countP_eq_zero]
          rwa [Message.hasImage, List.any_eq_false] at notHere
        | assistant api content | other value => rfl
      rw [isLater, sameAnchor]
      simp only [orderFrom, nothing, List.reverse_nil, List.map_nil,
        List.nil_append, isRest, List.map_cons, List.sum_cons, noImages,
        Nat.zero_add, Option.isSome_map]

theorem length_order (messages : List Message) :
    ((order anchored messages).length : ℤ) =
      (messages.map Message.images).sum -
        if (anchorOf anchored messages).isSome then 1 else 0 := by
  cases anchored with
  | true =>
    have isLength := length_orderFrom 0 messages
    simp only [Nat.add_zero, Option.map_id'] at isLength
    exact isLength
  | false =>
    have isLength := @length_orderFrom_before none 0 (by simp) messages
    simp only [order, anchorOf, Bool.false_eq_true, if_false,
      Option.isSome_none, Int.sub_zero, isLength]

variable {every : ℕ}

theorem keepOf_eq (keepImages : ℕ) (positive : 0 < every) (anchored : Bool)
    (messages : List Message) :
    keepOf keepImages every (anchorOf anchored messages) messages =
      (order anchored messages).length -
        cutOf keepImages every (order anchored messages).length := by
  have isLength := length_order anchored messages
  have frames :
      (if (anchorOf anchored messages).isSome then
          ((messages.map Message.images).sum : ℤ) - 1
        else (messages.map Message.images).sum) =
        (order anchored messages).length := by
    rw [isLength]
    split
    · rfl
    · omega
  have exceeds :
      max 0 (((order anchored messages).length : ℤ) - keepImages) =
        ((order anchored messages).length - keepImages : ℕ) := by
    omega
  rw [keepOf]
  simp only [frames, exceeds, gt_iff_lt, positive, if_true, cutOf]
  push_cast
  rfl

def trimmed (stub : String) (keepImages every : ℕ) (anchored : Bool)
    (messages : List Message) : List Message :=
  (trimFrames stub keepImages every anchored messages).getD messages

def cut (keepImages every : ℕ) (anchored : Bool) (messages : List Message) :
    ℕ :=
  cutOf keepImages every (order anchored messages).length

variable {keepImages : ℕ}

theorem trimmed_eq (stub : String) (positive : 0 < every) (anchored : Bool)
    (messages : List Message) :
    trimmed stub keepImages every anchored messages =
      trimFrom stub (anchorOf anchored messages)
        (cut keepImages every anchored messages) 0 0 messages := by
  have isKeep := keepOf_eq keepImages positive anchored messages
  have isTrimmed :=
    trimMessages_eq stub (anchorOf anchored messages)
      (cut keepImages every anchored messages) 0 0 messages
  have sameKeep :
      keepOf keepImages every (anchorOf anchored messages) messages =
        ((orderFrom (anchorOf anchored messages) 0 messages).length : ℤ) +
          (0 : ℕ) - cut keepImages every anchored messages := by
    rw [isKeep, cut, order]
    omega
  rw [← isTrimmed, ← sameKeep, trimmed, trimFrames]
  split
  · rfl
  · rename_i unchanged
    rw [Bool.not_eq_true] at unchanged
    rw [trimMessages_same unchanged, ← List.map_reverse, List.reverse_reverse, List.zipIdx_map_fst]
    rfl

theorem stubbedFrom_trimFrom (stub : String) (anchor : Option ℕ) (cut before index : ℕ)
    (messages : List Message) :
    (stubbedFrom index messages (trimFrom stub anchor cut before index messages)).Perm
      ((orderFrom anchor index messages).take (cut - before)) := by
  induction messages generalizing before index with
  | nil => simp [stubbedFrom, orderFrom]
  | cons message rest ih =>
    have isRest :=
      ih
        (before + (looseFrames anchor index message).length) (index + 1)
    have isSplit :
        (orderFrom anchor index (message :: rest)).take (cut - before) =
          ((looseFrames anchor index message).reverse.take (cut - before)).map (index, ·) ++
            (orderFrom anchor (index + 1) rest).take
              (cut - (before + (looseFrames anchor index message).length)) := by
      rw [orderFrom, List.take_append, List.map_take, List.length_map,
        List.length_reverse, Nat.sub_sub]
    rw [isSplit]
    cases message with
    | toolResult content =>
      have isStubbed :=
        stubbedParts_trimParts stub (anchor = some index)
          (before + (looseFrames anchor index (.toolResult content)).length - cut)
          0 content
      have sameParts :
          (stubbedParts 0 content
            (trimParts stub (anchor = some index)
              (before + (looseFrames anchor index (.toolResult content)).length -
                cut) content).1).Perm
            ((looseFrames anchor index (.toolResult content)).reverse.take (cut - before)) := by
        rw [isStubbed, List.take_reverse]
        by_cases earlier : cut ≤ before
        · have isAll :
              (looseFrames anchor index (.toolResult content)).length ≤
                ((before : ℤ) +
                  (looseFrames anchor index (.toolResult content)).length - cut).toNat := by
            omega
          rw [Nat.sub_eq_zero_of_le earlier, Nat.sub_zero, List.drop_length, List.reverse_nil]
          rw [List.drop_eq_nil_of_le]
          exact isAll
        · have sameCount :
              ((before : ℤ) + (looseFrames anchor index (.toolResult content)).length - cut).toNat =
                (looseFrames anchor index (.toolResult content)).length - (cut - before) := by
            omega
          rw [sameCount]
          exact (List.reverse_perm _).symm
      exact (sameParts.map _).append isRest
    | assistant api content | other value =>
      simpa [trimFrom, stubbedFrom, trimMessage, looseFrames] using isRest

/-! ## Messages that are appended -/

variable {messages : List Message}

theorem images_of_not_hasImage (noImage : ∀ message ∈ messages, message.hasImage = false)
    (anchor : Option ℕ) (index : ℕ) : orderFrom anchor index messages = [] := by
  induction messages generalizing index with
  | nil => rfl
  | cons message rest ih =>
    have nothing : looseFrames anchor index message = [] := by
      have isNone := noImage message List.mem_cons_self
      cases message with
      | toolResult content => exact looseIndices_of_no_image isNone _ _
      | assistant api content | other value => rfl
    have isRest := ih (fun later member => noImage later (List.mem_cons_of_mem _ member))
      (index + 1)
    simp only [orderFrom, nothing, isRest, List.reverse_nil, List.map_nil, List.nil_append]

theorem anchorOf_append (anchored : Bool) (first added : List Message) :
    anchorOf anchored (first ++ added) = anchorOf anchored first ∨
      ∀ message ∈ first, message.hasImage = false := by
  cases anchored with
  | false => exact .inl rfl
  | true =>
    cases found : first.findIdx? Message.hasImage with
    | some index => exact .inl (by simp [anchorOf, List.findIdx?_append, found])
    | none => exact .inr (List.findIdx?_eq_none_iff.mp found)

theorem orderFrom_anchor (first added : List Message) :
    orderFrom (anchorOf anchored (first ++ added)) 0 first =
      order anchored first := by
  rcases anchorOf_append anchored first added with same | noImage
  · rw [order, same]
  · rw [order, images_of_not_hasImage noImage, images_of_not_hasImage noImage]

theorem orderFrom_append (index : ℕ) (first added : List Message) :
    orderFrom anchor index (first ++ added) =
      orderFrom anchor index first ++ orderFrom anchor (index + first.length) added := by
  induction first generalizing index with
  | nil => simp [orderFrom]
  | cons message rest ih =>
    have sameIndex : index + 1 + rest.length = index + (message :: rest).length := by
      rw [List.length_cons]
      omega
    rw [List.cons_append, orderFrom, orderFrom, ih, sameIndex, List.append_assoc]

theorem order_append (first added : List Message) :
    order anchored (first ++ added) =
      order anchored first ++
        orderFrom (anchorOf anchored (first ++ added)) first.length added := by
  rw [order, orderFrom_append, orderFrom_anchor, Nat.zero_add]

theorem cutOf_le (keepImages every frames : ℕ) : cutOf keepImages every frames ≤ frames :=
  Nat.le_trans (Nat.mul_div_le _ _) (Nat.sub_le _ _)

theorem cut_mono (keepImages every : ℕ) (anchored : Bool) (first added : List Message) :
    cut keepImages every anchored first ≤ cut keepImages every anchored (first ++ added) := by
  have more : (order anchored first).length ≤ (order anchored (first ++ added)).length := by
    rw [order_append, List.length_append]
    exact Nat.le_add_right _ _
  exact Nat.mul_le_mul_left every (Nat.div_le_div_right (Nat.sub_le_sub_right more keepImages))

theorem length_oldFrames (keepImages every : ℕ) (anchored : Bool) (messages : List Message) :
    (oldFrames keepImages every anchored messages).length =
      cut keepImages every anchored messages := by
  rw [oldFrames, List.length_take]
  exact Nat.min_eq_left (cutOf_le _ _ _)

theorem oldFrames_subset (keepImages every : ℕ) (anchored : Bool) (first added : List Message) :
    oldFrames keepImages every anchored first ⊆
      oldFrames keepImages every anchored (first ++ added) := by
  have inside :
      oldFrames keepImages every anchored first =
        (order anchored (first ++ added)).take (cut keepImages every anchored first) := by
    have isShort := cutOf_le keepImages every (order anchored first).length
    rw [order_append, cut, List.take_append_of_le_length isShort]
    rfl
  rw [inside]
  exact List.take_subset_take_left _ (cut_mono _ _ _ _ _)

variable {message : Message}

theorem trimMessage_of_not_hasImage
    (noImage : message.hasImage = false) (stub : String) (anchor : Option ℕ)
    (keep : ℤ) (index : ℕ) : trimMessage stub anchor keep index message = message := by
  cases message with
  | toolResult content =>
    have isSame : (trimParts stub (anchor = some index) keep content).1 = content := by
      apply trimParts_same
      have noPart := List.any_eq_false.mp noImage
      clear noImage
      generalize decide (anchor = some index) = first
      induction content with
      | nil => rfl
      | cons part rest ih =>
        cases part with
        | text text => exact ih fun later member => noPart later (List.mem_cons_of_mem _ member)
        | image data => exact absurd rfl (noPart (.image data) List.mem_cons_self)
    rw [trimMessage, isSame]
  | assistant api content | other value => rfl

theorem trimFrom_of_not_hasImage
    (noImage : ∀ message ∈ messages, message.hasImage = false) (stub : String)
    (anchor : Option ℕ) (cut before index : ℕ) :
    trimFrom stub anchor cut before index messages = messages := by
  induction messages generalizing before index with
  | nil => rfl
  | cons message rest ih =>
    have isSame := trimMessage_of_not_hasImage (noImage message List.mem_cons_self) stub anchor
    have isRest := ih fun later member => noImage later (List.mem_cons_of_mem _ member)
    simp only [trimFrom, isSame, isRest]

theorem trimFrom_anchor (stub : String) (anchored : Bool) (cut before : ℕ)
    (first added : List Message) :
    trimFrom stub (anchorOf anchored (first ++ added)) cut before 0 first =
      trimFrom stub (anchorOf anchored first) cut before 0 first := by
  rcases anchorOf_append anchored first added with same | noImage
  · rw [same]
  · rw [trimFrom_of_not_hasImage noImage, trimFrom_of_not_hasImage noImage]

theorem trimFrom_append (stub : String) (anchor : Option ℕ) (cut before index : ℕ)
    (first added : List Message) :
    trimFrom stub anchor cut before index (first ++ added) =
      trimFrom stub anchor cut before index first ++
        trimFrom stub anchor cut (before + (orderFrom anchor index first).length)
          (index + first.length) added := by
  induction first generalizing before index with
  | nil => simp [trimFrom, orderFrom]
  | cons message rest ih =>
    have sameIndex : index + 1 + rest.length = index + (message :: rest).length := by
      rw [List.length_cons]
      omega
    have sameBefore :
        before + (looseFrames anchor index message).length +
            (orderFrom anchor (index + 1) rest).length =
          before + (orderFrom anchor index (message :: rest)).length := by
      simp only [orderFrom, List.length_append, List.length_map, List.length_reverse]
      omega
    rw [List.cons_append, trimFrom, trimFrom]
    simp only [ih, sameIndex, sameBefore, List.cons_append]

theorem trimFrom_past (stub : String) (anchor : Option ℕ) {cut before : ℕ}
    (past : cut ≤ before) (index : ℕ) (messages : List Message) :
    trimFrom stub anchor cut before index messages = messages := by
  induction messages generalizing before index with
  | nil => rfl
  | cons message rest ih =>
    have isRest :=
      @ih (before + (looseFrames anchor index message).length)
        (Nat.le_trans past (Nat.le_add_right _ _)) (index + 1)
    have isSame :
        trimMessage stub anchor (before + (looseFrames anchor index message).length - cut) index
            message =
          message := by
      cases message with
      | toolResult content =>
        have enough :
            ((looseIndices (anchor = some index) 0 content).length : ℤ) ≤
              before + (looseIndices (anchor = some index) 0 content).length -
                cut := by
          omega
        rw [trimMessage, looseFrames, trimParts_kept enough]
      | assistant api content | other value => rfl
    simp only [trimFrom, isSame, isRest]

theorem trimmed_append (stub : String) (positive : 0 < every) (anchored : Bool)
    {first added : List Message}
    (same : cut keepImages every anchored first = cut keepImages every anchored (first ++ added)) :
    trimmed stub keepImages every anchored (first ++ added) =
      trimmed stub keepImages every anchored first ++ added := by
  have past : cut keepImages every anchored first ≤ 0 + (order anchored first).length := by
    rw [Nat.zero_add]
    exact cutOf_le _ _ _
  rw [trimmed_eq stub positive, trimmed_eq stub positive, ← same,
    trimFrom_append, trimFrom_anchor, orderFrom_anchor,
    trimFrom_past stub _ past]

/-! ## Which thinking goes -/

variable {index : ℕ}

theorem withoutThinking_same
    {last : ℤ} (stays : ¬ ((index : ℤ) < last ∧ message.droppable = true)) :
    withoutThinking last index message = message := by
  cases message with
  | toolResult content | other value => rfl
  | assistant api content =>
    cases content with
    | none => rfl
    | some content => rw [withoutThinking, if_neg stays]

theorem withoutThinking_ne {last : ℤ} (before : (index : ℤ) < last)
    (droppable : message.droppable = true) : withoutThinking last index message ≠ message := by
  cases message with
  | toolResult content | other value => cases droppable
  | assistant api content =>
    cases content with
    | none => cases droppable
    | some content =>
      rw [withoutThinking, if_pos ⟨before, droppable⟩]
      intro same
      simp only [Message.assistant.injEq, Option.some.injEq, List.filter_eq_self, true_and] at same
      simp only [Message.droppable, Bool.and_eq_true, List.any_eq_true] at droppable
      obtain ⟨block, member, isUnsigned⟩ := droppable.2
      simpa [isUnsigned] using same block member

/-- The index before which `dropReplayedThinking` drops thinking. -/
def lastOf (messages : List Message) : Option ℕ → ℤ
  | some keepFrom => keepFrom
  | none =>
    match lastAssistant messages with
    | some index => index
    | none => -1

theorem dropReplayedThinking_getD (messages : List Message) (keepFrom : Option ℕ) :
    (dropReplayedThinking messages keepFrom).getD messages =
      messages.mapIdx (withoutThinking (lastOf messages keepFrom)) := by
  have isLast :
      dropReplayedThinking messages keepFrom =
        if messages.zipIdx.any fun (message, index) =>
            decide ((index : ℤ) < lastOf messages keepFrom) && message.droppable then
          some (messages.mapIdx (withoutThinking (lastOf messages keepFrom)))
        else none := by
    cases keepFrom with
    | none | some keepFrom => rfl
  rw [isLast]
  split
  · rfl
  · rename_i unchanged
    rw [Option.getD_none]
    symm
    apply List.ext_getElem?
    intro index
    rw [List.getElem?_mapIdx]
    cases isMessage : messages[index]? with
    | none => rfl
    | some message =>
      rw [Option.map_some, withoutThinking_same]
      intro isDropped
      apply unchanged
      rw [List.any_eq_true]
      refine ⟨(message, index), ?_, by simpa using isDropped⟩
      rw [List.mem_zipIdx_iff_getElem?]
      exact isMessage

theorem request_frames (stub : String) (keepImages every : ℕ) (anchored : Bool)
    (messages : List Message) :
    request stub keepImages every anchored .frames messages =
      (trimmed stub keepImages every anchored messages).mapIdx
        (withoutThinking
          (newestStub stub 0 0 (trimmed stub keepImages every anchored messages))) := by
  rw [request]
  simp only [reduceCtorEq, if_false]
  rw [← trimmed, dropReplayedThinking_getD]
  rfl

theorem newestStub_append (stub : String) (start index : ℕ) (first added : List Message) :
    newestStub stub start index (first ++ added) =
      newestStub stub (newestStub stub start index first) (index + first.length) added := by
  induction first generalizing start index with
  | nil => rfl
  | cons message rest ih =>
    have sameIndex : index + 1 + rest.length = index + (message :: rest).length := by
      rw [List.length_cons]
      omega
    rw [List.cons_append, newestStub, newestStub, ih, sameIndex]

theorem newestStub_of_not_hasStub (absent : ∀ message ∈ messages, message.hasStub stub = false)
    (start index : ℕ) : newestStub stub start index messages = start := by
  induction messages generalizing index with
  | nil => rfl
  | cons message rest ih =>
    have notHere := absent message List.mem_cons_self
    rw [newestStub, notHere, if_neg (by simp)]
    exact ih (fun later member => absent later (List.mem_cons_of_mem _ member)) _

theorem start_le_newestStub (stub : String) {start index : ℕ} (before : start ≤ index)
    (messages : List Message) : start ≤ newestStub stub start index messages := by
  induction messages generalizing start index with
  | nil => exact Nat.le_refl start
  | cons message rest ih =>
    rw [newestStub]
    split
    · have isRest := @ih (index + 1) (index + 1) (Nat.le_refl _)
      omega
    · exact ih (Nat.le_succ_of_le before)

theorem newestStub_le {stub : String} {start index bound : ℕ} {messages : List Message}
    (inside : start ≤ bound) :
    newestStub stub start index messages ≤ bound ↔
      ∀ later message, messages[later]? = some message →
        message.hasStub stub = true → index + later < bound := by
  induction messages generalizing start index with
  | nil => simp [newestStub, inside]
  | cons message rest ih =>
    have isSplit :
        (∀ later found, (message :: rest)[later]? = some found →
            found.hasStub stub = true → index + later < bound) ↔
          (message.hasStub stub = true → index < bound) ∧
            ∀ later found, rest[later]? = some found →
              found.hasStub stub = true → index + 1 + later < bound := by
      constructor
      · intro all
        refine ⟨fun isStub => all 0 message rfl isStub, ?_⟩
        intro later found isFound isStub
        have isBefore := all (later + 1) found isFound isStub
        omega
      · rintro ⟨here, others⟩ later found isFound isStub
        cases later with
        | zero =>
          cases isFound
          exact here isStub
        | succ later =>
          have isBefore := others later found isFound isStub
          omega
    rw [isSplit, newestStub]
    by_cases isStub : message.hasStub stub = true
    · rw [if_pos isStub]
      by_cases before : index < bound
      · rw [@ih (index + 1) (index + 1) before]
        simp only [isStub, before, true_implies, true_and]
      · have isLate :=
          start_le_newestStub stub (Nat.le_refl (index + 1)) rest
        constructor
        · intro isBefore
          omega
        · rintro ⟨here, _⟩
          exact absurd (here isStub) before
    · rw [if_neg isStub, @ih start (index + 1) inside]
      simp only [isStub, Bool.false_eq_true, false_implies, true_and]

theorem newestStub_inside (stub : String) {start : ℕ} (before : start ≤ index)
    (messages : List Message) : newestStub stub start index messages ≤ index + messages.length := by
  rw [newestStub_le (by omega)]
  intro later message isMessage _
  have inside := (List.getElem?_eq_some_iff.mp isMessage).1
  omega

theorem lt_newestStub {start : ℕ} (before : start ≤ index)
    (shown : ∃ message ∈ messages, message.hasStub stub = true) :
    index < newestStub stub start index messages := by
  obtain ⟨message, member, isStub⟩ := shown
  obtain ⟨later, isMessage⟩ := List.mem_iff_getElem?.mp member
  by_contra notLater
  have isBefore :=
    (newestStub_le before).mp (Nat.le_of_not_lt notLater) later message isMessage isStub
  omega

/-- Where two histories leave out thinking, they are the same up to a length
when no message between has thinking to leave out. -/
theorem mapIdx_withoutThinking_eq
    {early late : ℕ} (ordered : early ≤ late) (all : messages.length ≤ late) :
    messages.mapIdx (withoutThinking early) = messages.mapIdx (withoutThinking late) ↔
      ∀ index message, messages[index]? = some message →
        message.droppable = true → index < early := by
  constructor
  · intro same index message isMessage droppable
    by_contra notEarly
    have inside := (List.getElem?_eq_some_iff.mp isMessage).1
    have atIndex := congrArg (fun list => list[index]?) same
    simp only [List.getElem?_mapIdx, isMessage, Option.map_some, Option.some.injEq] at atIndex
    rw [withoutThinking_same (by omega)] at atIndex
    exact withoutThinking_ne (by omega) droppable atIndex.symm
  · intro none
    apply List.ext_getElem?
    intro index
    simp only [List.getElem?_mapIdx]
    cases isMessage : messages[index]? with
    | none => rfl
    | some message =>
      rw [Option.map_some, Option.map_some]
      by_cases droppable : message.droppable = true
      · have before := none index message isMessage droppable
        cases message with
        | toolResult content | other value => rfl
        | assistant api content =>
          cases content with
          | none => rfl
          | some content =>
            rw [withoutThinking, withoutThinking,
              if_pos ⟨by omega, droppable⟩,
              if_pos ⟨by omega, droppable⟩]
      · rw [withoutThinking_same fun both => droppable both.2,
          withoutThinking_same fun both => droppable both.2]

/-! ## Which messages show a stub -/

theorem trimParts_hasStub (stub : String) (first : Bool) (keep : ℤ) (index : ℕ)
    (content : List Part) :
    (trimParts stub first keep content).1.any (· = .text stub) = true ↔
      content.any (· = .text stub) = true ∨
        ∃ part, part ∈ stubbedParts index content (trimParts stub first keep content).1 := by
  induction content generalizing first keep index with
  | nil => simp [trimParts, stubbedParts]
  | cons part rest ih =>
    cases part with
    | text text =>
      have others := ih first keep (index + 1)
      simp only [trimParts, stubbedParts, List.any_cons, Bool.or_eq_true, others, or_assoc]
    | image data =>
      cases first with
      | true =>
        have others := ih false keep (index + 1)
        simpa [trimParts, stubbedParts] using others
      | false =>
        have others := ih false (keep - 1) (index + 1)
        simp only [trimParts, Bool.false_eq_true, if_false]
        split
        · simpa [stubbedParts] using others
        · simp [stubbedParts]

variable {frame : ℕ × ℕ}

theorem le_of_mem_stubbedFrom {rewritten : List Message}
    (member : frame ∈ stubbedFrom index messages rewritten) : index ≤ frame.1 := by
  induction messages generalizing index rewritten with
  | nil => simp [stubbedFrom] at member
  | cons message rest ih =>
    cases rewritten with
    | nil => simp [stubbedFrom] at member
    | cons other others =>
      have isLater : frame ∈ stubbedFrom (index + 1) rest others → index ≤ frame.1 := fun later =>
        Nat.le_of_succ_le (ih later)
      cases message with
      | toolResult content =>
        cases other with
        | toolResult parts =>
          rw [stubbedFrom, List.mem_append] at member
          rcases member with here | later
          · obtain ⟨part, _, rfl⟩ := List.mem_map.mp here
            exact Nat.le_refl index
          · exact isLater later
        | assistant api content | other value => exact isLater member
      | assistant api content | other value => exact isLater member

/-- A message that is rewritten shows the stub when it has it as a text of its
own, or for a frame of its. -/
theorem trimFrom_shows (stub : String) (anchor : Option ℕ) (cut before index : ℕ)
    {messages : List Message} {position : ℕ} {message : Message}
    (isMessage : messages[position]? = some message) :
    ∃ rewritten,
      (trimFrom stub anchor cut before index messages)[position]? = some rewritten ∧
        rewritten.droppable = message.droppable ∧
        (rewritten.hasStub stub = true ↔
          message.hasStub stub = true ∨
            ∃ part,
              (index + position, part) ∈ stubbedFrom index messages
                (trimFrom stub anchor cut before index messages)) := by
  induction messages generalizing before index position with
  | nil => cases isMessage
  | cons head rest ih =>
    cases position with
    | zero =>
      cases isMessage
      refine ⟨_, rfl, ?_, ?_⟩
      · cases message with
        | toolResult content | assistant api content | other value => rfl
      · have notLater : ∀ part,
            (index, part) ∉ stubbedFrom (index + 1) rest
              (trimFrom stub anchor cut (before + (looseFrames anchor index message).length)
                (index + 1) rest) := fun part member =>
          absurd (le_of_mem_stubbedFrom member) (Nat.not_succ_le_self index)
        cases message with
        | toolResult content =>
          simp only [trimFrom, trimMessage, Message.hasStub,
            trimParts_hasStub stub _ _ 0 content, stubbedFrom,
            Nat.add_zero, List.mem_append, List.mem_map, Prod.mk.injEq,
            true_and, exists_eq_right, notLater, or_false]
        | assistant api content | other value =>
          simp only [trimFrom, trimMessage, Message.hasStub, stubbedFrom,
            Nat.add_zero, notLater, exists_false, or_false]
    | succ position =>
      obtain ⟨rewritten, isRewritten, sameThinking, shows⟩ :=
        @ih (before + (looseFrames anchor index head).length) (index + 1) position isMessage
      refine ⟨rewritten, isRewritten, sameThinking, ?_⟩
      rw [shows]
      have sameIndex : index + 1 + position = index + (position + 1) := by omega
      rw [sameIndex]
      have notHere : ∀ part (parts : List ℕ),
          (index + (position + 1), part) ∉ parts.map (index, ·) := by
        intro part parts member
        obtain ⟨_, _, same⟩ := List.mem_map.mp member
        have isIndex := congrArg Prod.fst same
        simp only at isIndex
        omega
      cases head with
      | toolResult content =>
        simp only [trimFrom, trimMessage, stubbedFrom, List.mem_append, notHere, false_or]
      | assistant api content | other value => simp only [trimFrom, trimMessage, stubbedFrom]

theorem length_trimFrom (stub : String) (anchor : Option ℕ) (cut before index : ℕ)
    (messages : List Message) :
    (trimFrom stub anchor cut before index messages).length =
      messages.length := by
  induction messages generalizing before index with
  | nil => rfl
  | cons message rest ih => simp only [trimFrom, List.length_cons, ih]

theorem stubbed_trimmed (stub : String) (keepImages : ℕ) (positive : 0 < every) (anchored : Bool)
    (messages : List Message) :
    (stubbed messages (trimmed stub keepImages every anchored messages)).Perm
      (oldFrames keepImages every anchored messages) := by
  rw [trimmed_eq stub positive, stubbed]
  exact stubbedFrom_trimFrom stub _ _ 0 0 messages

theorem stubbedFrom_mapIdx {rewrite : ℕ → Message → Message}
    (tools : ∀ index content, rewrite index (.toolResult content) = .toolResult content)
    (others : ∀ index message,
      (∀ content, message ≠ .toolResult content) →
        ∀ content, rewrite index message ≠ .toolResult content)
    (index : ℕ) (messages rewritten : List Message) :
    stubbedFrom index messages (rewritten.mapIdx rewrite) =
      stubbedFrom index messages rewritten := by
  induction messages generalizing index rewritten rewrite with
  | nil => simp [stubbedFrom]
  | cons message rest ih =>
    cases rewritten with
    | nil => rfl
    | cons head later =>
      have isRest :=
        @ih (fun index => rewrite (index + 1)) (fun index => tools (index + 1))
          (fun index => others (index + 1)) (index + 1) later
      rw [List.mapIdx_cons]
      cases message with
      | toolResult content =>
        cases isHead : rewrite 0 head with
        | toolResult parts =>
          cases head with
          | toolResult before =>
            rw [tools] at isHead
            rw [← isHead, stubbedFrom, stubbedFrom, isRest]
          | assistant api before =>
            exact absurd isHead (others 0 _ (fun _ same => by cases same) parts)
          | other value => exact absurd isHead (others 0 _ (fun _ same => by cases same) parts)
        | assistant api after | other value =>
          cases head with
          | toolResult before =>
            rw [tools] at isHead
            cases isHead
          | assistant api before | other value => exact isRest
      | assistant api content | other value => exact isRest

theorem stubbed_request (stub : String) (keepImages every : ℕ) (anchored : Bool)
    (replay : ReplayThinking) (messages : List Message) :
    stubbed messages (request stub keepImages every anchored replay messages) =
      stubbed messages (trimmed stub keepImages every anchored messages) := by
  have isRequest :
      request stub keepImages every anchored replay messages =
        if replay = .all then trimmed stub keepImages every anchored messages
        else
          (dropReplayedThinking (trimmed stub keepImages every anchored messages)
            (keepThinkingFrom replay (trimmed stub keepImages every anchored messages) stub)).getD
            (trimmed stub keepImages every anchored messages) := rfl
  rw [isRequest]
  split
  · rfl
  · rw [dropReplayedThinking_getD]
    apply stubbedFrom_mapIdx
    · intro index content
      rfl
    · intro index message notTool content isTool
      cases message with
      | toolResult before => exact notTool before rfl
      | other value => cases isTool
      | assistant api before =>
        cases before with
        | none => cases isTool
        | some before =>
          rw [withoutThinking] at isTool
          split at isTool
          · cases isTool
          · cases isTool

/-! ## Requests of a conversation that grows -/

def frames (anchored : Bool) (messages : List Message) : ℕ :=
  (messages.map Message.images).sum -
    if anchored && messages.any Message.hasImage then 1 else 0

def anchorFrame (anchored : Bool) (messages : List Message) :
    Option (ℕ × ℕ) := do
  let index ← anchorOf anchored messages
  match messages[index]? with
  | some (.toolResult content) => (imageIndices 0 content).head?.map (index, ·)
  | _ => none

/-- The frames that a request has a stub for are a multiple of `every`, and the
anchor is none of them. -/
structure Trims (keepImages every : ℕ) (anchored : Bool)
    (messages rewritten : List Message) : Prop where
  multiple : every ∣ (stubbed messages rewritten).length
  stay : ∃ kept,
    kept + (stubbed messages rewritten).length = frames anchored messages ∧
      min keepImages (frames anchored messages) ≤ kept ∧
      kept ≤ keepImages + every - 1
  anchor : ∀ frame ∈ anchorFrame anchored messages, frame ∉ stubbed messages rewritten

theorem frames_eq (messages : List Message) :
    frames anchored messages = (order anchored messages).length := by
  have isLength := length_order anchored messages
  have sameAnchor :
      (anchored && messages.any Message.hasImage) = (anchorOf anchored messages).isSome := by
    cases anchored with
    | false => rfl
    | true => rw [Bool.true_and, anchorOf, if_pos rfl, List.findIdx?_isSome]
  rw [frames, sameAnchor]
  split
  · rename_i found
    rw [if_pos found] at isLength
    omega
  · rename_i notFound
    rw [if_neg notFound] at isLength
    omega

theorem cutOf_stay (keepImages : ℕ) (positive : 0 < every) (frames : ℕ) :
    min keepImages frames ≤ frames - cutOf keepImages every frames ∧
      frames - cutOf keepImages every frames ≤ keepImages + every - 1 := by
  have isDivision := Nat.div_add_mod (frames - keepImages) every
  have isSmall := Nat.mod_lt (frames - keepImages) positive
  rw [cutOf]
  omega

theorem mem_orderFrom {anchor : Option ℕ} (member : frame ∈ orderFrom anchor index messages) :
    ∃ position message,
      messages[position]? = some message ∧ frame.1 = index + position ∧
        frame.2 ∈ looseFrames anchor (index + position) message := by
  induction messages generalizing index with
  | nil => cases member
  | cons message rest ih =>
    rw [orderFrom, List.mem_append] at member
    rcases member with here | later
    · obtain ⟨part, isPart, rfl⟩ := List.mem_map.mp here
      exact ⟨0, message, rfl, rfl, List.mem_reverse.mp isPart⟩
    · obtain ⟨position, found, isFound, isIndex, isPart⟩ :=
        ih later
      have sameIndex : index + 1 + position = index + (position + 1) := by omega
      rw [sameIndex] at isIndex isPart
      exact ⟨position + 1, found, isFound, isIndex, isPart⟩

theorem le_of_mem_imageIndices
    {part : ℕ} (member : part ∈ imageIndices index content) : index ≤ part := by
  induction content generalizing index with
  | nil => cases member
  | cons head rest ih =>
    cases head with
    | text text => exact Nat.le_of_succ_le (ih member)
    | image data =>
      rcases List.mem_cons.mp member with rfl | later
      · exact Nat.le_refl part
      · exact Nat.le_of_succ_le (ih later)

theorem head_not_mem_tail {part : ℕ} (isHead : (imageIndices index content).head? = some part) :
    part ∉ (imageIndices index content).tail := by
  induction content generalizing index with
  | nil => cases isHead
  | cons head rest ih =>
    cases head with
    | text text => exact ih isHead
    | image data =>
      simp only [imageIndices, List.head?_cons, Option.some.injEq] at isHead
      subst isHead
      intro member
      exact absurd (le_of_mem_imageIndices member) (Nat.not_succ_le_self _)

theorem anchorFrame_not_mem_order
    {anchored : Bool} (isAnchor : anchorFrame anchored messages = some frame) :
    frame ∉ order anchored messages := by
  intro member
  obtain ⟨position, message, isMessage, isIndex, isPart⟩ := mem_orderFrom member
  rw [Nat.zero_add] at isIndex isPart
  simp only [anchorFrame, Option.bind_eq_bind, Option.bind_eq_some_iff] at isAnchor
  obtain ⟨index, atIndex, isFrame⟩ := isAnchor
  split at isFrame
  · rename_i content isContent
    obtain ⟨part, isHead, rfl⟩ := Option.map_eq_some_iff.mp isFrame
    simp only at isIndex
    subst isIndex
    rw [isMessage, Option.some.injEq] at isContent
    subst isContent
    rw [looseFrames, atIndex, looseIndices, if_pos (by simp)] at isPart
    exact head_not_mem_tail isHead isPart
  · cases isFrame

theorem request_trims (stub : String) (keepImages : ℕ) (positive : 0 < every) (anchored : Bool)
    (replay : ReplayThinking) (messages : List Message) :
    Trims keepImages every anchored messages
      (request stub keepImages every anchored replay messages) := by
  have same := stubbed_request stub keepImages every anchored replay messages
  have isOld := stubbed_trimmed stub keepImages positive anchored messages
  have isLength :
      (stubbed messages (trimmed stub keepImages every anchored messages)).length =
        cut keepImages every anchored messages := by
    rw [isOld.length_eq, length_oldFrames]
  have stays := cutOf_stay keepImages positive (order anchored messages).length
  have inside := cutOf_le keepImages every (order anchored messages).length
  refine ⟨?_, ?_, ?_⟩
  · rw [same, isLength]
    exact Nat.dvd_mul_right every _
  · rw [same, isLength, frames_eq]
    exact ⟨_, Nat.sub_add_cancel inside, stays⟩
  · intro frame isAnchor member
    rw [same, isOld.mem_iff] at member
    exact anchorFrame_not_mem_order isAnchor (List.take_subset _ _ member)

theorem stubbed_subset (stub : String) (keepImages : ℕ) (positive : 0 < every) (anchored : Bool)
    (replay : ReplayThinking) (first added : List Message) :
    stubbed first (request stub keepImages every anchored replay first) ⊆
      stubbed (first ++ added)
        (request stub keepImages every anchored replay (first ++ added)) := by
  have before := stubbed_trimmed stub keepImages positive anchored first
  have after := stubbed_trimmed stub keepImages positive anchored (first ++ added)
  intro frame member
  rw [stubbed_request, before.mem_iff] at member
  rw [stubbed_request, after.mem_iff]
  exact oldFrames_subset keepImages every anchored first added member

/-- A message of a conversation has the stub in its request: as a text of its
own, or for an old frame. -/
def Shows (stub : String) (keepImages every : ℕ) (anchored : Bool)
    (messages : List Message) (index : ℕ) : Prop :=
  (∃ message, messages[index]? = some message ∧ message.hasStub stub = true) ∨
    ∃ part, (index, part) ∈ oldFrames keepImages every anchored messages

/-- Either no tool result that is added has the stub as its own text, or all the
thinking that may be left out stands before a message that shows the stub. -/
def Settled (stub : String) (keepImages every : ℕ) (anchored : Bool)
    (first added : List Message) : Prop :=
  (∃ message ∈ added, message.hasStub stub = true) →
    ∀ index message, first[index]? = some message →
      message.droppable = true →
        ∃ later, index ≤ later ∧ Shows stub keepImages every anchored first later

theorem trimmed_shows (stub : String) (keepImages : ℕ) (positive : 0 < every) (anchored : Bool)
    (isMessage : messages[index]? = some message) :
    ∃ rewritten,
      (trimmed stub keepImages every anchored messages)[index]? = some rewritten ∧
        rewritten.droppable = message.droppable ∧
        (rewritten.hasStub stub = true ↔ Shows stub keepImages every anchored messages index) := by
  have isOld := stubbed_trimmed stub keepImages positive anchored messages
  rw [trimmed_eq stub positive] at isOld ⊢
  obtain ⟨rewritten, isRewritten, sameThinking, shows⟩ :=
    trimFrom_shows stub (anchorOf anchored messages)
      (cut keepImages every anchored messages) 0 0 isMessage
  refine ⟨rewritten, isRewritten, sameThinking, ?_⟩
  have isMember : ∀ frame,
      frame ∈ stubbedFrom 0 messages
          (trimFrom stub (anchorOf anchored messages)
            (cut keepImages every anchored messages) 0 0 messages) ↔
        frame ∈ oldFrames keepImages every anchored messages :=
    fun _ => isOld.mem_iff
  rw [shows, Shows, Nat.zero_add]
  simp only [isMember, isMessage, Option.some.injEq, exists_eq_left']

theorem Shows.inside {anchored : Bool}
    (shows : Shows stub keepImages every anchored messages index) :
    ∃ message, messages[index]? = some message := by
  rcases shows with ⟨message, isMessage, _⟩ | ⟨part, isOld⟩
  · exact ⟨message, isMessage⟩
  · obtain ⟨position, message, isMessage, isIndex, _⟩ :=
      mem_orderFrom (List.take_subset _ _ isOld)
    rw [Nat.zero_add] at isIndex
    subst isIndex
    exact ⟨message, isMessage⟩

theorem lt_newestStub_iff (stub : String) (positive : 0 < every) (anchored : Bool)
    (messages : List Message) (index : ℕ) :
    index < newestStub stub 0 0 (trimmed stub keepImages every anchored messages) ↔
      ∃ later, index ≤ later ∧
        Shows stub keepImages every anchored messages later := by
  have isBound :=
    @newestStub_le stub 0 0 index
      (trimmed stub keepImages every anchored messages) (Nat.zero_le index)
  rw [← Nat.not_le, isBound]
  constructor
  · intro notAll
    by_contra none
    apply notAll
    intro later rewritten isRewritten isStub
    rw [Nat.zero_add]
    by_contra notBefore
    have inside := (List.getElem?_eq_some_iff.mp isRewritten).1
    rw [trimmed_eq stub positive, length_trimFrom] at inside
    obtain ⟨found, isFound, _, shows⟩ :=
      trimmed_shows stub keepImages positive anchored (List.getElem?_eq_getElem inside)
    rw [isRewritten, Option.some.injEq] at isFound
    subst isFound
    exact none ⟨later, Nat.le_of_not_lt notBefore, shows.mp isStub⟩
  · rintro ⟨later, isLater, shown⟩ all
    obtain ⟨message, isMessage⟩ := shown.inside
    obtain ⟨rewritten, isRewritten, _, shows⟩ :=
      trimmed_shows stub keepImages positive anchored isMessage
    have before := all later rewritten isRewritten (shows.mpr shown)
    omega

/-- Requests with the same number of stubs: the first is the start of the second
when their histories are settled. -/
theorem request_prefix_iff (stub : String) (positive : 0 < every) (anchored : Bool)
    {first added : List Message}
    (same : cut keepImages every anchored first = cut keepImages every anchored (first ++ added)) :
    request stub keepImages every anchored .frames first <+:
        request stub keepImages every anchored .frames (first ++ added) ↔
      Settled stub keepImages every anchored first added := by
  have isTrimmed := trimmed_append stub positive anchored same
  have isLength :
      (trimmed stub keepImages every anchored first).length =
        first.length := by
    rw [trimmed_eq stub positive, length_trimFrom]
  have inside :=
    newestStub_inside stub (Nat.le_refl 0) (trimmed stub keepImages every anchored first)
  rw [Nat.zero_add] at inside
  rw [request_frames, request_frames, isTrimmed, newestStub_append,
    Nat.zero_add, List.mapIdx_append, List.prefix_iff_eq_take,
    List.take_left' (by simp)]
  by_cases shown : ∃ message ∈ added, message.hasStub stub = true
  · have isLate := lt_newestStub inside shown
    rw [mapIdx_withoutThinking_eq (by omega) (by omega), Settled]
    simp only [shown, true_implies, lt_newestStub_iff stub positive]
    constructor
    · intro all index message isMessage droppable
      obtain ⟨rewritten, isRewritten, sameThinking, _⟩ :=
        trimmed_shows stub keepImages positive anchored isMessage
      exact all index rewritten isRewritten (sameThinking.trans droppable)
    · intro all index rewritten isRewritten droppable
      have isInside := (List.getElem?_eq_some_iff.mp isRewritten).1
      rw [isLength] at isInside
      obtain ⟨found, isFound, sameThinking, _⟩ :=
        trimmed_shows stub keepImages positive anchored (List.getElem?_eq_getElem isInside)
      rw [isRewritten, Option.some.injEq] at isFound
      subst isFound
      exact all index _ (List.getElem?_eq_getElem isInside) (sameThinking.symm.trans droppable)
  · have absent : ∀ message ∈ added, message.hasStub stub = false := by
      intro message member
      rw [← Bool.not_eq_true]
      exact fun isStub => shown ⟨message, member, isStub⟩
    rw [newestStub_of_not_hasStub absent, Settled]
    simp [shown]

/-- The requests of a conversation and of what it grows to: how many frames they
have a stub for, which, and, with `frames`, that the first is the start of the
second while both have as many. -/
structure Stable (stub : String) (keepImages every : ℕ) (anchored : Bool)
    (first added : List Message) : Prop where
  trims : ∀ replay messages,
    messages = first ∨ messages = first ++ added →
      Trims keepImages every anchored messages
        (request stub keepImages every anchored replay messages)
  grows : ∀ replay,
    stubbed first (request stub keepImages every anchored replay first) ⊆
      stubbed (first ++ added) (request stub keepImages every anchored replay (first ++ added))
  isPrefix :
    (stubbed first (request stub keepImages every anchored .frames first)).length =
      (stubbed (first ++ added)
        (request stub keepImages every anchored .frames (first ++ added))).length →
      request stub keepImages every anchored .frames first <+:
        request stub keepImages every anchored .frames (first ++ added)

/-- The requests are stable exactly while histories with as many old frames are
settled. -/
theorem stable_iff (stub : String) (keepImages : ℕ) {every : ℕ} (positive : 0 < every)
    (anchored : Bool) (first added : List Message) :
    Stable stub keepImages every anchored first added ↔
      ((oldFrames keepImages every anchored first).length =
          (oldFrames keepImages every anchored (first ++ added)).length →
        Settled stub keepImages every anchored first added) := by
  have howMany : ∀ messages,
      (stubbed messages (request stub keepImages every anchored .frames messages)).length =
        cut keepImages every anchored messages := by
    intro messages
    rw [stubbed_request, (stubbed_trimmed stub keepImages positive anchored messages).length_eq,
      length_oldFrames]
  rw [length_oldFrames, length_oldFrames]
  constructor
  · intro stable same
    have isPrefix := stable.isPrefix (by rw [howMany, howMany, same])
    exact (request_prefix_iff stub positive anchored same).mp isPrefix
  · intro settled
    refine ⟨?_, ?_, ?_⟩
    · intro replay messages _
      exact request_trims stub keepImages positive anchored replay messages
    · intro replay
      exact stubbed_subset stub keepImages positive anchored replay first added
    · intro same
      rw [howMany, howMany] at same
      exact (request_prefix_iff stub positive anchored same).mpr (settled same)

/-- The condition, for a conversation where a tool returns a frame. -/
theorem stable_after_frame :
    0 < 8 ∧
      (Stable "[older camera frame omitted]" 2 8 true
          [.other "go", .assistant "openai-completions" (some [])]
          [.toolResult [.image "frame"]] ↔
        ((oldFrames 2 8 true [.other "go", .assistant "openai-completions" (some [])]).length =
            (oldFrames 2 8 true
              ([.other "go", .assistant "openai-completions" (some [])] ++
                [.toolResult [.image "frame"]])).length →
          Settled "[older camera frame omitted]" 2 8 true
            [.other "go", .assistant "openai-completions" (some [])]
            [.toolResult [.image "frame"]])) :=
  ⟨by decide, stable_iff "[older camera frame omitted]" 2 (by decide) true
    [.other "go", .assistant "openai-completions" (some [])]
    [.toolResult [.image "frame"]]⟩

/-- A tool result whose text is the stub takes the thinking of the request
before it. -/
theorem not_stable_of_stub_text :
    ¬ ∀ first added, Stable "[older camera frame omitted]" 2 8 false first added := by
  intro all
  have isPrefix :=
    (all
      [.other "go",
        .assistant "openai-completions" (some [.thinking "look first" false none, .other "read"])]
      [.toolResult [.text "[older camera frame omitted]"]]).isPrefix
      (by decide +kernel)
  exact absurd isPrefix (by decide +kernel)

end PiEmbodied.Robot.Frames
