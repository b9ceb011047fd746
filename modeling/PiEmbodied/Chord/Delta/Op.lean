import PiEmbodied.Chord.Json
import PiEmbodied.Coding

/-!
# Operations

An operation is a tuple of a verb, a path and a payload.  `r` alone replaces a
whole value; the other six edit the value at a path.  `WireOp` adds what exists
only between an encoder and a decoder: numbered paths, omitted paths and
definitions.  The two validators read raw tuples and give the operation they
found, or the error they throw.
-/

namespace PiEmbodied.Chord.Delta

variable {ι : Type}

/-! ## Paths -/

inductive Seg where
  | key (name : Text)
  | index (at_ : ℕ)
deriving DecidableEq

abbrev Path := List Seg

def RESERVED_SEGMENTS : List Text :=
  [units "__proto__", units "constructor", units "prototype"]

def Seg.Safe : Seg → Prop
  | .key name => name ∉ RESERVED_SEGMENTS
  | .index _ => True

instance : DecidablePred Seg.Safe := fun segment =>
  match segment with
  | .key name => inferInstanceAs (Decidable (name ∉ RESERVED_SEGMENTS))
  | .index _ => isTrue trivial

def SafePath (path : Path) : Prop :=
  ∀ segment ∈ path, segment.Safe

instance : DecidablePred SafePath := fun path =>
  inferInstanceAs (Decidable (∀ segment ∈ path, segment.Safe))

inductive Edit (ι : Type) where
  | s (value : Json ι)
  | d
  | a (text : Text)
  | t (count : ℕ)
  | p (index remove : ℕ) (items : List (Json ι))
  /-- Reorder an array in place: `new[i] = old[permutation[i]]`. -/
  | m (permutation : List ℕ)

/-- Only `p` and `m` may target the root. -/
def Edit.mayTargetRoot : Edit ι → Bool
  | .p _ _ _ | .m _ => true
  | _ => false

inductive Op (ι : Type) where
  | r (value : Json ι)
  | edit (path : Path) (change : Edit ι)

/-- `r` is the only op that replaces a whole value. -/
def isReplace : Op ι → Bool
  | .r _ => true
  | .edit _ _ => false

/-- A path inline, or an id assigned by the encoder on second use. -/
inductive PathRef where
  | inline (path : Path)
  | id (number : ℕ)
deriving DecidableEq

inductive WireOp where
  | r (value : JsonValue)
  /-- Without a path the operation is at the previous one's path. -/
  | edit (ref : Option PathRef) (change : Edit Unit)
  | define (id : ℕ) (path : Path)

def verb (letter : Char) : Text := [letter.toNat.toUInt16]

def Seg.toJson : Seg → JsonValue
  | .key name => .str name
  | .index at_ => .num at_

def pathToJson (path : Path) : JsonValue := .arr () (path.map Seg.toJson)

def PathRef.toJson : PathRef → JsonValue
  | .inline path => pathToJson path
  | .id number => .num number

/-- The tuple of an edit whose path argument, if any, is given. -/
def Edit.tuple (path : List JsonValue) : Edit Unit → JsonValue
  | .s value => .arr () (.str (verb 's') :: path ++ [value])
  | .d => .arr () (.str (verb 'd') :: path)
  | .a text => .arr () (.str (verb 'a') :: path ++ [.str text])
  | .t count => .arr () (.str (verb 't') :: path ++ [.num count])
  | .p index remove items =>
    .arr () (.str (verb 'p') :: path ++ [.num index, .num remove, .arr () items])
  | .m permutation =>
    .arr () (.str (verb 'm') :: path ++ [.arr () (permutation.map fun at_ : ℕ => .num (at_ : ℚ))])

def Op.toJson : Op Unit → JsonValue
  | .r value => .arr () [.str (verb 'r'), value]
  | .edit path change => change.tuple [pathToJson path]

def WireOp.toJson : WireOp → JsonValue
  | .r value => .arr () [.str (verb 'r'), value]
  | .edit ref change => change.tuple (ref.toList.map PathRef.toJson)
  | .define id path => .arr () [.str (verb '#'), .num id, pathToJson path]

inductive DeltaError where
  | typeError (message : String)
  | unknownVerb (verb : JsonValue)
  | unsafePath (segment : JsonValue)
  | path (path : Path)
  | pathId (id : ℕ)

/-! ## The validators -/

/-- `Number.isInteger(value) && value >= 0`, as the natural it is. -/
def natural (value : JsonValue) : Option ℕ :=
  match value with
  | .num q => if q.den = 1 ∧ 0 ≤ q.num then some q.num.toNat else none
  | _ => none

def naturalOr (message : String) (value : JsonValue) : Except DeltaError ℕ :=
  match natural value with
  | some n => .ok n
  | none => .error (.typeError message)

def assertSafePath : List JsonValue → Except DeltaError Path
  | [] => .ok []
  | .str name :: rest =>
    if name ∈ RESERVED_SEGMENTS then .error (.unsafePath (.str name))
    else do return .key name :: (← assertSafePath rest)
  | segment :: rest =>
    match natural segment with
    | none => .error (.unsafePath segment)
    | some at_ => do return .index at_ :: (← assertSafePath rest)

def assertPathArg (nonEmpty : Bool) (path : JsonValue) :
    Except DeltaError Path :=
  match path with
  | .arr _ [] =>
    if nonEmpty then .error (.typeError "path is empty") else .ok []
  | .arr _ segments => assertSafePath segments
  | _ => .error (.typeError "path is not an array")

/-- The indices of a permutation of `size`, none used twice. -/
def assertIndices (size : ℕ) (seen : List ℕ) : List JsonValue → Except DeltaError (List ℕ)
  | [] => .ok []
  | index :: rest =>
    match natural index with
    | none => .error (.typeError "m permutation is not a bijection")
    | some at_ =>
      if size ≤ at_ ∨ at_ ∈ seen then
        .error (.typeError "m permutation is not a bijection")
      else do return at_ :: (← assertIndices size (at_ :: seen) rest)

def assertPermutation (value : JsonValue) : Except DeltaError (List ℕ) :=
  match value with
  | .arr _ indices => assertIndices indices.length [] indices
  | _ => .error (.typeError "m permutation is not an array")

def assertItems (value : JsonValue) : Except DeltaError (List JsonValue) :=
  match value with
  | .arr _ items => .ok items
  | _ => .error (.typeError "p items")

def assertValidOp (op : JsonValue) : Except DeltaError (Op Unit) :=
  match op with
  | .arr _ (.str letter :: arguments) =>
    if letter = verb 'r' then
      match arguments with
      | [value] => .ok (.r value)
      | _ => .error (.typeError "r arity")
    else if letter = verb 's' then
      match arguments with
      | [path, value] => do
          return .edit (← assertPathArg true path) (.s value)
      | _ => .error (.typeError "s arity")
    else if letter = verb 'd' then
      match arguments with
      | [path] => do return .edit (← assertPathArg true path) .d
      | _ => .error (.typeError "d arity")
    else if letter = verb 'a' then
      match arguments with
      | [path, .str text] => do
          return .edit (← assertPathArg true path) (.a text)
      | _ => .error (.typeError "a shape")
    else if letter = verb 't' then
      match arguments with
      | [path, count] => do
          let count ← naturalOr "t shape" count
          return .edit (← assertPathArg true path) (.t count)
      | _ => .error (.typeError "t shape")
    else if letter = verb 'p' then
      match arguments with
      | [path, index, remove, items] => do
          let path ← assertPathArg false path
          let index ← naturalOr "p index" index
          let remove ← naturalOr "p remove" remove
          return .edit path (.p index remove (← assertItems items))
      | _ => .error (.typeError "p arity")
    else if letter = verb 'm' then
      match arguments with
      | [path, permutation] => do
          let path ← assertPathArg false path
          return .edit path (.m (← assertPermutation permutation))
      | _ => .error (.typeError "m arity")
    else .error (.unknownVerb (.str letter))
  | .arr _ (letter :: _) => .error (.unknownVerb letter)
  | _ => .error (.typeError "op is not a tuple")

def okRef (ref : JsonValue) : Except DeltaError PathRef :=
  match ref with
  | .num _ => do return .id (← naturalOr "bad path id" ref)
  | .arr _ segments => do return .inline (← assertSafePath segments)
  | _ => .error (.typeError "path is not an array")

def wireText (value : JsonValue) : Except DeltaError Text :=
  match value with
  | .str text => .ok text
  | _ => .error (.typeError "a value")

/-- The same for the wire grammar: ids and short forms are legal here. -/
def assertValidWireOp (op : JsonValue) : Except DeltaError WireOp :=
  match op with
  | .arr _ (.str letter :: arguments) =>
    if letter = verb 'r' then
      match arguments with
      | [value] => .ok (.r value)
      | _ => .error (.typeError "r arity")
    else if letter = verb 's' then
      match arguments with
      | [ref, value] => do return .edit (some (← okRef ref)) (.s value)
      | [value] => .ok (.edit none (.s value))
      | _ => .error (.typeError "s arity")
    else if letter = verb 'd' then
      match arguments with
      | [ref] => do return .edit (some (← okRef ref)) .d
      | [] => .ok (.edit none .d)
      | _ => .error (.typeError "d arity")
    else if letter = verb 'a' then
      match arguments with
      | [ref, text] => do
          let ref ← okRef ref
          return .edit (some ref) (.a (← wireText text))
      | [text] => do return .edit none (.a (← wireText text))
      | _ => .error (.typeError "a arity")
    else if letter = verb 't' then
      match arguments with
      | [ref, count] => do
          let ref ← okRef ref
          return .edit (some ref) (.t (← naturalOr "t count" count))
      | [count] => do
          return .edit none (.t (← naturalOr "t count" count))
      | _ => .error (.typeError "t arity")
    else if letter = verb 'p' then
      match arguments with
      | [ref, index, remove, items] => do
          let ref ← okRef ref
          let index ← naturalOr "p index" index
          let remove ← naturalOr "p remove" remove
          return .edit (some ref) (.p index remove (← assertItems items))
      | [index, remove, items] => do
          let index ← naturalOr "p index" index
          let remove ← naturalOr "p remove" remove
          return .edit none (.p index remove (← assertItems items))
      | _ => .error (.typeError "p arity")
    else if letter = verb 'm' then
      match arguments with
      | [ref, permutation] => do
          let ref ← okRef ref
          return .edit (some ref) (.m (← assertPermutation permutation))
      | [permutation] => do
          return .edit none (.m (← assertPermutation permutation))
      | _ => .error (.typeError "m arity")
    else if letter = verb '#' then
      match arguments with
      | [id, .arr _ segments] =>
        match natural id with
        | some id => do return .define id (← assertSafePath segments)
        | none => .error (.typeError "# shape")
      | _ => .error (.typeError "# shape")
    else .error (.unknownVerb (.str letter))
  | .arr _ (letter :: _) => .error (.unknownVerb letter)
  | _ => .error (.typeError "op is not a tuple")

/-! ## What the validators accept -/

def IsPermutation (permutation : List ℕ) : Prop :=
  permutation.Nodup ∧ ∀ at_ ∈ permutation, at_ < permutation.length

def Edit.Valid : Edit ι → Prop
  | .m permutation => IsPermutation permutation
  | _ => True

def Op.Valid : Op ι → Prop
  | .r _ => True
  | .edit path change => SafePath path ∧ (change.mayTargetRoot ∨ path ≠ []) ∧ change.Valid

def PathRef.Valid : PathRef → Prop
  | .inline path => SafePath path
  | .id _ => True

def WireOp.Valid : WireOp → Prop
  | .r _ => True
  | .edit ref change => (∀ given ∈ ref, given.Valid) ∧ change.Valid
  | .define _ path => SafePath path

instance : DecidablePred IsPermutation := fun permutation =>
  inferInstanceAs (Decidable (permutation.Nodup ∧ _))

instance : DecidablePred (@Edit.Valid ι) := fun change =>
  match change with
  | .m permutation => inferInstanceAs (Decidable (IsPermutation permutation))
  | .s _ | .d | .a _ | .t _ | .p _ _ _ => isTrue trivial

instance : DecidablePred (@Op.Valid ι) := fun op =>
  match op with
  | .r _ => isTrue trivial
  | .edit path change =>
    inferInstanceAs
      (Decidable (SafePath path ∧ (change.mayTargetRoot ∨ path ≠ []) ∧ change.Valid))

@[simp]
theorem natural_num (n : ℕ) : natural (.num (n : ℚ)) = some n := by
  simp [natural]

variable {value : JsonValue} {n : ℕ}

theorem natural_some (found : natural value = some n) : value = .num (n : ℚ) := by
  cases value with
  | num q =>
    simp only [natural] at found
    split_ifs at found with isNatural
    have same := Option.some.inj found
    have integer : q = ((q.num : ℤ) : ℚ) := (Rat.den_eq_one_iff q).mp isNatural.1 |>.symm
    have cast : ((q.num.toNat : ℕ) : ℤ) = q.num := Int.toNat_of_nonneg isNatural.2
    rw [integer, ← same, ← cast]
    norm_cast
  | _ => simp [natural] at found

theorem naturalOr_ok {message : String} :
    naturalOr message value = .ok n ↔ value = .num (n : ℚ) := by
  unfold naturalOr
  constructor
  · intro accepted
    split at accepted
    · rename_i found
      cases accepted
      exact natural_some found
    · cases accepted
  · rintro rfl
    simp

variable {path : Path}

theorem assertSafePath_ok {segments : List JsonValue} :
    assertSafePath segments = .ok path ↔ segments = path.map Seg.toJson ∧ SafePath path := by
  induction segments generalizing path with
  | nil =>
    cases path with
    | nil => simp [assertSafePath, SafePath]
    | cons segment rest => simp [assertSafePath]
  | cons segment rest ih =>
    constructor
    · intro accepted
      unfold assertSafePath at accepted
      split at accepted
      · simp at *
      · rename_i name tail split
        injection split with sameHead sameTail
        subst sameHead sameTail
        split_ifs at accepted with reserved
        obtain ⟨later, safe, built⟩ := Coding.bind_eq_ok.mp accepted
        cases Coding.pure_eq_ok.mp built
        obtain ⟨sameRest, safeRest⟩ := ih.mp safe
        refine ⟨by rw [sameRest]; rfl, ?_⟩
        exact List.forall_mem_cons.mpr ⟨reserved, safeRest⟩
      · rename_i head tail notKey split
        injection split with sameHead sameTail
        subst sameHead sameTail
        split at accepted
        · cases accepted
        · rename_i at_ found
          obtain ⟨later, safe, built⟩ := Coding.bind_eq_ok.mp accepted
          cases Coding.pure_eq_ok.mp built
          obtain ⟨sameRest, safeRest⟩ := ih.mp safe
          refine ⟨by rw [natural_some found, sameRest]; rfl, ?_⟩
          exact List.forall_mem_cons.mpr ⟨trivial, safeRest⟩
    · rintro ⟨same, safe⟩
      cases path with
      | nil => simp at same
      | cons head later =>
        obtain ⟨sameHead, sameRest⟩ := List.cons.inj same
        obtain ⟨safeHead, safeRest⟩ := List.forall_mem_cons.mp safe
        have accepted := ih.mpr ⟨sameRest, safeRest⟩
        cases head with
        | key name =>
          subst sameHead
          have notReserved : name ∉ RESERVED_SEGMENTS := safeHead
          simp [assertSafePath, Seg.toJson, notReserved, accepted, bind,
            Except.bind, pure, Except.pure]
        | index at_ =>
          subst sameHead
          simp [assertSafePath, Seg.toJson, accepted, bind, Except.bind, pure, Except.pure]

theorem assertPathArg_ok {nonEmpty : Bool} :
    assertPathArg nonEmpty value = .ok path ↔
      value = pathToJson path ∧ SafePath path ∧ (nonEmpty → path ≠ []) := by
  unfold assertPathArg
  split
  · cases path with
    | nil => cases nonEmpty <;> simp [pathToJson, SafePath]
    | cons segment rest => cases nonEmpty <;> simp [pathToJson]
  · rename_i label segments notNil
    rw [assertSafePath_ok]
    constructor
    · rintro ⟨same, safe⟩
      refine ⟨by rw [same]; rfl, safe, ?_⟩
      rintro _ rfl
      exact notNil (by simp [same])
    · rintro ⟨same, safe, _⟩
      simp only [pathToJson, Json.arr.injEq] at same
      exact ⟨same.2, safe⟩
  · rename_i notEmpty notArr
    constructor
    · intro accepted
      cases accepted
    · rintro ⟨same, _⟩
      exact absurd same (notArr () (path.map Seg.toJson))

theorem assertIndices_ok {size : ℕ} {indices : List JsonValue} :
    ∀ {seen result : List ℕ},
      assertIndices size seen indices = .ok result ↔
        indices = (result.map fun at_ : ℕ => Json.num (at_ : ℚ)) ∧
          result.Nodup ∧ (∀ at_ ∈ result, at_ < size ∧ at_ ∉ seen) := by
  induction indices with
  | nil =>
    intro seen result
    cases result <;> simp [assertIndices]
  | cons index rest ih =>
    intro seen result
    unfold assertIndices
    constructor
    · intro accepted
      split at accepted
      · cases accepted
      · rename_i at_ found
        split_ifs at accepted with bad
        obtain ⟨later, tail, built⟩ := Coding.bind_eq_ok.mp accepted
        cases Coding.pure_eq_ok.mp built
        obtain ⟨same, nodup, fresh⟩ := ih.mp tail
        have value := natural_some found
        refine ⟨by rw [value, same]; rfl, ?_, ?_⟩
        · refine List.nodup_cons.mpr ⟨?_, nodup⟩
          intro again
          exact (fresh at_ again).2 List.mem_cons_self
        · intro other member
          rcases List.mem_cons.mp member with rfl | later
          · exact ⟨by omega, fun old => bad (Or.inr old)⟩
          · have known := fresh other later
            exact ⟨known.1, fun old => known.2 (List.mem_cons_of_mem at_ old)⟩
    · rintro ⟨same, nodup, fresh⟩
      cases result with
      | nil => simp at same
      | cons at_ later =>
        obtain ⟨sameHead, sameRest⟩ := List.cons.inj same
        obtain ⟨notLater, nodupLater⟩ := List.nodup_cons.mp nodup
        have here := fresh at_ List.mem_cons_self
        have tail : assertIndices size (at_ :: seen) rest = .ok later := by
          refine ih.mpr ⟨sameRest, nodupLater, ?_⟩
          intro other member
          have known := fresh other (List.mem_cons_of_mem at_ member)
          refine ⟨known.1, ?_⟩
          intro inSeen
          rcases List.mem_cons.mp inSeen with rfl | old
          · exact notLater member
          · exact known.2 old
        have allowed : ¬(size ≤ at_ ∨ at_ ∈ seen) := by
          rintro (large | old)
          · omega
          · exact here.2 old
        rw [sameHead]
        simp only [natural_num, if_neg allowed, tail, bind, Except.bind, pure, Except.pure]

theorem assertPermutation_ok {permutation : List ℕ} :
    assertPermutation value = .ok permutation ↔
      value = .arr () (permutation.map fun at_ : ℕ => Json.num (at_ : ℚ)) ∧
        IsPermutation permutation := by
  cases value with
  | arr label indices =>
    simp only [assertPermutation, assertIndices_ok, Json.arr.injEq, true_and, IsPermutation]
    constructor
    · rintro ⟨same, nodup, bounded⟩
      refine ⟨same, nodup, ?_⟩
      intro at_ member
      simpa [same] using (bounded at_ member).1
    · rintro ⟨same, nodup, bounded⟩
      refine ⟨same, nodup, ?_⟩
      intro at_ member
      exact ⟨by simpa [same] using bounded at_ member, List.not_mem_nil⟩
  | _ => simp [assertPermutation]

theorem assertItems_ok {items : List JsonValue} :
    assertItems value = .ok items ↔ value = .arr () items := by
  cases value <;> simp [assertItems]

variable {raw : JsonValue} {op : Op Unit}

/-- An edit whose change is read: only its path can be refused. -/
theorem edit_ok {change : Edit Unit}
    (accepted :
      (do return Op.edit (← assertPathArg true raw) change :
        Except DeltaError (Op Unit)) = .ok op)
    (payload : change.Valid) :
    ∃ path, raw = pathToJson path ∧ op = .edit path change ∧ (Op.edit path change).Valid := by
  obtain ⟨path, okPath, built⟩ := Coding.bind_eq_ok.mp accepted
  cases Coding.pure_eq_ok.mp built
  obtain ⟨same, safe, nonEmpty⟩ := assertPathArg_ok.mp okPath
  exact ⟨path, same, rfl, safe, Or.inr (nonEmpty rfl), payload⟩

theorem assertValidOp_ok : assertValidOp raw = .ok op ↔ raw = op.toJson ∧ op.Valid := by
  constructor
  · intro accepted
    unfold assertValidOp at accepted
    split at accepted
    · rename_i label letter arguments
      split_ifs at accepted with r s d a t p m
      · split at accepted
        · cases accepted
          exact ⟨by rw [r]; rfl, trivial⟩
        · cases accepted
      · split at accepted
        · obtain ⟨path, same, rfl, valid⟩ := edit_ok accepted trivial
          exact ⟨by rw [s, same]; rfl, valid⟩
        · cases accepted
      · split at accepted
        · obtain ⟨path, same, rfl, valid⟩ := edit_ok accepted trivial
          exact ⟨by rw [d, same]; rfl, valid⟩
        · cases accepted
      · split at accepted
        · obtain ⟨path, same, rfl, valid⟩ := edit_ok accepted trivial
          exact ⟨by rw [a, same]; rfl, valid⟩
        · cases accepted
      · split at accepted
        · obtain ⟨count, okCount, rest⟩ := Coding.bind_eq_ok.mp accepted
          obtain ⟨path, same, rfl, valid⟩ := edit_ok rest trivial
          exact ⟨by rw [t, same, naturalOr_ok.mp okCount]; rfl, valid⟩
        · cases accepted
      · split at accepted
        · obtain ⟨path, okPath, rest⟩ := Coding.bind_eq_ok.mp accepted
          obtain ⟨index, okIndex, rest⟩ := Coding.bind_eq_ok.mp rest
          obtain ⟨remove, okRemove, rest⟩ := Coding.bind_eq_ok.mp rest
          obtain ⟨items, okItems, built⟩ := Coding.bind_eq_ok.mp rest
          cases Coding.pure_eq_ok.mp built
          obtain ⟨same, safe, _⟩ := assertPathArg_ok.mp okPath
          have sameIndex := naturalOr_ok.mp okIndex
          have sameRemove := naturalOr_ok.mp okRemove
          have sameItems := assertItems_ok.mp okItems
          exact ⟨by rw [p, same, sameIndex, sameRemove, sameItems]; rfl, safe, Or.inl rfl, trivial⟩
        · cases accepted
      · split at accepted
        · obtain ⟨path, okPath, rest⟩ := Coding.bind_eq_ok.mp accepted
          obtain ⟨permutation, okPermutation, built⟩ := Coding.bind_eq_ok.mp rest
          cases Coding.pure_eq_ok.mp built
          obtain ⟨same, safe, _⟩ := assertPathArg_ok.mp okPath
          obtain ⟨samePermutation, bijection⟩ := assertPermutation_ok.mp okPermutation
          exact ⟨by rw [m, same, samePermutation]; rfl, safe, Or.inl rfl, bijection⟩
        · cases accepted
    · cases accepted
    · cases accepted
  · rintro ⟨rfl, valid⟩
    cases op with
    | r value => rfl
    | edit path change =>
      obtain ⟨safe, root, payload⟩ := valid
      have okPath (deep : Bool) (isDeep : deep = true → path ≠ []) :
          assertPathArg deep (pathToJson path) = .ok path :=
        assertPathArg_ok.mpr ⟨rfl, safe, isDeep⟩
      have okBelow (isBelow : change.mayTargetRoot = false) :
          assertPathArg true (pathToJson path) = .ok path :=
        okPath true fun _ => by simpa [isBelow] using root
      cases change with
      | m permutation =>
        have okPermutation := assertPermutation_ok.mpr ⟨rfl, payload⟩
        simp [assertValidOp, Op.toJson, Edit.tuple, verb, okPath,
          okPermutation, bind, Except.bind, pure, Except.pure]
      | p index remove items =>
        simp [assertValidOp, Op.toJson, Edit.tuple, verb, okPath,
          naturalOr, assertItems, bind, Except.bind, pure, Except.pure]
      | s value | d | a text =>
        simp [assertValidOp, Op.toJson, Edit.tuple, verb, okBelow rfl,
          bind, Except.bind, pure, Except.pure]
      | t count =>
        simp [assertValidOp, Op.toJson, Edit.tuple, verb, okBelow rfl,
          naturalOr, bind, Except.bind, pure, Except.pure]

theorem okRef_toJson {ref : PathRef} (valid : ref.Valid) : okRef ref.toJson = .ok ref := by
  cases ref with
  | inline path =>
    have safe := assertSafePath_ok.mpr ⟨rfl, valid⟩
    simp [okRef, PathRef.toJson, pathToJson, safe, bind, Except.bind, pure, Except.pure]
  | id number =>
    have read : naturalOr "bad path id" (.num number) = .ok number := naturalOr_ok.mpr rfl
    simp [okRef, PathRef.toJson, read, bind, Except.bind, pure, Except.pure]

theorem assertValidWireOp_toJson {op : WireOp} (valid : op.Valid) :
    assertValidWireOp op.toJson = .ok op := by
  cases op with
  | r value => rfl
  | define id path =>
    have safe := assertSafePath_ok.mpr ⟨rfl, valid⟩
    simp [assertValidWireOp, WireOp.toJson, pathToJson, verb, safe, bind,
      Except.bind, pure, Except.pure]
  | edit ref change =>
    obtain ⟨validRef, payload⟩ := valid
    cases ref with
    | none =>
      cases change with
      | m permutation =>
        have okPermutation := assertPermutation_ok.mpr ⟨rfl, payload⟩
        simp [assertValidWireOp, WireOp.toJson, Edit.tuple, verb,
          okPermutation, bind, Except.bind, pure, Except.pure]
      | _ =>
        simp [assertValidWireOp, WireOp.toJson, Edit.tuple, verb,
          wireText, naturalOr, assertItems, bind, Except.bind, pure,
          Except.pure]
    | some ref =>
      have okRef' := okRef_toJson (validRef ref rfl)
      cases change with
      | m permutation =>
        have okPermutation := assertPermutation_ok.mpr ⟨rfl, payload⟩
        simp [assertValidWireOp, WireOp.toJson, Edit.tuple, verb,
          okRef', okPermutation, bind, Except.bind, pure, Except.pure]
      | _ =>
        simp [assertValidWireOp, WireOp.toJson, Edit.tuple, verb,
          okRef', wireText, naturalOr, assertItems, bind, Except.bind,
          pure, Except.pure]

theorem number_injective {first second : ℕ}
    (same : (.num first : JsonValue) = .num second) : first = second := by
  have cast := Json.num.inj same
  rwa [Nat.cast_inj] at cast

theorem toJson_injective_seg {first second : Seg}
    (same : first.toJson = second.toJson) : first = second := by
  cases first with
  | key name =>
    cases second with
    | key other =>
      cases same
      rfl
    | index at_ => cases same
  | index at_ =>
    cases second with
    | key other => cases same
    | index other => rw [number_injective same]

theorem pathToJson_injective {first second : Path}
    (same : pathToJson first = pathToJson second) : first = second :=
  List.map_injective_iff.mpr (fun _ _ => toJson_injective_seg) (Json.arr.inj same).2

theorem toJson_injective_op {first second : Op Unit}
    (same : first.toJson = second.toJson) : first = second := by
  cases first with
  | r value =>
    cases second with
    | r other =>
      cases same
      rfl
    | edit path change => cases change <;> simp [Op.toJson, Edit.tuple, verb] at same
  | edit path change =>
    cases second with
    | r other => cases change <;> simp [Op.toJson, Edit.tuple, verb] at same
    | edit otherPath other =>
      -- edits of two kinds differ in their verb
      cases change <;> cases other <;>
        simp [Op.toJson, Edit.tuple, verb] at same
      case s.s => rw [pathToJson_injective same.1, same.2]
      case d.d => rw [pathToJson_injective same]
      case a.a => rw [pathToJson_injective same.1, same.2]
      case t.t => rw [pathToJson_injective same.1, same.2]
      case p.p =>
        obtain ⟨samePath, sameIndex, sameRemove, sameItems⟩ := same
        rw [pathToJson_injective samePath, sameIndex, sameRemove, sameItems]
      case m.m =>
        rw [pathToJson_injective same.1,
          List.map_injective_iff.mpr (fun _ _ => number_injective) same.2]

end PiEmbodied.Chord.Delta
