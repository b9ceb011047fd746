import PiEmbodied.Chord.Delta.Op

/-!
# The applier

`applyOps` applies decoded operations to a plain value; `applyImmutable` does
the same to an immutable one by copying the containers on an operation's path
first.  Copies are equal values, so the two differ only in their branches and
errors.
-/

namespace PiEmbodied.Chord.Delta

open Coding

/-! ## Children -/

def Seg.name : Seg → Text
  | .key name => name
  | .index at_ => units (toString at_)

def isObj : JsonValue → Bool
  | .arr _ _ | .obj _ _ => true
  | _ => false

def child (node : JsonValue) (segment : Seg) : Option JsonValue :=
  match node, segment with
  | .arr _ items, .index at_ => items[at_]?
  | .obj _ fields, segment => Entries.get fields segment.name
  | _, _ => none

def writeChild (node : JsonValue) (segment : Seg) (value : JsonValue) :
    JsonValue :=
  match node, segment with
  | .arr label items, .index at_ =>
    if at_ < items.length then .arr label (items.set at_ value)
    else .arr label (items ++ [value])
  | .obj label fields, segment => .obj label (Entries.set fields segment.name value)
  | node, _ => node

/-- One step of a walk: own properties only, and no name into an array. -/
def own (full : Path) (node : JsonValue) (segment : Seg) :
    Except DeltaError JsonValue :=
  match node, segment with
  | .arr _ _, .key name => .error (.unsafePath (.str name))
  | node, segment =>
    match child node segment with
    | some value => .ok value
    | none => .error (.path full)

def within (full : Path) (change : JsonValue → Except DeltaError JsonValue) :
    Path → JsonValue → Except DeltaError JsonValue
  | [], node => change node
  | segment :: rest, node => do
      let inner ← own full node segment
      return writeChild node segment (← within full change rest inner)

/-! ## The operations -/

/-- `target.splice(index, remove, ...items)`. -/
def splice {α : Type} (target : List α) (index remove : ℕ) (items : List α) :
    List α :=
  target.take index ++ items ++ target.drop (index + remove)

def spliceTarget (path : Path) (index remove : ℕ) (items : List JsonValue) :
    JsonValue → Except DeltaError JsonValue
  | .arr label target => .ok (.arr label (splice target index remove items))
  | _ => .error (.path path)

def reorderTarget (path : Path) (permutation : List ℕ) : JsonValue → Except DeltaError JsonValue
  | .arr label target =>
    if target.length ≠ permutation.length then .error (.path path)
    else .ok (.arr label (permutation.filterMap (target[·]?)))
  | _ => .error (.path path)

/-- The parent of a written key: a container, and an array only at an index of
it or one past the end. -/
def assertParent (parentPath : Path) (key : Seg) : JsonValue → Except DeltaError Unit
  | .arr _ items =>
    match key with
    | .key name => .error (.unsafePath (.str name))
    | .index at_ =>
      if items.length < at_ then .error (.unsafePath (.num at_))
      else .ok ()
  | .obj _ _ => .ok ()
  | _ => .error (.path parentPath)

/-- `s`, `d`, `a` and `t` at a key of their parent. -/
def editChild (path : Path) (key : Seg) (change : Edit Unit)
    (parent : JsonValue) : Except DeltaError JsonValue := do
  assertParent path.dropLast key parent
  match change with
  | .s value => return writeChild parent key value
  | .d =>
    match parent, key with
    | .arr label items, .index at_ =>
      if items.length ≤ at_ then throw (.path path)
      else return .arr label (items.eraseIdx at_)
    | .obj label fields, key => return .obj label (Entries.delete fields key.name)
    | _, _ => throw (.path path)
  | .a text =>
    match child parent key with
    | some (.str current) => return writeChild parent key (.str (current ++ text))
    | _ => throw (.path path)
  | .t count =>
    match child parent key with
    | some (.str current) => return writeChild parent key (.str (current.drop count))
    | _ => throw (.path path)
  | _ => throw (.path path)

def applyEdit (root : JsonValue) (path : Path) (change : Edit Unit) :
    Except DeltaError JsonValue :=
  match change with
  | .p index remove items => within path (spliceTarget path index remove items) path root
  | .m permutation => within path (reorderTarget path permutation) path root
  | change =>
    match path.getLast? with
    | none => .error (.path path)
    | some key => within path.dropLast (editChild path key change) path.dropLast root

def applyOp (root : JsonValue) (op : Op Unit) :
    Except DeltaError JsonValue := do
  match ← assertValidOp op.toJson with
  | .r value => return value
  | .edit path change => applyEdit root path change

def applyOps (root : JsonValue) : List (Op Unit) → Except DeltaError JsonValue
  | [] => .ok root
  | op :: rest => do applyOps (← applyOp root op) rest

/-- An array's own property under a name: its length or an index. -/
def hasOwnName (items : List JsonValue) (name : Text) : Bool :=
  name = units "length" ||
    (List.range items.length).any fun at_ => units (toString at_) = name

def checkContainers (full : Path) : Path → JsonValue → Except DeltaError Unit
  | [], node => if isObj node then .ok () else .error (.path full)
  | segment :: rest, node =>
    match node, segment with
    | .arr _ items, .key name =>
      if hasOwnName items name then .error (.unsafePath (.str name))
      else .error (.path full)
    | node, segment =>
      match child node segment with
      | none => .error (.path full)
      | some inner => checkContainers full rest inner

def copyContainers (root : JsonValue) (path : Path) :
    Except DeltaError JsonValue := do
  checkContainers path path root
  return root

def plainWalk : Path → JsonValue → Option JsonValue
  | [], node => some node
  | segment :: rest, node =>
    match segment, node with
    | .key name, .obj _ fields =>
      if name ∈ RESERVED_SEGMENTS then none
      else (Entries.get fields name).bind (plainWalk rest)
    | .index at_, .arr _ items => (items[at_]?).bind (plainWalk rest)
    | _, _ => none

def put : Path → JsonValue → JsonValue → JsonValue
  | [], _, value => value
  | segment :: rest, node, value =>
    match child node segment with
    | none => node
    | some inner => writeChild node segment (put rest inner value)

/-- An append to an array not yet copied in this replay, built as one copy. -/
def appendCopy (owned : Bool) (root : JsonValue) (path : Path) (index remove : ℕ)
    (items : List JsonValue) : Option JsonValue :=
  if remove ≠ 0 then none
  else
    match plainWalk path root with
    | some (.arr label target) =>
      if owned ∨ index ≠ target.length then none
      else some (put path root (.arr label (target ++ items)))
    | _ => none

/-- One operation on an immutable value; `owned` says that the array of an
append was already copied in this replay. -/
def applyImmutableOp (owned : Bool) (root : JsonValue) (op : Op Unit) :
    Except DeltaError JsonValue := do
  match ← assertValidOp op.toJson with
  | .r value => return value
  | .edit path change =>
    match change with
    | .p index remove items =>
      match appendCopy owned root path index remove items with
      | some appended => return appended
      | none => applyOps (← copyContainers root path) [.edit path change]
    | .m _ => applyOps (← copyContainers root path) [.edit path change]
    | _ => applyOps (← copyContainers root path.dropLast) [.edit path change]

def applyImmutable (owned : ℕ → Bool) (target : JsonValue) :
    List (Op Unit) → Except DeltaError JsonValue
  | [] => .ok target
  | op :: rest => do
      applyImmutable (fun k => owned (k + 1)) (← applyImmutableOp (owned 0) target op) rest

/-! ## Walks -/

def get : Path → JsonValue → Option JsonValue
  | [], node => some node
  | segment :: rest, node => (child node segment).bind (get rest)

@[simp]
theorem get_nil (root : JsonValue) : get [] root = some root :=
  rfl

variable {segment : Seg} {rest : Path} {root : JsonValue} {value : JsonValue}

theorem get_cons :
    get (segment :: rest) root = some value ↔
      ∃ inner, child root segment = some inner ∧ get rest inner = some value := by
  rw [get, Option.bind_eq_some_iff]

theorem put_cons {inner : JsonValue} (found : child root segment = some inner) (value : JsonValue) :
    put (segment :: rest) root value = writeChild root segment (put rest inner value) := by
  rw [put, found]

variable {full : Path} {node : JsonValue}

theorem own_eq_ok : own full node segment = .ok value ↔ child node segment = some value := by
  cases node with
  | arr label items =>
    cases segment with
    | key name => simp [own, child]
    | index at_ =>
      unfold own
      dsimp only
      split <;> simp [*]
  | obj label fields => cases segment <;> unfold own <;> dsimp only <;> split <;> simp [*]
  | _ => cases segment <;> simp [own, child]

variable {old : JsonValue}

@[simp]
theorem child_writeChild (found : child node segment = some old) (value : JsonValue) :
    child (writeChild node segment value) segment = some value := by
  cases node with
  | arr label items =>
    cases segment with
    | key name => simp [child] at found
    | index at_ =>
      have inside : at_ < items.length := by
        obtain ⟨inside, _⟩ := List.getElem?_eq_some_iff.mp found
        exact inside
      simp [writeChild, child, inside]
  | obj label fields => simp [writeChild, child]
  | _ => simp [child] at found

theorem writeChild_writeChild (found : child node segment = some old) (value later : JsonValue) :
    writeChild (writeChild node segment value) segment later =
      writeChild node segment later := by
  cases node with
  | arr label items =>
    cases segment with
    | key name => simp [child] at found
    | index at_ =>
      have inside : at_ < items.length := by
        obtain ⟨inside, _⟩ := List.getElem?_eq_some_iff.mp found
        exact inside
      simp [writeChild, inside]
  | obj label fields =>
    have present : Entries.has fields segment.name = true := by
      simp only [child] at found
      rw [Entries.has, found]
      rfl
    simp only [writeChild, Entries.set_set fields _ _ _ present]
  | _ => simp [child] at found

variable {path : Path}

theorem get_put (found : get path root = some old) (value : JsonValue) :
    get path (put path root value) = some value := by
  induction path generalizing root with
  | nil => rfl
  | cons segment rest ih =>
    obtain ⟨inner, isChild, deeper⟩ := get_cons.mp found
    rw [put_cons isChild]
    exact get_cons.mpr ⟨_, child_writeChild isChild _, ih deeper⟩

theorem put_put (found : get path root = some old) (value later : JsonValue) :
    put path (put path root value) later = put path root later := by
  induction path generalizing root with
  | nil => rfl
  | cons segment rest ih =>
    obtain ⟨inner, isChild, deeper⟩ := get_cons.mp found
    rw [put_cons isChild, put_cons isChild, put_cons (child_writeChild isChild _),
      writeChild_writeChild isChild, ih deeper]

theorem get_append (found : get path root = some node) :
    get (path ++ rest) root = get rest node := by
  induction path generalizing root with
  | nil =>
    cases found
    rfl
  | cons segment tail ih =>
    obtain ⟨inner, isChild, deeper⟩ := get_cons.mp found
    rw [List.cons_append, get, isChild]
    exact ih deeper

theorem put_append (found : get path root = some node) (value : JsonValue) :
    put (path ++ rest) root value = put path root (put rest node value) := by
  induction path generalizing root with
  | nil =>
    cases found
    rfl
  | cons segment tail ih =>
    obtain ⟨inner, isChild, deeper⟩ := get_cons.mp found
    rw [List.cons_append, put_cons isChild, put_cons isChild, ih deeper]

variable {result : JsonValue}

theorem within_eq_ok {change : JsonValue → Except DeltaError JsonValue} :
    within full change path root = .ok result ↔
      ∃ old new, get path root = some old ∧ change old = .ok new ∧ result = put path root new := by
  induction path generalizing root result with
  | nil =>
    constructor
    · intro changed
      exact ⟨root, result, rfl, changed, rfl⟩
    · rintro ⟨old, new, found, changed, rfl⟩
      cases found
      exact changed
  | cons segment rest ih =>
    constructor
    · intro changed
      obtain ⟨inner, isOwn, later⟩ := bind_eq_ok.mp changed
      obtain ⟨edited, deeper, built⟩ := bind_eq_ok.mp later
      cases pure_eq_ok.mp built
      have isChild := own_eq_ok.mp isOwn
      obtain ⟨old, new, found, changedOld, rfl⟩ := ih.mp deeper
      refine ⟨old, new, get_cons.mpr ⟨inner, isChild, found⟩, changedOld, ?_⟩
      rw [put_cons isChild]
    · rintro ⟨old, new, found, changedOld, rfl⟩
      obtain ⟨inner, isChild, deeper⟩ := get_cons.mp found
      refine bind_eq_ok.mpr ⟨inner, own_eq_ok.mpr isChild, ?_⟩
      refine bind_eq_ok.mpr ⟨_, ih.mpr ⟨old, new, deeper, changedOld, rfl⟩, ?_⟩
      rw [put_cons isChild]
      rfl

/-! ## The two appliers agree -/

variable {op : Op Unit}

theorem applyOp_of_valid (valid : op.Valid) :
    applyOp root op =
      match op with
      | .r value => .ok value
      | .edit path change => applyEdit root path change := by
  have accepted := assertValidOp_ok.mpr ⟨rfl, valid⟩
  unfold applyOp
  rw [accepted]
  cases op <;> rfl

theorem applyOps_singleton (root : JsonValue) (op : Op Unit) :
    applyOps root [op] = applyOp root op := by
  unfold applyOps
  cases applyOp root op <;> rfl

theorem applyOps_append {middle : JsonValue} {first second : List (Op Unit)}
    (applied : applyOps root first = .ok middle) :
    applyOps root (first ++ second) = applyOps middle second := by
  induction first generalizing root with
  | nil =>
    cases applied
    rfl
  | cons op rest ih =>
    obtain ⟨next, here, later⟩ := bind_eq_ok.mp applied
    rw [List.cons_append, applyOps, here]
    exact ih later

theorem checkContainers_ok :
    checkContainers full path root = .ok () ↔
      ∃ node, get path root = some node ∧ isObj node = true := by
  induction path generalizing root with
  | nil => simp [checkContainers]
  | cons segment rest ih =>
    have step :
        ∀ inner, child root segment = some inner →
          (checkContainers full (segment :: rest) root = .ok () ↔
            ∃ node, get (segment :: rest) root = some node ∧ isObj node = true) := by
      intro inner isChild
      have walked :
          checkContainers full (segment :: rest) root =
            checkContainers full rest inner := by
        cases root with
        | arr label items =>
          cases segment with
          | key name => simp [child] at isChild
          | index at_ => simp only [checkContainers, isChild]
        | obj label fields => cases segment <;> simp only [checkContainers, isChild]
        | _ => simp [child] at isChild
      rw [walked, ih, get, isChild]
      rfl
    cases isChild : child root segment with
    | some inner => exact step inner isChild
    | none =>
      have stuck : checkContainers full (segment :: rest) root ≠ .ok () := by
        cases root with
        | arr label items =>
          cases segment with
          | key name =>
            simp only [checkContainers]
            split <;> simp
          | index at_ => simp [checkContainers, isChild]
        | obj label fields => cases segment <;> simp [checkContainers, isChild]
        | _ => cases segment <;> simp [checkContainers, child]
      simp [stuck, get, isChild]

theorem plainWalk_get (walked : plainWalk path root = some node) : get path root = some node := by
  induction path generalizing root with
  | nil => exact walked
  | cons segment rest ih =>
    unfold plainWalk at walked
    split at walked
    · rename_i name label fields
      split at walked
      · cases walked
      · obtain ⟨inner, found, deeper⟩ := Option.bind_eq_some_iff.mp walked
        exact get_cons.mpr ⟨inner, found, ih deeper⟩
    · rename_i at_ label items
      obtain ⟨inner, found, deeper⟩ := Option.bind_eq_some_iff.mp walked
      exact get_cons.mpr ⟨inner, found, ih deeper⟩
    · cases walked

theorem splice_append {α : Type} (target items : List α) :
    splice target target.length 0 items = target ++ items := by
  simp [splice]

variable {owned : Bool}

theorem applyImmutableOp_of_valid (valid : op.Valid) :
    applyImmutableOp owned root op = .ok result ↔
      applyOp root op = .ok result := by
  have accepted := assertValidOp_ok.mpr ⟨rfl, valid⟩
  -- the general path: copy the containers of `at_`, then apply
  have general :
      ∀ at_ : Path, (applyOp root op = .ok result → checkContainers at_ at_ root = .ok ()) →
        ((copyContainers root at_ >>= fun copied => applyOps copied [op]) = .ok result ↔
          applyOp root op = .ok result) := by
    intro at_ reaches
    constructor
    · intro applied
      obtain ⟨copied, checked, later⟩ := bind_eq_ok.mp applied
      obtain ⟨_, _, built⟩ := bind_eq_ok.mp checked
      cases pure_eq_ok.mp built
      rwa [applyOps_singleton] at later
    · intro applied
      refine bind_eq_ok.mpr ⟨root, ?_, by rwa [applyOps_singleton]⟩
      exact bind_eq_ok.mpr ⟨(), reaches applied, rfl⟩
  have target :
      ∀ {path : Path} {change : JsonValue → Except DeltaError JsonValue},
        (∀ node new, change node = .ok new → isObj node = true) →
        within path change path root = .ok result →
        checkContainers path path root = .ok () := by
    intro path change onContainers changed
    obtain ⟨old, new, found, changedOld, _⟩ := within_eq_ok.mp changed
    exact checkContainers_ok.mpr ⟨old, found, onContainers old new changedOld⟩
  cases op with
  | r value =>
    simp only [applyImmutableOp, accepted, bind, Except.bind,
      applyOp_of_valid valid]
    rfl
  | edit path change =>
    have parent :
        ∀ key, applyOp root (.edit path change) =
            within path.dropLast (editChild path key change) path.dropLast root →
          applyOp root (.edit path change) = .ok result →
          checkContainers path.dropLast path.dropLast root = .ok () := by
      intro key same applied
      rw [same] at applied
      refine target ?_ applied
      intro node new changed
      obtain ⟨_, isParent, _⟩ := bind_eq_ok.mp changed
      cases node <;> first | rfl | cases isParent
    have last : path ≠ [] → ∃ key, path.getLast? = some key := by
      intro nonempty
      exact ⟨path.getLast nonempty, List.getLast?_eq_some_getLast nonempty⟩
    simp only [applyImmutableOp, accepted, bind, Except.bind]
    cases change with
    | p index remove items =>
      dsimp only
      split
      · rename_i appended copied
        unfold appendCopy at copied
        split at copied
        · cases copied
        · rename_i noRemove
          split at copied
          · rename_i label old walked
            split at copied
            · cases copied
            · rename_i fits
              cases copied
              have atEnd : index = old.length := by
                by_contra other
                exact fits (Or.inr other)
              have none_removed : remove = 0 := by
                by_contra other
                exact noRemove other
              have same :
                  applyOp root (.edit path (.p index remove items)) =
                    .ok (put path root (.arr label (old ++ items))) := by
                rw [applyOp_of_valid valid]
                refine within_eq_ok.mpr ⟨_, _, plainWalk_get walked, rfl, ?_⟩
                rw [atEnd, none_removed, splice_append]
              rw [same]
              rfl
          · cases copied
      · refine general path ?_
        intro applied
        rw [applyOp_of_valid valid] at applied
        refine target ?_ applied
        intro node new changed
        cases node <;> first | rfl | cases changed
    | m permutation =>
      refine general path ?_
      intro applied
      rw [applyOp_of_valid valid] at applied
      refine target ?_ applied
      intro node new changed
      cases node <;> first | rfl | cases changed
    | s value | d | a text | t count =>
      obtain ⟨key, isLast⟩ := last (by simpa [Edit.mayTargetRoot] using valid.2.1)
      refine general path.dropLast (parent key ?_)
      rw [applyOp_of_valid valid]
      simp only [applyEdit, isLast]

/-- What the immutable applier returns is what the applier returns, whichever
containers were already copied. -/
theorem applyImmutableOp_ok :
    applyImmutableOp owned root op = .ok result ↔
      applyOp root op = .ok result := by
  cases accepted : assertValidOp op.toJson with
  | error failure => simp only [applyImmutableOp, applyOp, accepted, bind, Except.bind]
  | ok read =>
    have valid := (assertValidOp_ok.mp accepted).2
    have again := assertValidOp_ok.mpr ⟨rfl, valid⟩
    have immutable :
        applyImmutableOp owned root op = applyImmutableOp owned root read := by
      unfold applyImmutableOp
      rw [accepted, again]
    have plain : applyOp root op = applyOp root read := by
      unfold applyOp
      rw [accepted, again]
    rw [immutable, plain]
    exact applyImmutableOp_of_valid valid

theorem applyImmutable_ok {owned : ℕ → Bool} {root result : JsonValue} {ops : List (Op Unit)} :
    applyImmutable owned root ops = .ok result ↔
      applyOps root ops = .ok result := by
  induction ops generalizing owned root with
  | nil => rfl
  | cons op rest ih =>
    rw [applyImmutable, applyOps, bind_eq_ok, bind_eq_ok]
    constructor
    · rintro ⟨next, here, later⟩
      exact ⟨next, applyImmutableOp_ok.mp here, ih.mp later⟩
    · rintro ⟨next, here, later⟩
      exact ⟨next, applyImmutableOp_ok.mpr here, ih.mpr later⟩

end PiEmbodied.Chord.Delta
