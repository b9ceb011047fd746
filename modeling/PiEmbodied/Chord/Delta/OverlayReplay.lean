import PiEmbodied.Chord.Delta.Overlay

/-!
# Replaying a draft of objects

The operations of one edited object give the draft's fields at every key.  An
object's operations leave the objects still to come as the base has them, since
they are emitted by depth and only for paths no ancestor cut.  So the whole
batch gives the draft's clone.
-/

namespace PiEmbodied.Chord.Delta

open Coding

/-! ## One object -/

def dropKeys (keys : List Text) (fields : List (Text × JsonValue)) : List (Text × JsonValue) :=
  keys.foldl Entries.delete fields

def writeField (e : NodeEdits) (fields current : List (Text × JsonValue))
    (write : Text × JsonValue) : List (Text × JsonValue) :=
  if unchanged (valueBefore e fields write.1) write.2 then current
  else Entries.set current write.1 write.2

/-- The fields of an object once its operations are replayed. -/
def nodeFields (e : NodeEdits) (fields : List (Text × JsonValue)) : List (Text × JsonValue) :=
  dropKeys (e.deletes.filter (Entries.has fields))
    (e.writes.foldl (writeField e fields) (dropKeys (e.readded.filter (Entries.has fields)) fields))

theorem get_dropKeys (keys : List Text) (fields : List (Text × JsonValue)) (key : Text) :
    Entries.get (dropKeys keys fields) key =
      if key ∈ keys then none else Entries.get fields key := by
  induction keys generalizing fields with
  | nil => simp [dropKeys]
  | cons first rest ih =>
    have next : dropKeys (first :: rest) fields = dropKeys rest (Entries.delete fields first) := rfl
    rw [next, ih, Entries.get_delete]
    by_cases here : key = first
    · simp [here]
    · simp [here]

theorem get_dropKeys_present (keys : List Text) (fields : List (Text × JsonValue)) (key : Text) :
    Entries.get (dropKeys (keys.filter (Entries.has fields)) fields) key =
      if key ∈ keys then none else Entries.get fields key := by
  rw [get_dropKeys]
  by_cases dropped : key ∈ keys
  · rw [if_pos dropped]
    by_cases present : Entries.has fields key = true
    · rw [if_pos (List.mem_filter.mpr ⟨dropped, present⟩)]
    · rw [if_neg fun member => present (List.mem_filter.mp member).2]
      exact Option.not_isSome_iff_eq_none.mp present
  · rw [if_neg dropped, if_neg fun member => dropped (List.mem_filter.mp member).1]

variable {writes : List (Text × JsonValue)}

theorem get_writes (e : NodeEdits) (fields : List (Text × JsonValue))
    (unique : (Entries.keys writes).Nodup) (current : List (Text × JsonValue)) (key : Text) :
    Entries.get (writes.foldl (writeField e fields) current) key =
      match Entries.get writes key with
      | none => Entries.get current key
      | some value =>
        if unchanged (valueBefore e fields key) value then
          Entries.get current key
        else some value := by
  induction writes generalizing current with
  | nil => rfl
  | cons write rest ih =>
    obtain ⟨isNew, uniqueRest⟩ := List.nodup_cons.mp unique
    rw [List.foldl_cons, ih uniqueRest, Entries.get_cons]
    by_cases here : key = write.1
    · subst here
      have absent : Entries.get rest write.1 = none := by
        rw [← Option.not_isSome_iff_eq_none]
        exact fun present => isNew ((Entries.has_iff_mem_keys rest write.1).mp present)
      simp only [absent, if_true, writeField]
      split
      · rfl
      · simp
    · have other :
          Entries.get (writeField e fields current write) key =
            Entries.get current key := by
        rw [writeField]
        split
        · rfl
        · rw [Entries.get_set, if_neg here]
      rw [if_neg here, other]

theorem eq_of_same {left right : JsonValue} (plain : left.isContainer = false)
    (equal : left.same right = true) : left = right := by
  cases left with
  | arr label items | obj label fields => cases plain
  | _ =>
    cases right with
    | _ => simp_all [Json.same, Json.ident]

variable {e : NodeEdits} {fields : List (Text × JsonValue)}

/-- What the replay leaves at each key of an object, if no container was
written over an equal one. -/
theorem get_nodeFields (direct : normalizedContainerWrite e fields = false) (key : Text) :
    Entries.get (nodeFields e fields) key =
      match Entries.get e.writes key with
      | some value => some value
      | none =>
        if e.deletes.contains key then none else Entries.get fields key := by
  have start :
      Entries.get (dropKeys (e.readded.filter (Entries.has fields)) fields)
          key = valueBefore e fields key := by
    rw [get_dropKeys_present, valueBefore]
    simp
  rw [nodeFields, get_dropKeys, get_writes e fields e.unique, start]
  cases written : Entries.get e.writes key with
  | some value =>
    have stays : key ∉ e.deletes.filter (Entries.has fields) := by
      intro member
      have absent := e.apart key (List.mem_filter.mp member).1
      rw [Entries.has, written] at absent
      cases absent
    rw [if_neg stays]
    dsimp only
    split
    · rename_i kept
      have plain : value.isContainer = false := by
        rw [Bool.eq_false_iff]
        intro container
        have normalized : normalizedContainerWrite e fields = true := by
          apply List.any_eq_true.mpr
          exact
            ⟨(key, value), Entries.mem_of_get written, by simp [container, kept]⟩
        rw [direct] at normalized
        cases normalized
      simp only [unchanged, plain, Bool.not_false, Bool.true_and,
        Bool.false_and, Bool.or_false, Option.any_eq_true] at kept
      obtain ⟨old, isOld, same⟩ := kept
      rw [isOld, eq_of_same plain same]
    · rfl
  | none =>
    have notReadded : e.readded.contains key = false := by
      rw [Bool.eq_false_iff]
      intro readded
      have present := e.written key (by simpa using readded)
      rw [Entries.has, written] at present
      cases present
    dsimp only
    rw [valueBefore, notReadded]
    by_cases deleted : key ∈ e.deletes
    · by_cases present : Entries.has fields key = true
      · rw [if_pos (List.mem_filter.mpr ⟨deleted, present⟩)]
        simp [deleted]
      · have absent : Entries.get fields key = none :=
          Option.not_isSome_iff_eq_none.mp present
        simp [absent]
    · have stays : key ∉ e.deletes.filter (Entries.has fields) :=
        fun member => deleted (List.mem_filter.mp member).1
      rw [if_neg stays]
      simp [deleted]

/-! ## Its operations -/

/-- Operations that turn the fields of the object at a path into others. -/
structure ReplaysFields (path : Path) (fields : List (Text × JsonValue))
    (ops : List (Op Unit)) (after : List (Text × JsonValue)) : Prop where
  valid : ∀ op ∈ ops, op.Valid
  applied :
    ∀ root, get path root = some (.obj () fields) →
      ∃ next, applyOps root ops = .ok next ∧ Becomes path root (.obj () after) next

theorem replaysFields_nothing (path : Path) (fields : List (Text × JsonValue)) :
    ReplaysFields path fields [] fields where
  valid := fun _ member => absurd member List.not_mem_nil
  applied := fun root found => ⟨root, rfl, becomes_self found⟩

variable {path : Path} {after : List (Text × JsonValue)}

theorem replaysFields_append {middle : List (Text × JsonValue)} {first second : List (Op Unit)}
    (earlier : ReplaysFields path fields first middle)
    (later : ReplaysFields path middle second after) :
    ReplaysFields path fields (first ++ second) after where
  valid := List.forall_mem_append.mpr ⟨earlier.valid, later.valid⟩
  applied := by
    intro root found
    obtain ⟨mid, appliedFirst, becomesMid⟩ := earlier.applied root found
    obtain ⟨next, appliedSecond, becomesNext⟩ := later.applied mid becomesMid.found
    refine ⟨next, ?_, becomes_trans becomesMid becomesNext⟩
    rw [applyOps_append appliedFirst]
    exact appliedSecond

variable {key : Text} {change : Edit Unit}

theorem replaysFields_edit {after : List (Text × JsonValue)} {change : Edit Unit}
    (safe : SafePath (path ++ [.key key])) (plain : change.Valid)
    (applied :
      ∀ root, get path root = some (.obj () fields) →
        applyEdit root (path ++ [.key key]) change = .ok (put path root (.obj () after))) :
    ReplaysFields path fields [.edit (path ++ [.key key]) change] after where
  valid := by
    intro op member
    rw [List.mem_singleton.mp member]
    exact ⟨safe, .inr (by simp), plain⟩
  applied := by
    intro root found
    have valid : Op.Valid (.edit (path ++ [.key key]) change) :=
      ⟨safe, .inr (by simp), plain⟩
    refine ⟨_, ?_, becomes_put found _⟩
    rw [applyOps_singleton, applyOp_of_valid valid]
    exact applied root found

variable {root : JsonValue} {new : Text}

theorem applyEdit_textKey (found : get path root = some (.obj () fields))
    (writes :
      editChild (path ++ [.key key]) (.key key) change (.obj () fields) =
        .ok (.obj () (Entries.set fields key (.str new))))
    (keyed : change.mayTargetRoot = false) :
    applyEdit root (path ++ [.key key]) change =
      .ok (put path root (.obj () (Entries.set fields key (.str new)))) := by
  rw [applyEdit_keyed keyed, getLast?_snoc, List.dropLast_concat]
  exact within_eq_ok.mpr ⟨_, _, found, writes, rfl⟩

variable {old : Text}

theorem replaysFields_append_text (text : Text) (safe : SafePath (path ++ [.key key]))
    (isText : Entries.get fields key = some (.str old)) :
    ReplaysFields path fields [.edit (path ++ [.key key]) (.a text)]
      (Entries.set fields key (.str (old ++ text))) := by
  refine replaysFields_edit safe ?_ ?_
  · exact trivial
  intro root found
  apply applyEdit_textKey found
  · simp only [editChild, child, Seg.name, isText]
    rfl
  · rfl

theorem replaysFields_truncate (count : ℕ) (safe : SafePath (path ++ [.key key]))
    (isText : Entries.get fields key = some (.str old)) :
    ReplaysFields path fields [.edit (path ++ [.key key]) (.t count)]
      (Entries.set fields key (.str (old.drop count))) := by
  refine replaysFields_edit safe ?_ ?_
  · exact trivial
  intro root found
  apply applyEdit_textKey found
  · simp only [editChild, child, Seg.name, isText]
    rfl
  · rfl

variable {value : JsonValue}

section

variable (safe : SafePath (path ++ [.key key]))
include safe

theorem replaysFields_set :
    ReplaysFields path fields [.edit (path ++ [.key key]) (.s value)]
      (Entries.set fields key value) := by
  refine replaysFields_edit safe ?_ ?_
  · exact trivial
  · intro root found
    exact applyEdit_setKey found

theorem replaysFields_string (isText : Entries.get fields key = some (.str old))
    (changed : unchanged (some (.str old)) (.str new) = false) :
    ReplaysFields path fields (emitChangedValue (path ++ [.key key]) (some (.str old)) (.str new))
      (Entries.set fields key (.str new)) := by
  unfold emitChangedValue
  rw [changed]
  simp only [Bool.false_eq_true, if_false]
  by_cases extends_ : old.length < new.length ∧ new.take old.length = old
  · rw [if_pos extends_]
    have whole : old ++ new.drop old.length = new := by
      conv_lhs => rw [← extends_.2]
      rw [List.length_take, Nat.min_eq_left (Nat.le_of_lt extends_.1)]
      exact List.take_append_drop old.length new
    have replay := replaysFields_append_text (new.drop old.length) safe isText
    rwa [whole] at replay
  · rw [if_neg extends_]
    generalize sharing : overlap old new DEFAULT_OVERLAP_SCAN 64 8 = shared
    obtain ⟨inOld, inNew, same⟩ := overlap_spec old new DEFAULT_OVERLAP_SCAN 64 8
    rw [sharing] at inOld inNew same
    split
    · have cut :=
        replaysFields_truncate (old.length - shared) safe isText
      rw [same] at cut
      by_cases more : shared < new.length
      · rw [if_pos more]
        have isCut :
            Entries.get (Entries.set fields key (.str (new.take shared))) key =
              some (.str (new.take shared)) := by
          simp
        have grown := replaysFields_append_text (new.drop shared) safe isCut
        rw [List.take_append_drop,
          Entries.set_set fields key _ _ (by rw [Entries.has, isText]; rfl)]
          at grown
        exact replaysFields_append cut grown
      · rw [if_neg more]
        have all : new.take shared = new := List.take_of_length_le (Nat.le_of_not_lt more)
        rwa [all] at cut
    · exact replaysFields_set safe

theorem replaysFields_changed {before : Option JsonValue} {after : JsonValue}
    (isBefore : Entries.get fields key = before) :
    ReplaysFields path fields (emitChangedValue (path ++ [.key key]) before after)
      (if unchanged before after then fields
      else Entries.set fields key after) := by
  cases same : unchanged before after with
  | true =>
    unfold emitChangedValue
    rw [if_pos same, if_pos rfl]
    exact replaysFields_nothing path fields
  | false =>
    simp only [Bool.false_eq_true, if_false]
    have plain :
        (∀ old new, before = some (.str old) → after ≠ .str new) →
          emitChangedValue (path ++ [.key key]) before after =
            [.edit (path ++ [.key key]) (.s after)] := by
      intro notText
      unfold emitChangedValue
      rw [same]
      simp only [Bool.false_eq_true, if_false]
    by_cases texts : ∃ old new, before = some (.str old) ∧ after = .str new
    · obtain ⟨old, new, rfl, rfl⟩ := texts
      exact replaysFields_string safe isBefore same
    · rw [plain fun old new isOld isNew => texts ⟨old, new, isOld, isNew⟩]
      exact replaysFields_set safe

end

theorem replaysFields_deletes (fields : List (Text × JsonValue)) (keys : List Text)
    (safe : ∀ key ∈ keys, SafePath (path ++ [.key key])) :
    ReplaysFields path fields (keys.map fun key => .edit (path ++ [.key key]) .d)
      (dropKeys keys fields) := by
  induction keys generalizing fields with
  | nil => exact replaysFields_nothing path fields
  | cons key rest ih =>
    have first :
        ReplaysFields path fields [.edit (path ++ [.key key]) .d] (Entries.delete fields key) := by
      refine replaysFields_edit (safe key List.mem_cons_self) ?_ ?_
      · exact trivial
      · intro root found
        exact applyEdit_deleteKey found
    have later :=
      ih (Entries.delete fields key) fun other member => safe other (List.mem_cons_of_mem _ member)
    exact replaysFields_append first later

theorem replaysFields_writes (path : Path) (e : NodeEdits) (fields : List (Text × JsonValue))
    {writes : List (Text × JsonValue)} (unique : (Entries.keys writes).Nodup)
    (current : List (Text × JsonValue)) (safe : ∀ write ∈ writes, SafePath (path ++ [.key write.1]))
    (before : ∀ write ∈ writes, Entries.get current write.1 = valueBefore e fields write.1) :
    ReplaysFields path current (writes.flatMap (emitObjectWrite e fields path))
      (writes.foldl (writeField e fields) current) := by
  induction writes generalizing current with
  | nil => exact replaysFields_nothing path current
  | cons write rest ih =>
    obtain ⟨isNew, uniqueRest⟩ := List.nodup_cons.mp unique
    have first :
        ReplaysFields path current (emitObjectWrite e fields path write)
          (writeField e fields current write) :=
      replaysFields_changed (safe write List.mem_cons_self) (before write List.mem_cons_self)
    have later := ih uniqueRest (writeField e fields current write)
      (fun other member => safe other (List.mem_cons_of_mem _ member))
      (by
        intro other member
        have different : other.1 ≠ write.1 := by
          intro same
          apply isNew
          rw [← same]
          exact List.mem_map_of_mem member
        rw [writeField]
        split
        · exact before other (List.mem_cons_of_mem _ member)
        · rw [Entries.get_set, if_neg different]
          exact before other (List.mem_cons_of_mem _ member))
    exact replaysFields_append first later

theorem safePath_keySnoc (safe : SafePath path) (plain : key ∉ RESERVED_SEGMENTS) :
    SafePath (path ++ [.key key]) := by
  intro segment member
  rcases List.mem_append.mp member with inPath | isKey
  · exact safe segment inPath
  · rw [List.mem_singleton.mp isKey]
    exact plain

theorem not_reserved (plain : e.hasReservedMutation = false) :
    (∀ write ∈ e.writes, write.1 ∉ RESERVED_SEGMENTS) ∧
      ∀ key ∈ e.deletes, key ∉ RESERVED_SEGMENTS := by
  have none_ : ∀ key ∈ Entries.keys e.writes ++ e.deletes, key ∉ RESERVED_SEGMENTS := by
    intro key member reserved
    have found : e.hasReservedMutation = true :=
      List.any_eq_true.mpr ⟨key, member, by simpa using reserved⟩
    rw [plain] at found
    cases found
  constructor
  · intro write member
    exact none_ write.1 (List.mem_append_left _ (List.mem_map_of_mem member))
  · intro key member
    exact none_ key (List.mem_append_right _ member)

theorem replaysFields_node (e : NodeEdits) (fields : List (Text × JsonValue)) (safe : SafePath path)
    (plain : e.hasReservedMutation = false) :
    ReplaysFields path fields (emitObjectOperations e fields path) (nodeFields e fields) := by
  obtain ⟨plainWrites, plainDeletes⟩ := not_reserved plain
  have plainReadded : ∀ key ∈ e.readded, key ∉ RESERVED_SEGMENTS := by
    intro key member
    have isKey := (Entries.has_iff_mem_keys e.writes key).mp (e.written key member)
    obtain ⟨write, isWrite, rfl⟩ := List.mem_map.mp isKey
    exact plainWrites write isWrite
  have first :=
    replaysFields_deletes fields (e.readded.filter (Entries.has fields))
      fun key member => safePath_keySnoc safe (plainReadded key (List.mem_filter.mp member).1)
  have second :=
    replaysFields_writes path e fields e.unique
      (dropKeys (e.readded.filter (Entries.has fields)) fields)
      (fun write member => safePath_keySnoc safe (plainWrites write member))
      (by
        intro write _
        rw [get_dropKeys_present, valueBefore]
        simp)
  have third :=
    replaysFields_deletes
      (e.writes.foldl (writeField e fields)
        (dropKeys (e.readded.filter (Entries.has fields)) fields))
      (e.deletes.filter (Entries.has fields))
      fun key member => safePath_keySnoc safe (plainDeletes key (List.mem_filter.mp member).1)
  exact replaysFields_append (replaysFields_append first second) third

/-! ## Objects under objects -/

theorem objectAt_nil : objectAt root [] = some fields ↔ root = .obj () fields := by
  cases root with
  | obj label entries | _ => simp [objectAt, keyPath]

variable {path : List Text}

theorem get_of_objectAt (found : objectAt root path = some fields) :
    get (keyPath path) root = some (.obj () fields) := by
  unfold objectAt at found
  split at found
  · rename_i label entries isObject
    cases found
    exact isObject
  · cases found

theorem objectAt_of_get {root : JsonValue} {fields : List (Text × JsonValue)}
    (found : get (keyPath path) root = some (.obj () fields)) :
    objectAt root path = some fields := by
  rw [objectAt, found]

variable {rest : List Text}

theorem objectAt_cons (found : objectAt root (key :: rest) = some fields) :
    ∃ own inner, root = .obj () own ∧ Entries.get own key = some inner ∧
      objectAt inner rest = some fields := by
  obtain ⟨inner, isChild, deeper⟩ := get_cons.mp (get_of_objectAt found)
  cases root with
  | obj label own => exact ⟨own, inner, rfl, isChild, objectAt_of_get deeper⟩
  | arr label items | _ => cases isChild

variable {own : List (Text × JsonValue)} {inner : JsonValue}

theorem objectAt_field (isChild : Entries.get own key = some inner) :
    objectAt (.obj () own) (key :: rest) = objectAt inner rest := by
  unfold objectAt
  have same : get (keyPath (key :: rest)) (.obj () own) = get (keyPath rest) inner := by
    show (child (.obj () own) (.key key)).bind _ = _
    rw [show child (.obj () own) (.key key) = some inner from isChild]
    rfl
  rw [same]

variable {next : JsonValue}

theorem becomes_under {rest : Path} (isChild : Entries.get own key = some inner)
    (becomes : Becomes (.key key :: rest) (.obj () own) value next) :
    ∃ changed innerNext, next = .obj () changed ∧
      (∀ name, Entries.get changed name =
        if name = key then some innerNext else Entries.get own name) ∧
      Becomes rest inner value innerNext := by
  obtain ⟨innerNext, isNext, deeper⟩ := get_cons.mp becomes.found
  have child_ : child (.obj () own) (.key key) = some inner := isChild
  have written :
      ∀ other, writeChild next (.key key) (put rest innerNext other) =
        writeChild (.obj () own) (.key key) (put rest inner other) := by
    intro other
    have both := becomes.elsewhere other
    rwa [put_cons isNext, put_cons child_] at both
  cases next with
  | obj label changed =>
    have sameFields :
        ∀ other, Entries.set changed key (put rest innerNext other) =
          Entries.set own key (put rest inner other) := by
      intro other
      have both := written other
      injection both
    have looked :
        ∀ other name,
          (if name = key then some (put rest innerNext other)
            else Entries.get changed name) =
            if name = key then some (put rest inner other)
            else Entries.get own name := by
      intro other name
      have both := congrArg (fun entries => Entries.get entries name) (sameFields other)
      simpa only [Entries.get_set] using both
    refine ⟨changed, innerNext, rfl, ?_, ⟨deeper, ?_⟩⟩
    · intro name
      by_cases same : name = key
      · rw [if_pos same, same]
        exact isNext
      · have both := looked .null name
        rw [if_neg same, if_neg same] at both
        rw [if_neg same, both]
    · intro other
      have both := looked other key
      rw [if_pos rfl, if_pos rfl] at both
      exact Option.some.inj both
  | arr label items | _ => cases isNext

/-- The objects of the nodes become what their operations make of them, one
after the other. -/
def Replays : Nodes → JsonValue → JsonValue → Prop
  | [], root, next => next = root
  | node :: rest, root, next =>
    ∃ fields middle,
      objectAt root node.1 = some fields ∧
        Becomes (keyPath node.1) root (.obj () (nodeFields node.2 fields)) middle ∧
        Replays rest middle next

/-- Replaying a node leaves an object as it was whose path the node neither is
nor lies under, and none of whose keys it wrote or deleted. -/
theorem becomes_leaves {other : List Text} (direct : normalizedContainerWrite e fields = false)
    (found : objectAt root path = some fields)
    (becomes : Becomes (keyPath path) root (.obj () (nodeFields e fields)) next)
    (outside : ¬ other <+: path)
    (kept : ∀ key rest, other = path ++ key :: rest → e.keeps key = true) :
    get (keyPath other) next = get (keyPath other) root := by
  induction path generalizing other root next with
  | nil =>
    obtain rfl := objectAt_nil.mp found
    have isNext : next = .obj () (nodeFields e fields) := Option.some.inj becomes.found
    cases other with
    | nil => exact absurd List.nil_prefix outside
    | cons key rest =>
      have keeps := kept key rest rfl
      simp only [NodeEdits.keeps, Bool.and_eq_true, Bool.not_eq_true'] at keeps
      have notWritten : Entries.get e.writes key = none := by
        rw [← Option.not_isSome_iff_eq_none]
        intro present
        rw [Entries.has, present] at keeps
        cases keeps.1
      have same :
          Entries.get (nodeFields e fields) key =
            Entries.get fields key := by
        rw [get_nodeFields direct, notWritten]
        simp only [keeps.2, Bool.false_eq_true, if_false]
      subst isNext
      show (Entries.get (nodeFields e fields) key).bind _ = (Entries.get fields key).bind _
      rw [same]
  | cons first tail ih =>
    obtain ⟨own, inner, rfl, isChild, deeper⟩ := objectAt_cons found
    obtain ⟨changed, innerNext, rfl, looked, becomesInner⟩ := becomes_under isChild becomes
    cases other with
    | nil => exact absurd List.nil_prefix outside
    | cons key rest =>
      show (Entries.get changed key).bind _ = (Entries.get own key).bind _
      rw [looked]
      by_cases same : key = first
      · subst same
        rw [if_pos rfl, isChild]
        apply ih deeper becomesInner
        · exact fun before => outside (List.cons_prefix_cons.mpr ⟨rfl, before⟩)
        · intro name later split
          exact kept name later (by rw [split, List.cons_append])
      · rw [if_neg same]

/-! ## The batch -/

variable {nodes : Nodes}

theorem keeps_of_attached {parent : List Text}
    (isAttached : attached nodes parent (path ++ key :: rest) = true) :
    (editsAt nodes (parent ++ path)).keeps key = true := by
  induction path generalizing parent with
  | nil =>
    rw [List.nil_append, attached, Bool.and_eq_true] at isAttached
    rw [List.append_nil]
    exact isAttached.1
  | cons first tail ih =>
    rw [List.cons_append, attached, Bool.and_eq_true] at isAttached
    have deeper := ih isAttached.2
    rwa [List.append_assoc] at deeper

/-- A list of nodes to replay over a base: the attached ones of a draft, by
depth. -/
structure Lists (nodes order : Nodes) (base : JsonValue) : Prop where
  mem : ∀ node, node ∈ order ↔ node ∈ nodes ∧ attached nodes [] node.1 = true
  sorted : order.Pairwise fun first second => first.1.length ≤ second.1.length
  unique : (Entries.keys nodes).Nodup
  distinct : (Entries.keys order).Nodup
  objects : ∀ node ∈ nodes, (objectAt base node.1).isSome = true
  direct : ∀ node ∈ order, normalizedContainerWrite node.2 ((objectAt base node.1).getD []) = false

theorem editsAt_of_mem {nodes : Nodes} {node : List Text × NodeEdits}
    (unique : (Entries.keys nodes).Nodup) (member : node ∈ nodes) :
    editsAt nodes node.1 = node.2 := by
  rw [editsAt, Entries.get_of_mem unique member]
  rfl

variable {order : Nodes} {base : JsonValue} {rest : Nodes} {node : List Text × NodeEdits}

theorem later_outside {later : List Text × NodeEdits} (lists : Lists nodes order base)
    (isTail : (node :: rest).Sublist order) (member : later ∈ rest) :
    ¬ later.1 <+: node.1 ∧
      ∀ key deeper, later.1 = node.1 ++ key :: deeper → node.2.keeps key = true := by
  have deeper : node.1.length ≤ later.1.length :=
    List.rel_of_pairwise_cons (lists.sorted.sublist isTail) member
  have different : later.1 ≠ node.1 := by
    intro same
    have distinct := lists.distinct.sublist (isTail.map Prod.fst)
    rw [List.map_cons, List.nodup_cons] at distinct
    apply distinct.1
    rw [← same]
    exact List.mem_map_of_mem member
  have nodeInOrder : node ∈ order := isTail.subset List.mem_cons_self
  have laterInOrder : later ∈ order := isTail.subset (List.mem_cons_of_mem _ member)
  constructor
  · intro before
    exact different (before.eq_of_length_le deeper)
  · intro key below split
    have isAttached := ((lists.mem later).mp laterInOrder).2
    rw [split] at isAttached
    have keeps := keeps_of_attached isAttached
    rwa [List.nil_append, editsAt_of_mem lists.unique ((lists.mem node).mp nodeInOrder).1] at keeps

theorem safePath_keyPath (plain : path.any (· ∈ RESERVED_SEGMENTS) = false) :
    SafePath (keyPath path) := by
  intro segment member
  obtain ⟨key, inPath, rfl⟩ := List.mem_map.mp member
  have notAny := List.any_eq_false.mp plain key inPath
  simpa [Seg.Safe] using notAny

/-- The operations of the nodes still to come, replayed on a value that has
their objects as the base does. -/
theorem replays_order (lists : Lists nodes order base)
    (plainKeys : ∀ node ∈ order, node.2.hasReservedMutation = false)
    (plainPaths : ∀ node ∈ order, (node.1.any (· ∈ RESERVED_SEGMENTS)) = false)
    {rest : Nodes} (isTail : rest.Sublist order) (root : JsonValue)
    (untouched : ∀ node ∈ rest, get (keyPath node.1) root = get (keyPath node.1) base) :
    (∀ op ∈ rest.flatMap (nodeOperations base), op.Valid) ∧
      ∃ next, applyOps root (rest.flatMap (nodeOperations base)) = .ok next ∧
        Replays rest root next := by
  induction rest generalizing root with
  | nil => exact ⟨fun _ member => absurd member List.not_mem_nil, root, rfl, rfl⟩
  | cons node rest ih =>
    have inOrder : node ∈ order := isTail.subset List.mem_cons_self
    obtain ⟨fields, isObject⟩ :=
      Option.isSome_iff_exists.mp
        (lists.objects node ((lists.mem node).mp inOrder).1)
    have here : get (keyPath node.1) root = some (.obj () fields) := by
      rw [untouched node List.mem_cons_self]
      exact get_of_objectAt isObject
    have direct : normalizedContainerWrite node.2 fields = false := by
      have given := lists.direct node inOrder
      rwa [isObject] at given
    have replay :=
      replaysFields_node node.2 fields
        (safePath_keyPath (plainPaths node inOrder)) (plainKeys node inOrder)
    obtain ⟨middle, applied, becomes⟩ := replay.applied root here
    have restTail : rest.Sublist order := (List.sublist_cons_self node rest).trans isTail
    have stillUntouched :
        ∀ later ∈ rest, get (keyPath later.1) middle = get (keyPath later.1) base := by
      intro later member
      obtain ⟨outside, kept⟩ := later_outside lists isTail member
      rw [becomes_leaves direct (objectAt_of_get here) becomes outside kept]
      exact untouched later (List.mem_cons_of_mem _ member)
    obtain ⟨validRest, next, appliedRest, replays⟩ := ih restTail middle stillUntouched
    have operations :
        nodeOperations base node = emitObjectOperations node.2 fields (keyPath node.1) := by
      rw [nodeOperations, isObject]
      rfl
    rw [List.flatMap_cons, operations]
    refine ⟨?_, next, ?_, fields, middle, objectAt_of_get here, becomes, replays⟩
    · exact List.forall_mem_append.mpr ⟨replay.valid, validRest⟩
    · rw [applyOps_append applied]
      exact appliedRest

/-! ## The replay is the clone -/

theorem replays_under (inner : ∀ node ∈ order, node.1 ≠ [])
    (replays : Replays order (.obj () own) next) :
    ∃ changed, next = .obj () changed ∧
      ∀ key,
        (Entries.get own key = none → Entries.get changed key = none) ∧
          ∀ value, Entries.get own key = some value →
            ∃ valueNext, Entries.get changed key = some valueNext ∧
              Replays (below key order) value valueNext := by
  induction order generalizing own with
  | nil =>
    cases replays
    exact ⟨own, rfl, fun key => ⟨id, fun value found => ⟨value, found, rfl⟩⟩⟩
  | cons node rest ih =>
    obtain ⟨fields, middle, found, becomes, later⟩ := replays
    obtain ⟨path, e⟩ := node
    cases path with
    | nil => exact absurd rfl (inner _ List.mem_cons_self)
    | cons first tail =>
      obtain ⟨sameOwn, child_, isSelf, isChild, deeper⟩ := objectAt_cons found
      cases isSelf
      obtain ⟨changedOwn, childNext, rfl, looked, becomesChild⟩ := becomes_under isChild becomes
      obtain ⟨changed, rfl, rest_⟩ :=
        ih
          (fun node member => inner node (List.mem_cons_of_mem _ member))
          later
      refine ⟨changed, rfl, ?_⟩
      intro key
      obtain ⟨absent, present⟩ := rest_ key
      by_cases same : key = first
      · subst same
        refine ⟨fun missing => ?_, ?_⟩
        · rw [isChild] at missing
          cases missing
        · intro value isValue
          rw [isChild] at isValue
          cases isValue
          obtain ⟨valueNext, isNext, replaysRest⟩ := present childNext (by rw [looked, if_pos rfl])
          refine ⟨valueNext, isNext, ?_⟩
          have split : below key ((key :: tail, e) :: rest) = (tail, e) :: below key rest := by
            simp [below]
          rw [split]
          exact ⟨fields, childNext, deeper, becomesChild, replaysRest⟩
      · have split : below key ((first :: tail, e) :: rest) = below key rest := by
          simp [below, Ne.symm same]
        rw [split]
        constructor
        · intro missing
          apply absent
          rw [looked, if_neg same]
          exact missing
        · intro value isValue
          apply present
          rw [looked, if_neg same]
          exact isValue

theorem get_below (key : Text) (nodes : Nodes) (path : List Text) :
    Entries.get (below key nodes) path = Entries.get nodes (key :: path) := by
  induction nodes with
  | nil => rfl
  | cons node rest ih =>
    obtain ⟨at_, e⟩ := node
    cases at_ with
    | nil =>
      have split : below key (([], e) :: rest) = below key rest := by simp [below]
      rw [split, ih, Entries.get_cons, if_neg (by simp)]
    | cons first tail =>
      by_cases same : first = key
      · subst same
        have split : below first ((first :: tail, e) :: rest) = (tail, e) :: below first rest := by
          simp [below]
        rw [split, Entries.get_cons, Entries.get_cons, ih]
        by_cases here : path = tail
        · simp [here]
        · simp [here]
      · have split : below key ((first :: tail, e) :: rest) = below key rest := by
          simp [below, same]
        rw [split, ih, Entries.get_cons, if_neg (by simp [Ne.symm same])]

theorem mem_below : node ∈ below key nodes ↔ (key :: node.1, node.2) ∈ nodes := by
  rw [below, List.mem_filterMap]
  constructor
  · rintro ⟨⟨path, e⟩, member, isBelow⟩
    cases path with
    | nil => cases isBelow
    | cons first rest =>
      dsimp only at isBelow
      split at isBelow
      · rename_i same
        cases isBelow
        rw [← same]
        exact member
      · cases isBelow
  · intro member
    exact ⟨_, member, by simp⟩

theorem keys_below_nodup (unique : (Entries.keys nodes).Nodup) :
    (Entries.keys (below key nodes)).Nodup := by
  induction nodes with
  | nil => exact List.nodup_nil
  | cons node rest ih =>
    obtain ⟨isNew, uniqueRest⟩ := List.nodup_cons.mp unique
    obtain ⟨path, e⟩ := node
    cases path with
    | nil =>
      have split : below key (([], e) :: rest) = below key rest := by simp [below]
      rw [split]
      exact ih uniqueRest
    | cons first tail =>
      by_cases same : first = key
      · subst same
        have split : below first ((first :: tail, e) :: rest) = (tail, e) :: below first rest := by
          simp [below]
        rw [split]
        refine List.nodup_cons.mpr ⟨?_, ih uniqueRest⟩
        intro member
        obtain ⟨other, isOther, same⟩ := List.mem_map.mp member
        apply isNew
        have isNode := mem_below.mp isOther
        rw [same] at isNode
        exact List.mem_map.mpr ⟨_, isNode, rfl⟩
      · have split : below key ((first :: tail, e) :: rest) = below key rest := by
          simp [below, same]
        rw [split]
        exact ih uniqueRest

theorem attached_below (key : Text) (nodes : Nodes) (parent path : List Text) :
    attached (below key nodes) parent path = attached nodes (key :: parent) path := by
  induction path generalizing parent with
  | nil => rfl
  | cons first rest ih =>
    have edits : editsAt (below key nodes) parent = editsAt nodes (key :: parent) := by
      rw [editsAt, get_below, editsAt]
    rw [attached, attached, edits, ih, List.cons_append]

/-- The order of a draft holds, under a key the root left alone, the order of
the part of the draft there. -/
theorem lists_below (lists : Lists nodes order (.obj () own))
    (keeps : (editsAt nodes []).keeps key = true) (isChild : Entries.get own key = some value) :
    Lists (below key nodes) (below key order) value where
  mem := by
    intro node
    have splitAttached : attached nodes [] (key :: node.1) = attached nodes [key] node.1 := by
      rw [attached, keeps, Bool.true_and, List.nil_append]
    rw [mem_below, mem_below, lists.mem, attached_below, splitAttached]
  sorted := by
    rw [below, List.pairwise_filterMap]
    apply lists.sorted.imp
    rintro ⟨first, e⟩ ⟨second, d⟩ shorter a isFirst b isSecond
    cases first with
    | nil => cases isFirst
    | cons firstKey firstRest =>
      cases second with
      | nil => cases isSecond
      | cons secondKey secondRest =>
        dsimp only at isFirst isSecond
        split at isFirst
        · split at isSecond
          · cases isFirst
            cases isSecond
            simpa using shorter
          · cases isSecond
        · cases isFirst
  unique := keys_below_nodup lists.unique
  distinct := keys_below_nodup lists.distinct
  objects := by
    intro node member
    have isObject := lists.objects _ (mem_below.mp member)
    rwa [objectAt_field isChild] at isObject
  direct := by
    intro node member
    have isDirect := lists.direct _ (mem_below.mp member)
    rwa [objectAt_field isChild] at isDirect

theorem below_eq_nil (lists : Lists nodes order base)
    (cut : (editsAt nodes []).keeps key = false) : below key order = [] := by
  rw [List.eq_nil_iff_forall_not_mem]
  intro node member
  have isAttached := ((lists.mem _).mp (mem_below.mp member)).2
  rw [attached, cut, Bool.false_and] at isAttached
  cases isAttached

theorem get_cloneFields (nodes : Nodes) (fields : List (Text × JsonValue)) (key : Text) :
    Entries.get (cloneFields nodes fields) key =
      if (editsAt nodes []).deletes.contains key ||
          (editsAt nodes []).readded.contains key then
        none
      else
        (Entries.get fields key).map fun value =>
          (Entries.get (editsAt nodes []).writes key).getD
            (cloneStored (below key nodes) value) := by
  induction fields with
  | nil => simp [cloneFields]
  | cons field rest ih =>
    obtain ⟨name, value⟩ := field
    rw [cloneFields]
    by_cases gone :
        ((editsAt nodes []).deletes.contains name ||
          (editsAt nodes []).readded.contains name) = true
    · rw [if_pos gone, ih]
      by_cases same : key = name
      · rw [same, if_pos gone, if_pos gone]
      · rw [Entries.get_cons, if_neg same]
    · rw [if_neg gone, Entries.get_cons, ih, Entries.get_cons]
      by_cases same : key = name
      · rw [if_pos same, same, if_neg gone, if_pos rfl]
        rfl
      · rw [if_neg same, if_neg same]

theorem get_clone (nodes : Nodes) (fields : List (Text × JsonValue)) (key : Text) :
    Entries.get
        (cloneFields nodes fields ++
          (editsAt nodes []).writes.filter fun write =>
            !Entries.has (cloneFields nodes fields) write.1) key =
      match Entries.get (editsAt nodes []).writes key with
      | some value => some value
      | none =>
        if (editsAt nodes []).deletes.contains key then none
        else (Entries.get fields key).map (cloneStored (below key nodes)) := by
  have restricted :
      ((editsAt nodes []).writes.filter fun write =>
          !Entries.has (cloneFields nodes fields) write.1) =
        Entries.restrict (editsAt nodes []).writes fun name =>
          !Entries.has (cloneFields nodes fields) name := rfl
  rw [Entries.get_append, restricted, Entries.get_restrict]
  cases written : Entries.get (editsAt nodes []).writes key with
  | some value =>
    dsimp only
    cases present : Entries.get (cloneFields nodes fields) key with
    | none => simp [Entries.has, present]
    | some own =>
      have isWritten := present
      rw [get_cloneFields, written] at isWritten
      split at isWritten
      · cases isWritten
      · obtain ⟨_, _, same⟩ := Option.map_eq_some_iff.mp isWritten
        rw [← same]
        rfl
  | none =>
    have notReadded : (editsAt nodes []).readded.contains key = false := by
      rw [Bool.eq_false_iff]
      intro readded
      have present := (editsAt nodes []).written key (by simpa using readded)
      rw [Entries.has, written] at present
      cases present
    rw [get_cloneFields, notReadded, Bool.or_false, written]
    split
    · simp
    · simp

theorem replays_cons_root (replays : Replays (([], e) :: order) (.obj () own) next) :
    Replays order (.obj () (nodeFields e own)) next := by
  obtain ⟨fields, middle, found, becomes, later⟩ := replays
  have isRoot := objectAt_nil.mp found
  cases isRoot
  have isMiddle : middle = .obj () (nodeFields e own) := Option.some.inj becomes.found
  rwa [isMiddle] at later

theorem replays_root (lists : Lists nodes order (.obj () own))
    (replays : Replays order (.obj () own) next) :
    ∃ mine deeper,
      (∀ key, Entries.get mine key =
        match Entries.get (editsAt nodes []).writes key with
        | some value => some value
        | none =>
          if (editsAt nodes []).deletes.contains key then none
          else Entries.get own key) ∧
        (∀ key, below key deeper = below key order) ∧
        (∀ node ∈ deeper, node.1 ≠ []) ∧ Replays deeper (.obj () mine) next := by
  by_cases rooted : ∃ e, ([], e) ∈ order
  · obtain ⟨e, member⟩ := rooted
    have isEdits : editsAt nodes [] = e :=
      @editsAt_of_mem nodes ([], e) lists.unique ((lists.mem _).mp member).1
    cases order with
    | nil => cases member
    | cons node rest =>
      have isFirst : node = ([], e) := by
        rcases List.mem_cons.mp member with same | later
        · exact same.symm
        · have shorter := List.rel_of_pairwise_cons lists.sorted later
          have empty : node.1 = [] := List.eq_nil_of_length_eq_zero (Nat.le_zero.mp shorter)
          have distinct := List.nodup_cons.mp lists.distinct
          exact absurd (List.mem_map.mpr ⟨_, later, empty.symm⟩) distinct.1
      subst isFirst
      have direct : normalizedContainerWrite e own = false := by
        have given := lists.direct ([], e) List.mem_cons_self
        rwa [objectAt_nil.mpr rfl] at given
      refine ⟨nodeFields e own, rest, ?_, ?_, ?_, replays_cons_root replays⟩
      · intro key
        rw [get_nodeFields direct, isEdits]
      · intro key
        simp [below]
      · intro node isLater empty
        have distinct := List.nodup_cons.mp lists.distinct
        exact distinct.1 (List.mem_map.mpr ⟨_, isLater, empty⟩)
  · have untouched : editsAt nodes [] = NodeEdits.none := by
      cases found : Entries.get nodes [] with
      | none => rw [editsAt, found, Option.getD_none]
      | some e =>
        have member := Entries.mem_of_get found
        exact absurd ⟨e, (lists.mem _).mpr ⟨member, rfl⟩⟩ rooted
    refine ⟨own, order, ?_, fun _ => rfl, ?_, replays⟩
    · intro key
      rw [untouched]
      simp [NodeEdits.none]
    · intro node member empty
      obtain ⟨path, e⟩ := node
      cases empty
      exact rooted ⟨e, member⟩

theorem replays_clone (base : JsonValue) :
    ∀ (nodes order : Nodes) (next : JsonValue), Lists nodes order base →
      Replays order base next → DeepEqual next (cloneStored nodes base) := by
  have leaf :
      ∀ (value : JsonValue), (∀ fields, value ≠ .obj () fields) →
        ∀ (nodes order : Nodes) (next : JsonValue), Lists nodes order value →
          Replays order value next → next = value := by
    intro value notObject nodes order next lists replays
    cases order with
    | nil => exact replays
    | cons node rest =>
      obtain ⟨fields, _, found, _⟩ := replays
      obtain ⟨path, e⟩ := node
      cases path with
      | nil => exact absurd (objectAt_nil.mp found) (notObject fields)
      | cons key tail =>
        obtain ⟨own, _, isObject, _⟩ := objectAt_cons found
        exact absurd isObject (notObject own)
  induction base using Json.induct with
  | null =>
    intro nodes order next lists replays
    rw [leaf .null (by simp) nodes order next lists replays]
    exact DeepEqual.same _
  | bool value =>
    intro nodes order next lists replays
    rw [leaf (.bool value) (by simp) nodes order next lists replays]
    exact DeepEqual.same _
  | num value =>
    intro nodes order next lists replays
    rw [leaf (.num value) (by simp) nodes order next lists replays]
    exact DeepEqual.same _
  | str text =>
    intro nodes order next lists replays
    rw [leaf (.str text) (by simp) nodes order next lists replays]
    exact DeepEqual.same _
  | arr label items =>
    intro nodes order next lists replays
    rw [leaf (.arr label items) (by simp) nodes order next lists replays]
    exact DeepEqual.same _
  | obj label own ih =>
    intro nodes order next lists replays
    rw [cloneStored]
    split
    · rename_i noNodes
      have noOrder : order = [] := by
        rw [List.eq_nil_iff_forall_not_mem]
        intro node member
        have inNodes := ((lists.mem node).mp member).1
        rw [List.isEmpty_iff.mp noNodes] at inNodes
        cases inNodes
      subst noOrder
      cases replays
      exact DeepEqual.same _
    · obtain ⟨mine, deeper, looked, sameBelow, inner, replaysDeeper⟩ :=
        replays_root lists replays
      obtain ⟨changed, rfl, children⟩ := replays_under inner replaysDeeper
      have compared :
          ∀ key,
            (Entries.get changed key = none ∧
              Entries.get
                  (cloneFields nodes own ++
                    (editsAt nodes []).writes.filter fun write =>
                      !Entries.has (cloneFields nodes own) write.1) key =
                none) ∨
              ∃ left right, Entries.get changed key = some left ∧
                Entries.get
                    (cloneFields nodes own ++
                      (editsAt nodes []).writes.filter fun write =>
                        !Entries.has (cloneFields nodes own) write.1) key =
                  some right ∧
                DeepEqual left right := by
        intro key
        obtain ⟨absent, present⟩ := children key
        have mineAt := looked key
        rw [get_clone]
        cases written : Entries.get (editsAt nodes []).writes key with
        | some value =>
          rw [written] at mineAt
          obtain ⟨valueNext, isNext, nothing⟩ := present value mineAt
          have cut : (editsAt nodes []).keeps key = false := by
            simp [NodeEdits.keeps, Entries.has, written]
          rw [sameBelow, below_eq_nil lists cut] at nothing
          cases nothing
          exact .inr ⟨value, value, isNext, rfl, DeepEqual.same value⟩
        | none =>
          rw [written] at mineAt
          dsimp only at mineAt ⊢
          cases deleted : (editsAt nodes []).deletes.contains key with
          | true =>
            rw [deleted, if_pos rfl] at mineAt
            exact .inl ⟨absent mineAt, rfl⟩
          | false =>
            simp only [deleted, Bool.false_eq_true, if_false] at mineAt
            cases isOwn : Entries.get own key with
            | none =>
              rw [isOwn] at mineAt
              exact .inl ⟨absent mineAt, by simp⟩
            | some value =>
              rw [isOwn] at mineAt
              obtain ⟨valueNext, isNext, replaysKey⟩ := present value mineAt
              rw [sameBelow] at replaysKey
              have keeps : (editsAt nodes []).keeps key = true := by
                rw [NodeEdits.keeps, Entries.has, written, deleted]
                rfl
              have equal :=
                ih (key, value) (Entries.mem_of_get isOwn) (below key nodes)
                  (below key order) valueNext
                  (lists_below lists keeps isOwn) replaysKey
              exact .inr ⟨valueNext, _, isNext, by simp, equal⟩
      apply DeepEqual.obj
      · intro key
        rcases compared key with ⟨none_, noneClone⟩ | ⟨_, _, one, other, _⟩
        · rw [Entries.has, Entries.has, none_, noneClone]
        · rw [Entries.has, Entries.has, one, other]
          rfl
      · intro key left right isLeft isRight
        rcases compared key with ⟨none_, _⟩ | ⟨_, _, one, other, equal⟩
        · rw [none_] at isLeft
          cases isLeft
        · rw [isLeft] at one
          rw [isRight] at other
          cases one
          cases other
          exact equal

/-! ## Drafts -/

structure DraftWf (base : JsonValue) (draft : Draft) : Prop where
  unique : (Entries.keys draft.nodes).Nodup
  objects : ∀ node ∈ draft.nodes, (objectAt base node.1).isSome = true

theorem draftWf_start (base : JsonValue) : DraftWf base Draft.start where
  unique := List.nodup_nil
  objects := fun _ member => absurd member List.not_mem_nil

variable {draft : Draft}

section

variable (wf : DraftWf base draft)
include wf

theorem draftWf_note (isObject : (objectAt base path).isSome = true) (edits : NodeEdits) :
    DraftWf base { draft with nodes := Entries.set draft.nodes path edits } where
  unique := Entries.nodup_keys_set wf.unique path edits
  objects := by
    intro node member
    rcases Entries.mem_set member with rfl | old
    · exact isObject
    · exact wf.objects node old

theorem draftWf_edit (change : DraftEdit) :
    DraftWf base (draft.edit base change) := by
  cases change with
  | set path key value | delete path key =>
    rw [Draft.edit]
    split
    · exact wf
    · rename_i fields isObject
      split
      · exact wf
      · exact draftWf_note wf (by rw [isObject]; rfl) _
  | other => exact ⟨wf.unique, wf.objects⟩

theorem lists_resolved
    (direct :
      ∀ node ∈ resolved draft.nodes,
        normalizedContainerWrite node.2 ((objectAt base node.1).getD []) = false) :
    Lists draft.nodes (resolved draft.nodes) base where
  mem := by
    intro node
    rw [resolved, List.mem_insertionSort, List.mem_filter]
  sorted := by
    have total : ∀ first second : List Text × NodeEdits,
        first.1.length ≤ second.1.length ∨ second.1.length ≤ first.1.length :=
      fun first second => Nat.le_total _ _
    have trans : ∀ first second third : List Text × NodeEdits,
        first.1.length ≤ second.1.length →
          second.1.length ≤ third.1.length →
            first.1.length ≤ third.1.length :=
      fun _ _ _ one two => Nat.le_trans one two
    have : Std.Total fun first second : List Text × NodeEdits =>
        first.1.length ≤ second.1.length := ⟨total⟩
    have : IsTrans (List Text × NodeEdits) fun first second =>
        first.1.length ≤ second.1.length := ⟨trans⟩
    exact List.pairwise_insertionSort _ _
  unique := wf.unique
  distinct := by
    have filtered :
        (Entries.keys
          (draft.nodes.filter fun node =>
            attached draft.nodes [] node.1)).Nodup :=
      wf.unique.sublist (List.filter_sublist.map Prod.fst)
    have permuted :=
      (List.perm_insertionSort
        (fun first second : List Text × NodeEdits => first.1.length ≤ second.1.length)
        (draft.nodes.filter fun node => attached draft.nodes [] node.1)).map Prod.fst
    exact permuted.nodup_iff.mpr filtered
  objects := wf.objects
  direct := direct

/-- Where `prepare` takes the draft's clone as the new value, replaying the
emitted operations over the base gives the same value. -/
theorem emitSimple_materializes {emission : Emission}
    (emits : emitSimpleObjectOperations base draft = some emission)
    (clones : emission.simpleObjectMaterialization = true) :
    ∃ result,
      materializeOperations base emission.operations = .ok result ∧
        DeepEqual result (cloneStored draft.nodes base) := by
  unfold emitSimpleObjectOperations at emits
  dsimp only at emits
  split at emits
  · cases emits
  · rename_i simple
    simp only [Bool.or_eq_true, not_or, Bool.not_eq_true] at simple
    obtain ⟨⟨⟨_, plainKeys⟩, plainPaths⟩, _⟩ := simple
    split at emits
    · cases emits
      cases clones
    · cases emits
      have direct :
          ∀ node ∈ resolved draft.nodes,
            normalizedContainerWrite node.2 ((objectAt base node.1).getD []) = false := by
        intro node member
        rw [Bool.not_eq_true', List.any_eq_false] at clones
        exact Bool.eq_false_iff.mpr (clones node member)
      have lists := lists_resolved wf direct
      obtain ⟨valid, next, applied, replays⟩ :=
        replays_order lists
          (fun node member =>
            Bool.eq_false_iff.mpr
              (List.any_eq_false.mp plainKeys node ((lists.mem node).mp member).1))
          (fun node member => Bool.eq_false_iff.mpr (List.any_eq_false.mp plainPaths node member))
          (List.Sublist.refl _) base (fun _ _ => rfl)
      exact
        ⟨next, materializeOperations_of_applyOps valid applied,
          replays_clone base _ _ next lists replays⟩

end

end PiEmbodied.Chord.Delta
