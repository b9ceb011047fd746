import PiEmbodied.Chord.Delta.Matches
import PiEmbodied.Chord.Delta.Trusted
import PiEmbodied.Chord.Delta.Turns

/-!
# Drafts of objects

A draft keeps, for each object of its base that was edited, the keys written
and deleted.  While only objects of the base are edited, `prepare` emits the
edits node by node and may take the draft's own clone as the new value instead
of replaying them; the clone is what the replay gives.
-/

namespace PiEmbodied.Chord.Delta

open Coding

/-! ## The edits of one object -/

/-- What was written and deleted on one object, in order.  A key read again
after a deletion is among `readded`. -/
structure NodeEdits where
  writes : List (Text × JsonValue)
  (deletes readded : List Text)
  unique : (Entries.keys writes).Nodup
  apart : ∀ key ∈ deletes, Entries.has writes key = false
  written : ∀ key ∈ readded, Entries.has writes key = true

namespace NodeEdits

def none : NodeEdits where
  writes := []
  deletes := []
  readded := []
  unique := List.nodup_nil
  apart := by simp
  written := by simp

def keeps (e : NodeEdits) (key : Text) : Bool :=
  !Entries.has e.writes key && !e.deletes.contains key

/-- `objectHas` over the base's fields. -/
def objectHas (e : NodeEdits) (fields : List (Text × JsonValue)) (key : Text) :
    Bool :=
  !e.deletes.contains key && (Entries.has e.writes key || Entries.has fields key)

/-- `objectValue` over the base's fields. -/
def objectValue (e : NodeEdits) (fields : List (Text × JsonValue)) (key : Text) :
    Option JsonValue :=
  (Entries.get e.writes key).or (Entries.get fields key)

/-- A value written at a key; nothing is noted for the primitive that is
there. -/
def setKey (e : NodeEdits) (fields : List (Text × JsonValue)) (key : Text)
    (value : JsonValue) : Option NodeEdits :=
  let wasDeleted := e.deletes.contains key
  if !wasDeleted && !value.isContainer &&
      (e.objectValue fields key).any value.same then
    Option.none
  else
    some
      { writes := Entries.set e.writes key value
        deletes := e.deletes.filter (· ≠ key)
        readded :=
          if wasDeleted && Entries.has fields key &&
              !e.readded.contains key then
            e.readded ++ [key]
          else e.readded
        unique := Entries.nodup_keys_set e.unique key value
        apart := by
          intro other member
          obtain ⟨inDeletes, different⟩ := List.mem_filter.mp member
          rw [Entries.has_set, e.apart other inDeletes, Bool.or_false]
          simpa using different
        written := by
          intro other member
          rw [Entries.has_set]
          have old :
              other ∈ e.readded → (decide (other = key) || Entries.has e.writes other) = true := by
            intro inReadded
            rw [e.written other inReadded, Bool.or_true]
          split at member
          · rcases List.mem_append.mp member with inReadded | isKey
            · exact old inReadded
            · simp [List.mem_singleton.mp isKey]
          · exact old member }

/-- A key deleted; nothing is noted for one that is not there. -/
def deleteKey (e : NodeEdits) (fields : List (Text × JsonValue)) (key : Text) :
    Option NodeEdits :=
  if !e.objectHas fields key then Option.none
  else
    some
      { writes := Entries.delete e.writes key
        deletes :=
          if e.deletes.contains key then e.deletes else e.deletes ++ [key]
        readded := e.readded.filter (· ≠ key)
        unique := Entries.nodup_keys_delete e.unique key
        apart := by
          intro other member
          rw [Entries.has_delete]
          by_cases same : other = key
          · simp [same]
          · have inDeletes : other ∈ e.deletes := by
              split at member
              · exact member
              · rcases List.mem_append.mp member with inDeletes | isKey
                · exact inDeletes
                · exact absurd (List.mem_singleton.mp isKey) same
            rw [e.apart other inDeletes, Bool.and_false]
        written := by
          intro other member
          obtain ⟨inReadded, different⟩ := List.mem_filter.mp member
          rw [Entries.has_delete, e.written other inReadded, Bool.and_true]
          simpa using different }

def hasReservedMutation (e : NodeEdits) : Bool :=
  (Entries.keys e.writes ++ e.deletes).any (· ∈ RESERVED_SEGMENTS)

end NodeEdits

/-- The edited objects by their path in the base, in the order they were first
edited. -/
abbrev Nodes := List (List Text × NodeEdits)

def editsAt (nodes : Nodes) (path : List Text) : NodeEdits :=
  (Entries.get nodes path).getD NodeEdits.none

def keyPath (path : List Text) : Path := path.map Seg.key

def objectAt (base : JsonValue) (path : List Text) : Option (List (Text × JsonValue)) :=
  match get (keyPath path) base with
  | some (.obj _ fields) => some fields
  | _ => none

/-- One edit made through a draft.  `other` is any edit of an array or of a
value that was itself written. -/
inductive DraftEdit where
  | set (path : List Text) (key : Text) (value : JsonValue)
  | delete (path : List Text) (key : Text)
  | other

/-- A draft: the object edits, and whether anything else was edited. -/
structure Draft where
  nodes : Nodes
  mixed : Bool

def Draft.start : Draft := ⟨[], false⟩

def Draft.edit (base : JsonValue) (draft : Draft) : DraftEdit → Draft
  | .set path key value =>
    match objectAt base path with
    | none => draft
    | some fields =>
      match (editsAt draft.nodes path).setKey fields key value with
      | none => draft
      | some edits => { draft with nodes := Entries.set draft.nodes path edits }
  | .delete path key =>
    match objectAt base path with
    | none => draft
    | some fields =>
      match (editsAt draft.nodes path).deleteKey fields key with
      | none => draft
      | some edits => { draft with nodes := Entries.set draft.nodes path edits }
  | .other => { draft with mixed := true }

mutual

def equalTrustedJson : JsonValue → JsonValue → Bool
  | .arr _ items, .arr _ other => items.length = other.length && equalTrustedItems items other
  | .obj _ fields, .obj _ other => fields.length = other.length && equalTrustedFields fields other
  | .arr _ _, _ | .obj _ _, _ => false
  | left, right => left.same right

def equalTrustedItems : List JsonValue → List JsonValue → Bool
  | item :: rest, other :: others => equalTrustedJson item other && equalTrustedItems rest others
  | _, _ => true

def equalTrustedFields : List (Text × JsonValue) → List (Text × JsonValue) → Bool
  | [], _ => true
  | (key, value) :: rest, other =>
    (match Entries.get other key with
      | none => false
      | some found => equalTrustedJson value found) &&
      equalTrustedFields rest other

end

/-! ## Emission -/

/-- No operation is needed to turn the one value into the other. -/
def unchanged (before : Option JsonValue) (after : JsonValue) : Bool :=
  (!after.isContainer && before.any after.same) ||
    (after.isContainer && before.any fun value => value.isContainer && equalTrustedJson value after)

def emitChangedValue (path : Path) (before : Option JsonValue) (after : JsonValue) :
    List (Op Unit) :=
  if unchanged before after then []
  else
    match before, after with
    | some (.str old), .str new =>
      if old.length < new.length ∧ new.take old.length = old then
        [.edit path (.a (new.drop old.length))]
      else
        let shared := overlap old new DEFAULT_OVERLAP_SCAN 64 8
        if 0 < shared then
          .edit path (.t (old.length - shared)) ::
            if shared < new.length then
              [.edit path (.a (new.drop shared))]
            else []
        else [.edit path (.s after)]
    | _, _ => [.edit path (.s after)]

/-- What stands at a written key before the write is replayed. -/
def valueBefore (e : NodeEdits) (fields : List (Text × JsonValue)) (key : Text) :
    Option JsonValue :=
  if e.readded.contains key then none else Entries.get fields key

def emitObjectWrite (e : NodeEdits) (fields : List (Text × JsonValue)) (path : Path)
    (write : Text × JsonValue) : List (Op Unit) :=
  emitChangedValue (path ++ [.key write.1]) (valueBefore e fields write.1) write.2

/-- A container was written over an equal one, so the replay keeps the old. -/
def normalizedContainerWrite (e : NodeEdits) (fields : List (Text × JsonValue)) : Bool :=
  e.writes.any fun write => write.2.isContainer && unchanged (valueBefore e fields write.1) write.2

def emitDeletes (fields : List (Text × JsonValue)) (path : Path) (keys : List Text) :
    List (Op Unit) :=
  (keys.filter (Entries.has fields)).map fun key => .edit (path ++ [.key key]) .d

def emitObjectOperations (e : NodeEdits) (fields : List (Text × JsonValue)) (path : Path) :
    List (Op Unit) :=
  emitDeletes fields path e.readded ++ e.writes.flatMap (emitObjectWrite e fields path) ++
    emitDeletes fields path e.deletes

/-- The path still leads to the object of the base: no ancestor wrote or
deleted a key of it. -/
def attached (nodes : Nodes) : List Text → List Text → Bool
  | _, [] => true
  | parent, key :: rest => (editsAt nodes parent).keeps key && attached nodes (parent ++ [key]) rest

def resolved (nodes : Nodes) : Nodes :=
  (nodes.filter fun node => attached nodes [] node.1).insertionSort
    fun first second => first.1.length ≤ second.1.length

def MAX_SIMPLE_OBJECT_NODES : ℕ := 128

def below (key : Text) (nodes : Nodes) : Nodes :=
  nodes.filterMap fun node =>
    match node.1 with
    | [] => none
    | first :: rest => if first = key then some (rest, node.2) else none

mutual

/-- `cloneNode` of the draft's object over a value of the base. -/
def cloneStored (nodes : Nodes) : JsonValue → JsonValue
  | .obj label fields =>
    if nodes.isEmpty then .obj label fields
    else
      let own := cloneFields nodes fields
      .obj label (own ++ (editsAt nodes []).writes.filter fun write => !Entries.has own write.1)
  | value => value

/-- The base's keys that are left, with what stands at them. -/
def cloneFields (nodes : Nodes) : List (Text × JsonValue) → List (Text × JsonValue)
  | [] => []
  | (key, value) :: rest =>
    if (editsAt nodes []).deletes.contains key ||
        (editsAt nodes []).readded.contains key then
      cloneFields nodes rest
    else
      (key,
        ((Entries.get (editsAt nodes []).writes key).getD (cloneStored (below key nodes) value))) ::
        cloneFields nodes rest

end

structure Emission where
  operations : List (Op Unit)
  simpleObjectMaterialization : Bool

def nodeOperations (base : JsonValue) (node : List Text × NodeEdits) : List (Op Unit) :=
  emitObjectOperations node.2 ((objectAt base node.1).getD []) (keyPath node.1)

/-- `emitSimpleObjectOperations`, where only objects of the base were edited
and no reserved name is met. -/
def emitSimpleObjectOperations (base : JsonValue) (draft : Draft) :
    Option Emission :=
  let nodes := resolved draft.nodes
  if draft.mixed ||
      draft.nodes.any (fun node => node.2.hasReservedMutation) ||
      nodes.any (fun node => node.1.any (· ∈ RESERVED_SEGMENTS)) ||
      decide (MAX_SIMPLE_OBJECT_NODES < nodes.length) then
    none
  else
    let operations := nodes.flatMap (nodeOperations base)
    if MAX_DELTA_OPERATIONS < operations.length then
      some ⟨[.r (cloneStored draft.nodes base)], false⟩
    else
      some
        ⟨operations, !nodes.any fun node =>
          normalizedContainerWrite node.2 ((objectAt base node.1).getD [])⟩

end PiEmbodied.Chord.Delta
