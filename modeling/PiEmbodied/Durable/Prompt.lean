import PiEmbodied.OrderedMaps
import PiEmbodied.Durable.Context

/-!
# System prompt planning

The prompt sections and tools in effect after the system messages of a context,
and the `pi.system` entries planned to make them the wanted ones.
-/

namespace PiEmbodied.Durable.Prompt

open Context
open List (append_nil filter_congr filter_eq_nil_iff filter_eq_self filter_filter filter_map
  foldl_cons foldl_map map_append map_cons map_map map_nil mem_cons_self mem_filter mem_map
  mem_map_of_mem mem_of_mem_filter)

/-! ## Objects -/

def arrayIndex (key : String) : Option ℕ :=
  let index := key.toList.foldl (fun index digit => 10 * index + (digit.toNat - '0'.toNat)) 0
  if index < 2 ^ 32 - 1 ∧ toString index = key then some index else none

/-- The order in which an object lists its properties: array indices ascending,
then the other names in the order they were set. -/
def propertyOrder {α : Type} (entries : List (String × α)) : List (String × α) :=
  (entries.filter fun entry => (arrayIndex entry.1).isSome).insertionSort
      (fun first second =>
        (arrayIndex first.1).getD 0 ≤ (arrayIndex second.1).getD 0) ++
    entries.filter fun entry => (arrayIndex entry.1).isNone

/-- `Object.fromEntries` of entries of distinct keys, as the object lists it. -/
def fromEntries {α : Type} (entries : List (String × α)) : List (String × α) :=
  propertyOrder entries

/-- `object[key] = value` on a plain object, its properties in the order they
were set.  An assignment to `__proto__` sets no property. -/
def assign {α : Type} (object : List (String × α)) (key : String) (value : α) : List (String × α) :=
  if key = "__proto__" then object else Entries.set object key value

/-! ## Tools -/

inductive PropertyKey where
  | name (name : String)
  | symbol (description : String)
  deriving DecidableEq

/-- A value of a tool's parameters; `undefined` stands for whatever JSON leaves
out, and a number that JSON has not is none. -/
inductive Schema where
  | undefined
  | null
  | bool (value : Bool)
  | num (value : Option ℚ)
  | str (text : String)
  | arr (items : List Schema)
  | obj (fields : List (PropertyKey × Schema))

inductive Token where
  | null
  | bool (value : Bool)
  | num (value : ℚ)
  | str (text : String)
  | arr
  | obj
  | close
  deriving DecidableEq

namespace Schema

def isUndefined : Schema → Bool
  | .undefined => true
  | _ => false

mutual

/-- `JSON.stringify`, as tokens. -/
def stringify : Schema → List Token
  | .undefined | .null => [.null]
  | .bool value => [.bool value]
  | .num none => [.null]
  | .num (some value) => [.num value]
  | .str text => [.str text]
  | .arr items => .arr :: stringifyItems items ++ [.close]
  | .obj fields => .obj :: stringifyFields fields ++ [.close]

def stringifyItems : List Schema → List Token
  | [] => []
  | item :: rest => stringify item ++ stringifyItems rest

def stringifyFields : List (PropertyKey × Schema) → List Token
  | [] => []
  | (.symbol _, _) :: rest => stringifyFields rest
  | (.name name, value) :: rest =>
    if value.isUndefined then stringifyFields rest
    else .str name :: stringify value ++ stringifyFields rest

end

mutual

/-- `JSON.parse(JSON.stringify(value))`. -/
def roundTrip : Schema → Schema
  | .undefined | .null => .null
  | .bool value => .bool value
  | .num none => .null
  | .num (some value) => .num (some value)
  | .str text => .str text
  | .arr items => .arr (roundTripItems items)
  | .obj fields => .obj (roundTripFields fields)

def roundTripItems : List Schema → List Schema
  | [] => []
  | item :: rest => roundTrip item :: roundTripItems rest

def roundTripFields : List (PropertyKey × Schema) → List (PropertyKey × Schema)
  | [] => []
  | (.symbol _, _) :: rest => roundTripFields rest
  | (.name name, value) :: rest =>
    if value.isUndefined then roundTripFields rest
    else (.name name, roundTrip value) :: roundTripFields rest

end

end Schema

structure Tool where
  (name description : String)
  parameters : List (PropertyKey × Schema)
  constrainedSampling : Option Schema := none

def toToolDeclaration (tool : Tool) : Tool :=
  { name := tool.name
    description := tool.description
    parameters := Schema.roundTripFields tool.parameters
    constrainedSampling := tool.constrainedSampling }

def Tool.object (tool : Tool) : Schema :=
  .obj
    ([(.name "name", .str tool.name), (.name "description", .str tool.description),
        (.name "parameters", .obj tool.parameters)] ++
      (tool.constrainedSampling.map fun sampling => (.name "constrainedSampling", sampling)).toList)

def Tool.declaration (tool : Tool) : List Token :=
  (toToolDeclaration tool).object.stringify

def declarationsEqual (left right : Tool) : Bool :=
  decide (left.declaration = right.declaration)

structure SystemMessage where
  content : String
  /-- The sections as the object lists them. -/
  sections : Option (List (String × Option String)) := none
  toolsRemoved : Option (List String) := none
  toolsAdded : Option (List Tool) := none
  timestamp : ℕ

inductive Body (α : Type) where
  | system (message : SystemMessage)
  | other (body : α)

variable {α : Type}

def systemOf : Message (Body α) → Option SystemMessage
  | .system (.system message) => some message
  | _ => none

def systemMessages (messages : List (Located (Body α))) : List SystemMessage :=
  messages.filterMap fun located => systemOf located.message

/-- The sections after one more system message: set in place, `null` deletes. -/
def SystemMessage.show (shown : OrderedMap String String)
    (message : SystemMessage) : OrderedMap String String :=
  match message.sections with
  | none => shown
  | some sections => shown.patch sections

def replaySections (messages : List (Located (Body α))) :
    OrderedMap String String :=
  (systemMessages messages).foldl SystemMessage.show .empty

def SystemMessage.offer (tools : OrderedMap String Tool)
    (message : SystemMessage) : OrderedMap String Tool :=
  let left := (message.toolsRemoved.getD []).foldl (fun tools name => tools.delete name) tools
  (message.toolsAdded.getD []).foldl (fun tools tool => tools.set tool.name tool) left

def getCurrentTools (messages : List (Located (Body α))) : List Tool :=
  ((systemMessages messages).foldl SystemMessage.offer .empty).values

/-! ## Planning -/

/-- Whether the first list has an item that the second has not at its place. -/
def differs {β : Type} [DecidableEq β] (first second : List β) : Bool :=
  first.zipIdx.any fun item => second[item.2]? ≠ some item.1

structure ToolChanges where
  toolsRemoved : List String
  toolsAdded : List Tool

def planTools (offered desired : List Tool) : ToolChanges :=
  let wanted := OrderedMap.ofList (desired.map fun tool => (tool.name, tool))
  let kept := offered.filter fun tool =>
    (wanted.get tool.name).any fun next => declarationsEqual tool next
  let keptNames := kept.map Tool.name
  let added := desired.filter fun tool => tool.name ∉ keptNames
  let replayed := kept ++ added
  if differs (replayed.map Tool.name) (desired.map Tool.name) then
    ⟨offered.map Tool.name, desired.map toToolDeclaration⟩
  else
    ⟨(offered.filter fun tool => tool.name ∉ keptNames).map Tool.name, added.map toToolDeclaration⟩

/-- The patch that sets what differs and removes what is not wanted. -/
def minimalPatch (shown desired : OrderedMap String String) : List (String × Option String) :=
  let changed :=
    shown.entries.foldl
      (fun patch entry =>
        if desired.get entry.1 ≠ some entry.2 then
          assign patch entry.1 (desired.get entry.1)
        else patch)
      []
  desired.entries.foldl
    (fun patch entry =>
      if shown.has entry.1 then patch else assign patch entry.1 (some entry.2))
    changed

def patchedOrder (shown desired : OrderedMap String String) : List String :=
  shown.keys.filter desired.has ++ desired.keys.filter fun key => !shown.has key

def planSections (shown desired : OrderedMap String String) :
    List (List (String × Option String)) :=
  if differs (patchedOrder shown desired) desired.keys then
    [fromEntries (shown.entries.map fun entry => (entry.1, none)),
      fromEntries (desired.entries.map fun entry => (entry.1, some entry.2))]
  else
    let patch := minimalPatch shown desired
    if patch.isEmpty then [] else [propertyOrder patch]

def systemEntry (sections : Option (List (String × Option String)))
    (tools : Option ToolChanges) (timestamp : ℕ) : EntryDraft (Body α) :=
  let message : SystemMessage :=
    { content := ""
      sections := sections
      toolsRemoved := (tools.map ToolChanges.toolsRemoved).filter fun removed => !removed.isEmpty
      toolsAdded := (tools.map ToolChanges.toolsAdded).filter fun added => !added.isEmpty
      timestamp := timestamp }
  { kind := "pi.system", model := some [.system (.system message)] }

/-- Whether a head marker has no later `pi.system` entry in its context. -/
def needsBaseline (view : ContextView (Body α)) : Bool :=
  match view.head with
  | none => false
  | some head => !view.entries.any fun entry => isSystemEntry entry && decide (head.id < entry.id)

def planSystemEntries (view : ContextView (Body α))
    (desired : OrderedMap String String) (tools : List Tool) (timestamp : ℕ) :
    List (EntryDraft (Body α)) :=
  if needsBaseline view then
    let edits : List (ContextEdit (Body α)) :=
      (view.entries.filter isSystemEntry).map fun entry => ⟨entry.id, .omit⟩
    let baseline : EntryDraft (Body α) :=
      systemEntry
        (some (fromEntries (desired.entries.map fun entry => (entry.1, some entry.2))))
        (some ⟨[], tools.map toToolDeclaration⟩) timestamp
    [if edits.isEmpty then baseline else { baseline with edits := some edits }]
  else
    let sections := planSections (replaySections view.messages) desired
    let changes := planTools (getCurrentTools view.messages) tools
    if changes.toolsRemoved.isEmpty && changes.toolsAdded.isEmpty then
      sections.map fun patch => systemEntry (some patch) none timestamp
    else if sections.isEmpty then [systemEntry none (some changes) timestamp]
    else
      sections.mapIdx fun index patch =>
        systemEntry (some patch) (if index = sections.length - 1 then some changes else none)
          timestamp

/-! ## Property order -/

theorem arrayIndex_eq_some {key : String} {index : ℕ} (isIndex : arrayIndex key = some index) :
    toString index = key := by
  unfold arrayIndex at isIndex
  dsimp only at isIndex
  split at isIndex
  · rename_i canonical
    cases isIndex
    exact canonical.2
  · cases isIndex

variable {β : Type} (entries : List (String × β))

theorem propertyOrder_perm :
    (propertyOrder entries).Perm entries := by
  have sorted :
      (propertyOrder entries).Perm
        ((entries.filter fun entry => (arrayIndex entry.1).isSome) ++
          entries.filter fun entry => (arrayIndex entry.1).isNone) :=
    (List.perm_insertionSort _ _).append_right _
  have split := List.filter_append_perm
    (fun entry : String × β => (arrayIndex entry.1).isSome) entries
  simp only [Option.not_isSome] at split
  exact sorted.trans split

theorem propertyOrder_filter {entries : List (String × β)} (distinct : (Entries.keys entries).Nodup)
    (test : String × β → Bool) :
    (propertyOrder entries).filter test = propertyOrder (entries.filter test) := by
  let before : String × β → String × β → Prop := fun first second =>
    (arrayIndex first.1).getD 0 ≤ (arrayIndex second.1).getD 0
  have total : Std.Total before := ⟨fun first second => Nat.le_total _ _⟩
  have trans : IsTrans (String × β) before :=
    ⟨fun _ _ _ firstLe secondLe => Nat.le_trans firstLe secondLe⟩
  have sameIndices :
      ((entries.filter fun entry => (arrayIndex entry.1).isSome).insertionSort before).filter test =
        ((entries.filter test).filter fun entry =>
          (arrayIndex entry.1).isSome).insertionSort before := by
    apply @List.Perm.eq_of_pairwise _ before
    · intro first second isFirst isSecond firstLe secondLe
      have inFirst := (List.mem_insertionSort before).mp (mem_of_mem_filter isFirst)
      have inSecond := (List.mem_insertionSort before).mp isSecond
      obtain ⟨firstEntry, firstIndex⟩ := List.mem_filter.mp inFirst
      obtain ⟨secondPasses, secondIndex⟩ := List.mem_filter.mp inSecond
      obtain ⟨index, isIndex⟩ := Option.isSome_iff_exists.mp firstIndex
      obtain ⟨other, isOther⟩ := Option.isSome_iff_exists.mp secondIndex
      have same : index = other := by
        have le : index ≤ other := by simpa [before, isIndex, isOther] using firstLe
        have ge : other ≤ index := by simpa [before, isIndex, isOther] using secondLe
        exact Nat.le_antisymm le ge
      have sameKey : first.1 = second.1 := by
        rw [← arrayIndex_eq_some isIndex, ← arrayIndex_eq_some isOther, same]
      exact List.inj_on_of_nodup_map distinct firstEntry
        (mem_of_mem_filter secondPasses) sameKey
    · exact (List.pairwise_insertionSort before _).filter _
    · exact List.pairwise_insertionSort before _
    · have swapped :
          (entries.filter fun entry => (arrayIndex entry.1).isSome).filter test =
            (entries.filter test).filter fun entry =>
              (arrayIndex entry.1).isSome := by
        rw [filter_filter, filter_filter]
        apply filter_congr
        intro entry _
        exact Bool.and_comm _ _
      have sorted :=
        (List.perm_insertionSort before
          (entries.filter fun entry => (arrayIndex entry.1).isSome)).filter test
      rw [swapped] at sorted
      exact sorted.trans (List.perm_insertionSort before _).symm
  have sameNames :
      (entries.filter fun entry => (arrayIndex entry.1).isNone).filter test =
        (entries.filter test).filter fun entry =>
          (arrayIndex entry.1).isNone := by
    rw [filter_filter, filter_filter]
    apply filter_congr
    intro entry _
    exact Bool.and_comm _ _
  rw [propertyOrder, List.filter_append, propertyOrder]
  exact congrArg₂ _ sameIndices sameNames

def orderedKeys (keys : List String) : List String :=
  Entries.keys (propertyOrder (keys.map fun key => (key, ())))

theorem keys_propertyOrder :
    Entries.keys (propertyOrder entries) = orderedKeys (Entries.keys entries) := by
  have forget :
      (propertyOrder entries).map (fun entry => (entry.1, ())) =
        propertyOrder (entries.map fun entry => (entry.1, ())) := by
    rw [propertyOrder, propertyOrder, map_append, filter_map, filter_map]
    congr 1
    apply List.map_insertionSort
    intro _ _ _ _
    exact Iff.rfl
  have isKeys :
      (Entries.keys entries).map (fun key => (key, ())) = entries.map fun entry => (entry.1, ()) :=
    map_map
  rw [orderedKeys, isKeys, ← forget, Entries.keys, Entries.keys, map_map]
  rfl

theorem orderedKeys_filter {keys : List String} (distinct : keys.Nodup) (test : String → Bool) :
    (orderedKeys keys).filter test = orderedKeys (keys.filter test) := by
  have isKeys : Entries.keys (keys.map fun key => (key, ())) = keys := by
    rw [Entries.keys, map_map]
    exact List.map_id keys
  have distinctEntries : (Entries.keys (keys.map fun key => (key, ()))).Nodup :=
    isKeys.symm ▸ distinct
  have isFilter :
      (keys.filter test).map (fun key => (key, ())) =
        (keys.map fun key => (key, ())).filter fun entry => test entry.1 := by
    rw [filter_map]
    rfl
  rw [orderedKeys, orderedKeys, isFilter,
    ← propertyOrder_filter distinctEntries fun entry => test entry.1,
    Entries.keys, filter_map]
  rfl

/-! ## Sections after a plan -/

theorem differs_eq_false [DecidableEq β] (first second : List β) :
    differs first second = false ↔ first <+: second := by
  rw [differs, List.any_eq_false, List.prefix_iff_getElem?]
  constructor
  · intro same index inside
    have isItem : (first[index], index) ∈ first.zipIdx := by
      rw [List.mk_mem_zipIdx_iff_getElem?]
      exact List.getElem?_eq_getElem inside
    have equal := same _ isItem
    rwa [decide_eq_true_eq, not_not] at equal
  · rintro isPrefix ⟨item, index⟩ member
    rw [List.mk_mem_zipIdx_iff_getElem?] at member
    obtain ⟨inside, isItem⟩ := List.getElem?_eq_some_iff.mp member
    rw [decide_eq_true_eq, not_not, ← isItem]
    exact isPrefix index inside

/-- The start of a list without repetition that holds all its items is all of
it. -/
theorem eq_of_prefix {first second : List β} (distinct : second.Nodup)
    (isPrefix : first <+: second) (all : ∀ item ∈ second, item ∈ first) : first = second := by
  obtain ⟨rest, rfl⟩ := isPrefix
  cases rest with
  | nil => exact (append_nil first).symm
  | cons item others =>
    have isFirst : item ∈ first := all item (List.mem_append_right _ mem_cons_self)
    have apart := (List.nodup_append.mp distinct).2.2
    exact absurd rfl (apart item isFirst item mem_cons_self)

theorem foldl_assign {object updates : List (String × β)}
    (distinct : (Entries.keys (object ++ updates)).Nodup) :
    updates.foldl (fun object update => assign object update.1 update.2) object =
      object ++ updates.filter fun update => update.1 ≠ "__proto__" := by
  induction updates generalizing object with
  | nil => simp
  | cons update rest ih =>
    rw [foldl_cons, List.filter_cons]
    by_cases isProto : update.1 = "__proto__"
    · have skipped : assign object update.1 update.2 = object := by
        rw [assign, if_pos isProto]
      have isSublist : (object ++ rest).Sublist (object ++ update :: rest) :=
        (List.sublist_cons_self update rest).append_left object
      have distinctRest : (Entries.keys (object ++ rest)).Nodup :=
        List.Nodup.sublist (isSublist.map Prod.fst) distinct
      rw [skipped, ih distinctRest, if_neg (by simpa)]
    · have isNew : Entries.get object update.1 = none := by
        rw [Entries.get_eq_none_iff]
        intro member
        rw [Entries.keys, map_append] at distinct
        exact (List.nodup_append.mp distinct).2.2 _ member _ mem_cons_self rfl
      have added : assign object update.1 update.2 = object ++ [update] := by
        rw [assign, if_neg isProto, Entries.set, isNew]
      have same : object ++ [update] ++ rest = object ++ update :: rest := by simp
      rw [added, ih (same ▸ distinct), if_pos (by simpa)]
      simp

theorem minimalPatch_eq (shown desired : OrderedMap String String) :
    minimalPatch shown desired =
      (shown.differences desired).filter fun update =>
        update.1 ≠ "__proto__" := by
  have changed :
      shown.entries.foldl
          (fun patch entry =>
            if desired.get entry.1 ≠ some entry.2 then
              assign patch entry.1 (desired.get entry.1)
            else patch)
          [] =
        ((shown.entries.filter fun entry =>
              desired.get entry.1 ≠ some entry.2).map
            fun entry => (entry.1, desired.get entry.1)).foldl
          (fun object update => assign object update.1 update.2) [] := by
    rw [foldl_map, List.foldl_filter]
    simp only [decide_eq_true_eq]
  have added (object : List (String × Option String)) :
      desired.entries.foldl
          (fun patch entry =>
            if shown.has entry.1 then patch
            else assign patch entry.1 (some entry.2))
          object =
        ((desired.entries.filter fun entry => !shown.has entry.1).map
            fun entry => (entry.1, some entry.2)).foldl
          (fun object update => assign object update.1 update.2) object := by
    rw [foldl_map, List.foldl_filter]
    congr 1
    funext patch entry
    cases shown.has entry.1 with
    | false | true => rfl
  rw [minimalPatch, changed, added, ← List.foldl_append]
  exact foldl_assign (shown.nodup_keys_differences desired)

/-! ## When the sections settle -/

/-- Whether keys follow those already shown as an object with the others lists
them. -/
def Follows (shown wanted : List String) : Prop :=
  shown ++ orderedKeys (wanted.filter fun key => key ∉ shown) = wanted

instance (shown wanted : List String) : Decidable (Follows shown wanted) :=
  inferInstanceAs (Decidable (_ = _))

theorem fromEntries_perm : (fromEntries entries).Perm entries :=
  propertyOrder_perm entries

theorem patch_whole_iff (map desired : OrderedMap String String) :
    map.patch
          (fromEntries (desired.entries.map fun entry => (entry.1, some entry.2))) =
        desired ↔
      Follows map.keys desired.keys := by
  have isKeys :
      Entries.keys
          (fromEntries (desired.entries.map fun entry => (entry.1, some entry.2))) =
        orderedKeys desired.keys := by
    rw [fromEntries, keys_propertyOrder, Entries.keys, map_map]
    rfl
  have distinct : desired.keys.Nodup := desired.distinct
  rw [OrderedMap.patch_set_all_iff (fromEntries_perm _), isKeys,
    orderedKeys_filter distinct, Follows]

/-- The condition for a plan of section patches to give the wanted sections. -/
def SectionsSettle (shown desired : OrderedMap String String) : Prop :=
  if differs (patchedOrder shown desired) desired.keys then
    Follows [] desired.keys
  else
    Follows (shown.keys.filter desired.has) desired.keys ∧
      shown.get "__proto__" = desired.get "__proto__"

instance (shown desired : OrderedMap String String) :
    Decidable (SectionsSettle shown desired) :=
  inferInstanceAs
    (Decidable
      (if differs (patchedOrder shown desired) desired.keys then
        Follows [] desired.keys
      else
        Follows (shown.keys.filter desired.has) desired.keys ∧
          shown.get "__proto__" = desired.get "__proto__"))

theorem planSections_iff (shown desired : OrderedMap String String) :
    (planSections shown desired).foldl OrderedMap.patch shown = desired ↔
      SectionsSettle shown desired := by
  rw [planSections, SectionsSettle]
  split
  · have cleared :
        shown.patch
            (fromEntries (shown.entries.map fun entry => (entry.1, none))) =
          .empty :=
      OrderedMap.patch_remove_all shown (fromEntries_perm _)
    have whole := patch_whole_iff .empty desired
    rw [foldl_cons, foldl_cons, List.foldl_nil, cleared, whole, OrderedMap.keys_empty]
  · rename_i kept
    have isPatch :
        (if (minimalPatch shown desired).isEmpty then []
              else [propertyOrder (minimalPatch shown desired)]).foldl
            OrderedMap.patch shown =
          shown.patch (propertyOrder (minimalPatch shown desired)) := by
      split
      · rename_i isEmpty
        rw [List.isEmpty_iff.mp isEmpty]
        rfl
      · rfl
    dsimp only
    rw [isPatch, minimalPatch_eq]
    by_cases sameProto : shown.get "__proto__" = desired.get "__proto__"
    · have all :
          (shown.differences desired).filter (fun update => update.1 ≠ "__proto__") =
            shown.differences desired := by
        rw [filter_eq_self]
        intro update member
        rw [decide_eq_true_eq]
        intro isProto
        have differs := ((OrderedMap.mem_differences shown desired update.1 update.2).mp member).1
        rw [isProto] at differs
        exact differs sameProto
      have distinct := shown.nodup_keys_differences desired
      have sameAdded :
          (desired.keys.filter fun key => key ∉ shown.keys) =
            desired.keys.filter fun key =>
              key ∉ shown.keys.filter desired.has := by
        apply filter_congr
        intro key member
        have wanted := (desired.has_iff key).mpr member
        simp [mem_filter, wanted]
      rw [all, OrderedMap.patch_differences_iff (propertyOrder_perm _),
        keys_propertyOrder, orderedKeys_filter distinct,
        OrderedMap.keys_differences_added, sameAdded, Follows,
        and_iff_left sameProto]
    · rw [iff_false_right (fun both => sameProto both.2)]
      intro same
      apply sameProto
      have distinct :
          (Entries.keys
            (propertyOrder
              ((shown.differences desired).filter fun update =>
                update.1 ≠ "__proto__"))).Nodup := by
        have isPerm :=
          (propertyOrder_perm
            ((shown.differences desired).filter fun update => update.1 ≠ "__proto__")).map Prod.fst
        apply isPerm.nodup_iff.mpr
        exact List.Nodup.sublist (List.filter_sublist.map Prod.fst)
          (shown.nodup_keys_differences desired)
      have untouched :
          Entries.get
              (propertyOrder
                ((shown.differences desired).filter fun update => update.1 ≠ "__proto__"))
              "__proto__" =
            none := by
        rw [Entries.get_eq_none_iff, Entries.keys,
          ((propertyOrder_perm _).map Prod.fst).mem_iff, mem_map]
        rintro ⟨update, member, isProto⟩
        have isOther := (List.mem_filter.mp member).2
        rw [decide_eq_true_eq] at isOther
        exact isOther isProto
      have read := OrderedMap.get_patch distinct shown "__proto__"
      rw [same, untouched] at read
      exact read.symm

/-! ## Declarations -/

namespace Schema

theorem isUndefined_roundTrip (value : Schema) : value.roundTrip.isUndefined = false := by
  cases value with
  | undefined | null | bool value | str text | arr items | obj fields => rw [roundTrip]; rfl
  | num value =>
    cases value with
    | none | some value => rw [roundTrip]; rfl

mutual

theorem stringify_roundTrip (value : Schema) : value.roundTrip.stringify = value.stringify := by
  match value with
  | .undefined => simp only [roundTrip, stringify]
  | .null | .bool value => simp only [roundTrip]
  | .num none => simp only [roundTrip, stringify]
  | .num (some value) | .str text => simp only [roundTrip]
  | .arr items => simp only [roundTrip, stringify, stringifyItems_roundTrip items]
  | .obj fields => simp only [roundTrip, stringify, stringifyFields_roundTrip fields]

theorem stringifyItems_roundTrip (items : List Schema) :
    stringifyItems (roundTripItems items) = stringifyItems items := by
  match items with
  | [] => simp only [roundTripItems]
  | item :: rest =>
    simp only [roundTripItems, stringifyItems, stringify_roundTrip item,
      stringifyItems_roundTrip rest]

theorem stringifyFields_roundTrip (fields : List (PropertyKey × Schema)) :
    stringifyFields (roundTripFields fields) = stringifyFields fields := by
  match fields with
  | [] => simp only [roundTripFields]
  | (.symbol _, _) :: rest =>
    simp only [roundTripFields, stringifyFields, stringifyFields_roundTrip rest]
  | (.name name, value) :: rest =>
    cases isUndefined : value.isUndefined with
    | true =>
      simp only [roundTripFields, stringifyFields, isUndefined, if_true,
        stringifyFields_roundTrip rest]
    | false =>
      simp only [roundTripFields, stringifyFields, isUndefined,
        Bool.false_eq_true, if_false, isUndefined_roundTrip value,
        stringify_roundTrip value, stringifyFields_roundTrip rest]

end

end Schema

theorem declaration_toToolDeclaration (tool : Tool) :
    (toToolDeclaration tool).declaration = tool.declaration := by
  simp only [Tool.declaration, toToolDeclaration, Tool.object, Schema.stringify,
    List.cons_append, List.nil_append, Schema.stringifyFields,
    Schema.isUndefined, Schema.stringifyFields_roundTrip]

theorem name_of_declaration {first second : Tool} (same : first.declaration = second.declaration) :
    first.name = second.name := by
  have place (tool : Tool) : tool.declaration[2]? = some (.str tool.name) := by
    simp [Tool.declaration, toToolDeclaration, Tool.object, Schema.stringify,
      Schema.stringifyFields, Schema.isUndefined]
  have equal : first.declaration[2]? = second.declaration[2]? := by rw [same]
  rw [place, place] at equal
  exact Token.str.inj (Option.some.inj equal)

theorem names_of_declarations {first second : List Tool}
    (same : first.map Tool.declaration = second.map Tool.declaration) :
    first.map Tool.name = second.map Tool.name := by
  induction first generalizing second with
  | nil =>
    rw [map_nil, eq_comm, List.map_eq_nil_iff] at same
    rw [same]
  | cons tool rest ih =>
    cases second with
    | nil => cases same
    | cons other others =>
      rw [map_cons, map_cons, List.cons.injEq] at same
      rw [map_cons, map_cons, name_of_declaration same.1, ih same.2]

variable {desired : List Tool}

/-- Tools named alike in one order, each declared as a wanted one, are declared
as the wanted ones. -/
theorem declarations_eq {replayed : List Tool} (distinct : (desired.map Tool.name).Nodup)
    (sameNames : replayed.map Tool.name = desired.map Tool.name)
    (declared :
      ∀ tool ∈ replayed, ∃ next ∈ desired,
        next.name = tool.name ∧ tool.declaration = next.declaration) :
    replayed.map Tool.declaration = desired.map Tool.declaration := by
  induction replayed generalizing desired with
  | nil =>
    rw [map_nil, eq_comm, List.map_eq_nil_iff] at sameNames
    rw [sameNames]
  | cons tool rest ih =>
    cases desired with
    | nil => cases sameNames
    | cons first others =>
      rw [map_cons, map_cons, List.cons.injEq] at sameNames
      obtain ⟨isNew, distinctOthers⟩ := List.nodup_cons.mp distinct
      have isFirst : tool.declaration = first.declaration := by
        obtain ⟨next, member, sameName, same⟩ := declared tool mem_cons_self
        rcases List.mem_cons.mp member with rfl | later
        · exact same
        · have inOthers : next.name ∈ others.map Tool.name :=
            mem_map_of_mem later
          rw [sameName, sameNames.1] at inOthers
          exact absurd inOthers isNew
      rw [map_cons, map_cons, isFirst]
      congr 1
      apply ih distinctOthers sameNames.2
      intro later member
      obtain ⟨next, isNext, sameName, same⟩ := declared later (List.mem_cons_of_mem _ member)
      rcases List.mem_cons.mp isNext with rfl | isOther
      · have inRest : later.name ∈ rest.map Tool.name :=
          mem_map_of_mem member
        rw [sameNames.2, ← sameName] at inRest
        exact absurd inRest isNew
      · exact ⟨next, isOther, sameName, same⟩

/-! ## Tools after a plan -/

def Named (tools : OrderedMap String Tool) : Prop :=
  ∀ entry ∈ tools.entries, entry.2.name = entry.1

variable {tools : OrderedMap String Tool}

theorem Named.keys (named : Named tools) : tools.keys = tools.values.map Tool.name := by
  rw [OrderedMap.keys, Entries.keys, OrderedMap.values, map_map]
  apply List.map_congr_left
  intro entry member
  exact (named entry member).symm

theorem offer_eq (tools : OrderedMap String Tool) (message : SystemMessage) :
    message.offer tools =
      (tools.patch ((message.toolsRemoved.getD []).map fun name => (name, none))).patch
        ((message.toolsAdded.getD []).map fun tool =>
          (tool.name, some tool)) := by
  rw [SystemMessage.offer, OrderedMap.patch, OrderedMap.patch, foldl_map, foldl_map]
  rfl

theorem Named.patch (named : Named tools) {updates : List (String × Option Tool)}
    (isNamed : ∀ update ∈ updates, ∀ tool ∈ update.2, tool.name = update.1) :
    Named (tools.patch updates) := by
  induction updates generalizing tools with
  | nil => exact named
  | cons update rest ih =>
    have changed : Named (tools.change update) := by
      rw [OrderedMap.change]
      split
      · intro entry member
        exact named entry (mem_of_mem_filter member)
      · rename_i tool isTool
        intro entry member
        rcases Entries.mem_set member with rfl | old
        · exact isNamed update mem_cons_self tool isTool
        · exact named entry old
    exact ih changed fun later member => isNamed later (List.mem_cons_of_mem _ member)

theorem Named.offer (named : Named tools) (message : SystemMessage) :
    Named (message.offer tools) := by
  rw [offer_eq]
  apply (named.patch _).patch
  · intro update member tool isTool
    obtain ⟨added, _, rfl⟩ := List.mem_map.mp member
    cases isTool
    rfl
  · intro update member tool isTool
    obtain ⟨removed, _, rfl⟩ := List.mem_map.mp member
    cases isTool

theorem named_replayed (messages : List SystemMessage) :
    Named (messages.foldl SystemMessage.offer .empty) := by
  refine List.foldlRecOn _ _ ?_ fun tools named message _ => named.offer message
  intro entry member
  cases member

theorem wanted_iff (distinct : (desired.map Tool.name).Nodup) (name : String) (tool : Tool) :
    (OrderedMap.ofList (desired.map fun tool => (tool.name, tool))).get name = some tool ↔
      tool ∈ desired ∧ tool.name = name := by
  have distinctKeys : (Entries.keys (desired.map fun tool => (tool.name, tool))).Nodup := by
    rw [Entries.keys, map_map]
    exact distinct
  rw [OrderedMap.get_eq_some_iff, OrderedMap.entries_ofList distinctKeys, mem_map]
  constructor
  · rintro ⟨other, member, same⟩
    cases same
    exact ⟨member, rfl⟩
  · rintro ⟨member, rfl⟩
    exact ⟨tool, member, rfl⟩

def isWanted (desired : List Tool) (tool : Tool) : Bool :=
  ((OrderedMap.ofList (desired.map fun tool => (tool.name, tool))).get
      tool.name).any fun next => declarationsEqual tool next

/-- The tools that a plan keeps: those declared as a wanted one. -/
def keptTools (offered desired : List Tool) : List Tool :=
  offered.filter (isWanted desired)

variable {offered : List Tool}

theorem mem_keptTools (distinct : (desired.map Tool.name).Nodup) (tool : Tool) :
    tool ∈ keptTools offered desired ↔
      tool ∈ offered ∧
        ∃ next ∈ desired,
          next.name = tool.name ∧ tool.declaration = next.declaration := by
  rw [keptTools, mem_filter, isWanted, Option.any_eq_true]
  apply and_congr_right
  intro _
  constructor
  · rintro ⟨next, found, equal⟩
    obtain ⟨member, sameName⟩ := (wanted_iff distinct _ _).mp found
    exact ⟨next, member, sameName, of_decide_eq_true equal⟩
  · rintro ⟨next, member, sameName, equal⟩
    exact ⟨next, (wanted_iff distinct _ _).mpr ⟨member, sameName⟩,
      decide_eq_true equal⟩

theorem replayedNames_eq (distinct : (desired.map Tool.name).Nodup)
    (inOrder :
      differs
          ((keptTools offered desired ++
              desired.filter fun tool => tool.name ∉ (keptTools offered desired).map Tool.name).map
            Tool.name)
          (desired.map Tool.name) =
        false) :
    (keptTools offered desired ++
          desired.filter fun tool => tool.name ∉ (keptTools offered desired).map Tool.name).map
        Tool.name =
      desired.map Tool.name := by
  apply eq_of_prefix distinct ((differs_eq_false _ _).mp inOrder)
  intro name member
  obtain ⟨tool, isTool, rfl⟩ := List.mem_map.mp member
  rw [map_append, List.mem_append]
  by_cases isKept : tool.name ∈ (keptTools offered desired).map Tool.name
  · exact Or.inl isKept
  · apply Or.inr
    apply mem_map_of_mem
    rw [mem_filter, decide_eq_true_eq]
    exact ⟨isTool, isKept⟩

def ToolChanges.apply (changes : ToolChanges)
    (tools : OrderedMap String Tool) : OrderedMap String Tool :=
  (tools.patch (changes.toolsRemoved.map fun name => (name, none))).patch
    (changes.toolsAdded.map fun tool => (tool.name, some tool))

theorem values_added {added : List Tool} (distinct : (added.map Tool.name).Nodup)
    (isNew : ∀ tool ∈ added, tool.name ∉ tools.keys) :
    (tools.patch
        ((added.map toToolDeclaration).map fun tool =>
          (tool.name, some tool))).values =
      tools.values ++ added.map toToolDeclaration := by
  have isAdded :
      ((added.map toToolDeclaration).map fun tool => (tool.name, some tool)) =
        (added.map fun tool => (tool.name, toToolDeclaration tool)).map
          fun entry => (entry.1, some entry.2) := by
    rw [map_map, map_map]
    rfl
  have isKeys :
      Entries.keys (added.map fun tool => (tool.name, toToolDeclaration tool)) =
        added.map Tool.name := by
    rw [Entries.keys, map_map]
    rfl
  rw [isAdded, OrderedMap.values, OrderedMap.entries_add (isKeys ▸ distinct)]
  · rw [map_append, map_map]
    rfl
  · intro key member
    rw [isKeys] at member
    obtain ⟨tool, isTool, rfl⟩ := List.mem_map.mp member
    exact isNew tool isTool

theorem declarations_toToolDeclaration (tools : List Tool) :
    (tools.map toToolDeclaration).map Tool.declaration = tools.map Tool.declaration := by
  rw [map_map]
  apply List.map_congr_left
  intro tool _
  exact declaration_toToolDeclaration tool

theorem values_kept (named : Named tools) (desired : List Tool) :
    (tools.patch
          (((tools.values.filter fun tool =>
                tool.name ∉ (keptTools tools.values desired).map Tool.name).map
              Tool.name).map fun name => (name, none))).values =
      keptTools tools.values desired := by
  have distinctNames : (tools.values.map Tool.name).Nodup := by
    rw [← named.keys]
    exact tools.distinct
  have isKept : ∀ tool ∈ tools.values,
      (tool.name ∈ (keptTools tools.values desired).map Tool.name ↔
        isWanted desired tool = true) := by
    intro tool member
    constructor
    · intro isName
      obtain ⟨other, isOther, sameName⟩ := List.mem_map.mp isName
      obtain ⟨inOffered, wanted⟩ := List.mem_filter.mp isOther
      have same : other = tool := List.inj_on_of_nodup_map distinctNames inOffered member sameName
      exact same ▸ wanted
    · intro wanted
      exact mem_map_of_mem (List.mem_filter.mpr ⟨member, wanted⟩)
  have isEntry :
      (tools.entries.filter fun entry =>
          entry.1 ∉
            (tools.values.filter fun tool =>
              tool.name ∉ (keptTools tools.values desired).map Tool.name).map
              Tool.name) =
        tools.entries.filter (isWanted desired ∘ Prod.snd) := by
    apply filter_congr
    intro entry member
    have inValues : entry.2 ∈ tools.values := mem_map_of_mem member
    have sameName := named entry member
    have own := isKept entry.2 inValues
    rw [sameName] at own
    rw [Bool.eq_iff_iff, decide_eq_true_eq, Function.comp_apply, ← own]
    constructor
    · intro notRemoved
      by_contra notKept
      apply notRemoved
      refine List.mem_map.mpr ⟨entry.2, ?_, sameName⟩
      rw [mem_filter, decide_eq_true_eq, sameName]
      exact ⟨inValues, notKept⟩
    · intro inKept isRemoved
      obtain ⟨other, isOther, otherName⟩ := List.mem_map.mp isRemoved
      have notKept := (List.mem_filter.mp isOther).2
      rw [decide_eq_true_eq, otherName] at notKept
      exact notKept inKept
  rw [OrderedMap.values, OrderedMap.entries_remove, isEntry, keptTools,
    OrderedMap.values, filter_map]

theorem planTools_eq (offered desired : List Tool) :
    planTools offered desired =
      if differs
          ((keptTools offered desired ++
              desired.filter fun tool =>
                tool.name ∉ (keptTools offered desired).map Tool.name).map
            Tool.name)
          (desired.map Tool.name) then
        ⟨offered.map Tool.name, desired.map toToolDeclaration⟩
      else
        ⟨(offered.filter fun tool =>
              tool.name ∉ (keptTools offered desired).map Tool.name).map
            Tool.name,
          (desired.filter fun tool =>
              tool.name ∉ (keptTools offered desired).map Tool.name).map
            toToolDeclaration⟩ :=
  rfl

theorem planTools_spec (named : Named tools) (distinct : (desired.map Tool.name).Nodup) :
    ((planTools tools.values desired).apply tools).values.map Tool.declaration =
      desired.map Tool.declaration := by
  rw [planTools_eq]
  split
  · have cleared :
        tools.patch
            ((tools.values.map Tool.name).map fun name => (name, none)) =
          .empty := by
      apply OrderedMap.patch_remove_all
      rw [← named.keys, OrderedMap.keys, Entries.keys, map_map]
      exact List.Perm.refl _
    rw [ToolChanges.apply, cleared, values_added distinct, map_append,
      declarations_toToolDeclaration]
    · rfl
    · intro tool _ present
      rw [OrderedMap.keys_empty] at present
      cases present
  · rename_i inOrder
    rw [Bool.not_eq_true] at inOrder
    have isRest := values_kept named desired
    rw [ToolChanges.apply, values_added, isRest, map_append,
      declarations_toToolDeclaration, ← map_append]
    · apply declarations_eq distinct (replayedNames_eq distinct inOrder)
      intro tool member
      rcases List.mem_append.mp member with isKept | isAdded
      · exact ((mem_keptTools distinct tool).mp isKept).2
      · exact ⟨tool, mem_of_mem_filter isAdded, rfl, rfl⟩
    · exact List.Nodup.sublist (List.filter_sublist.map Tool.name) distinct
    · intro tool member present
      have isNew := (List.mem_filter.mp member).2
      rw [decide_eq_true_eq] at isNew
      have stillNamed : Named
          (tools.patch
            (((tools.values.filter fun tool =>
                  tool.name ∉ (keptTools tools.values desired).map Tool.name).map
                Tool.name).map fun name => (name, none))) := by
        apply named.patch
        intro update isUpdate removed isTool
        obtain ⟨name, _, rfl⟩ := List.mem_map.mp isUpdate
        cases isTool
      rw [stillNamed.keys, isRest] at present
      exact isNew present

theorem planTools_same (distinct : (desired.map Tool.name).Nodup)
    (same : offered.map Tool.declaration = desired.map Tool.declaration) :
    planTools offered desired = ⟨[], []⟩ := by
  have sameNames := names_of_declarations same
  have kept : keptTools offered desired = offered := by
    rw [keptTools, filter_eq_self]
    intro tool member
    have declared : tool.declaration ∈ desired.map Tool.declaration :=
      same ▸ mem_map_of_mem member
    obtain ⟨next, isNext, equal⟩ := List.mem_map.mp declared
    rw [isWanted, Option.any_eq_true]
    exact ⟨next, (wanted_iff distinct _ _).mpr ⟨isNext, name_of_declaration equal⟩,
      decide_eq_true equal.symm⟩
  have added :
      (desired.filter fun tool =>
          tool.name ∉ (keptTools offered desired).map Tool.name) = [] := by
    rw [kept, sameNames, filter_eq_nil_iff]
    intro tool member isNew
    rw [decide_eq_true_eq] at isNew
    exact isNew (mem_map_of_mem member)
  have removed :
      (offered.filter fun tool =>
          tool.name ∉ (keptTools offered desired).map Tool.name) = [] := by
    rw [kept, filter_eq_nil_iff]
    intro tool member isNew
    rw [decide_eq_true_eq] at isNew
    exact isNew (mem_map_of_mem member)
  have inOrder :
      differs ((keptTools offered desired ++ []).map Tool.name) (desired.map Tool.name) =
        false := by
    rw [differs_eq_false, kept, append_nil, sameNames]
  rw [planTools_eq, added, inOrder, removed]
  rfl

/-- All wanted tools, added over others, are the wanted tools exactly if the
names of the others begin theirs. -/
theorem all_added_iff (named : Named tools) (distinct : (desired.map Tool.name).Nodup) :
    ((⟨[], desired.map toToolDeclaration⟩ : ToolChanges).apply tools).values.map Tool.declaration =
        desired.map Tool.declaration ↔
      tools.keys <+: desired.map Tool.name := by
  let wanted :=
    OrderedMap.ofList
      (desired.map fun tool => (tool.name, toToolDeclaration tool))
  let updates : List (String × Option Tool) :=
    (desired.map toToolDeclaration).map fun tool => (tool.name, some tool)
  have applied :
      (⟨[], desired.map toToolDeclaration⟩ : ToolChanges).apply tools =
        tools.patch updates :=
    rfl
  have isKeys :
      Entries.keys
          (desired.map fun tool => (tool.name, toToolDeclaration tool)) =
        desired.map Tool.name := by
    rw [Entries.keys, map_map]
    rfl
  have isWantedEntries :
      wanted.entries = desired.map fun tool => (tool.name, toToolDeclaration tool) :=
    OrderedMap.entries_ofList (isKeys ▸ distinct)
  have wantedKeys : wanted.keys = desired.map Tool.name := by
    rw [OrderedMap.keys, isWantedEntries, isKeys]
  have isAll :
      updates.Perm
        (wanted.entries.map fun entry => (entry.1, some entry.2)) := by
    rw [isWantedEntries, map_map]
    exact List.Perm.of_eq map_map
  have updateKeys : Entries.keys updates = desired.map Tool.name := by
    rw [Entries.keys, map_map, map_map]
    rfl
  have stillNamed : Named (tools.patch updates) := by
    apply named.patch
    intro update member tool isTool
    obtain ⟨added, _, rfl⟩ := List.mem_map.mp member
    cases isTool
    rfl
  have patchedKeys :
      (tools.patch updates).keys =
        tools.keys ++ (desired.map Tool.name).filter fun key => key ∉ tools.keys := by
    rw [OrderedMap.keys_patch_set_all isAll, updateKeys]
  rw [applied]
  constructor
  · intro same
    have sameNames := names_of_declarations same
    rw [← stillNamed.keys, patchedKeys] at sameNames
    exact ⟨_, sameNames⟩
  · rintro ⟨rest, isRest⟩
    have apart : ∀ name ∈ rest, name ∉ tools.keys := by
      intro name member present
      rw [← isRest] at distinct
      exact (List.nodup_append.mp distinct).2.2 name present name member rfl
    have added :
        ((desired.map Tool.name).filter fun key => key ∉ tools.keys) =
          rest := by
      rw [← isRest, List.filter_append]
      have nothing : (tools.keys.filter fun key => key ∉ tools.keys) = [] := by
        rw [filter_eq_nil_iff]
        intro key member isNew
        rw [decide_eq_true_eq] at isNew
        exact isNew member
      have all : (rest.filter fun key => key ∉ tools.keys) = rest := by
        rw [filter_eq_self]
        intro name member
        exact decide_eq_true (apart name member)
      rw [nothing, all, List.nil_append]
    have isWhole : tools.patch updates = wanted := by
      rw [OrderedMap.patch_set_all_iff isAll, updateKeys, wantedKeys, added, isRest]
    rw [isWhole, OrderedMap.values, isWantedEntries, map_map, map_map]
    apply List.map_congr_left
    intro tool _
    exact declaration_toToolDeclaration tool

theorem planSections_same (desired : OrderedMap String String) :
    planSections desired desired = [] := by
  have all : desired.keys.filter desired.has = desired.keys := by
    rw [filter_eq_self]
    intro key member
    exact (desired.has_iff key).mpr member
  have nothing : (desired.keys.filter fun key => !desired.has key) = [] := by
    rw [filter_eq_nil_iff]
    intro key member
    rw [(desired.has_iff key).mpr member]
    exact Bool.false_ne_true
  have inOrder : differs (patchedOrder desired desired) desired.keys = false := by
    rw [differs_eq_false, patchedOrder, all, nothing, append_nil]
  have same : desired.differences desired = [] := by
    rw [List.eq_nil_iff_forall_not_mem]
    rintro ⟨key, changed⟩ member
    exact ((OrderedMap.mem_differences desired desired key changed).mp member).1
      rfl
  rw [planSections, inOrder, minimalPatch_eq, same]
  rfl

end PiEmbodied.Durable.Prompt
