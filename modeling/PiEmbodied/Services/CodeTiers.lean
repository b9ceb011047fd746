import PiEmbodied.Services.CodeApi

/-!
# What a program may call

The runner holds one entry for each tier and each primitive that the registry
lists in it, and offers a run the entries of its tier.  A call of an entry
resolves in the tier the entry was offered in.
-/

namespace PiEmbodied.Services.Registry

open List (mem_cons mem_map not_mem_nil)

variable {language : Language} {rpc : List String}

/-! ## The entries of the runner -/

/-- What a server hangs on the calls, and the text of an error raised. -/
structure Hooks where
  moveM : Option (RpcCall → Except String Floating)
  check : Option (RpcCall → Except String Unit)
  text : ApiError → String

/-- The runner's primitive; `fn` is the RPC method its function calls, unless
it raises before. -/
structure RunnerPrimitive extends PiEmbodied.Services.Primitive where
  fn : Arguments → Except ApiError RpcCall
  tiers : List Tier
  privileged : Bool

def bind (p : Primitive) (a : Arguments) : Except ApiError (List (String × Value)) :=
  let names := Entries.keys p.params
  let bound := names.zip a.args
  let dup := (Entries.keys a.kwargs).filter fun k => Entries.has bound k
  if names.length < a.args.length then
    .error (.tooManyArguments p.name names.length a.args.length)
  else if dup ≠ [] then .error (.multipleValues p.name dup)
  else
    .ok
      (a.kwargs.foldl (fun all entry => Entries.set all entry.1 entry.2) bound)

def CodeApi.callIn (api : CodeApi language rpc) (tier : Tier) (p : Primitive)
    (a : Arguments) : Except ApiError RpcCall :=
  match bind p a with
  | .error error => .error error
  | .ok kwargs => api.resolve p.name kwargs (some tier)

def Hooks.on {Result : Type*} (hooks : Hooks) (hook : RpcCall → Except String Result)
    (resolved : Except ApiError RpcCall) : Except String Result :=
  match resolved with
  | .error error => .error (hooks.text error)
  | .ok call => hook call

def registered (api : CodeApi language rpc) (hooks : Hooks) (tier : Tier)
    (p : Primitive) : RunnerPrimitive where
  name := p.name
  moveM := hooks.moveM.map fun moveM a => hooks.on moveM (api.callIn tier p a)
  check := hooks.check.map fun check a => hooks.on check (api.callIn tier p a)
  fn := api.callIn tier p
  tiers := [tier]
  privileged := tier = Level.privileged.tier

def entryTiers : List Tier :=
  [Level.high.tier, Level.low.tier, Level.raw.tier, Level.privileged.tier,
    ⟨.of .low, true⟩, ⟨.of .raw, true⟩]

def entriesOf (api : CodeApi language rpc) (hooks : Hooks) :
    List Tier → Except ApiError (List RunnerPrimitive)
  | [] => .ok []
  | tier :: rest =>
    match api.primitives (some tier), entriesOf api hooks rest with
    | .error error, _ | _, .error error => .error error
    | .ok listed, .ok later => .ok (listed.map (registered api hooks tier) ++ later)

def registryPrimitives (api : CodeApi language rpc) (hooks : Hooks) :
    Except ApiError (List RunnerPrimitive) :=
  entriesOf api hooks entryTiers

/-! ## What a run is offered -/

/-- `TIERS` of the runner. -/
def runTiers : List Tier :=
  [Level.high.tier, Level.low.tier, ⟨.noExamples, false⟩, Level.raw.tier,
    Level.privileged.tier, ⟨.of .low, true⟩, ⟨.noExamples, true⟩,
    ⟨.of .raw, true⟩]

def runTier (tier : Tier) (privileged : Bool) : Tier :=
  let base := baseTier tier
  if privileged ∧ base = Level.high.tier then Level.privileged.tier
  else if privileged ∧ (base = Level.low.tier ∨ base = Level.raw.tier) then
    ⟨base.name, true⟩
  else base

def Tier.withTruth (tier : Tier) : Bool :=
  tier = Level.privileged.tier || tier.plus

def RunnerPrimitive.inTier (base : Tier) (p : RunnerPrimitive) : Bool :=
  base ∈ p.tiers

/-- A primitive listed without a registry, which a tier with the ground truth
takes where it has no other of the name. -/
def RunnerPrimitive.fallsBack (base : Tier) (p : RunnerPrimitive) : Bool :=
  if base = Level.privileged.tier && Level.privileged.tier ∉ p.tiers &&
      (Level.high.tier ∈ p.tiers || p.privileged) then
    true
  else
    base.withTruth && ⟨base.name, false⟩ ∈ p.tiers && !p.tiers.any Tier.plus

/-- `setdefault` of a dict. -/
def setDefault (out : List (String × RunnerPrimitive)) (p : RunnerPrimitive) :
    List (String × RunnerPrimitive) :=
  if Entries.has out p.name then out else Entries.set out p.name p

def offer (base : Tier) (out : List (String × RunnerPrimitive))
    (p : RunnerPrimitive) : List (String × RunnerPrimitive) :=
  if p.inTier base then Entries.set out p.name p
  else if p.fallsBack base then setDefault out p
  else out

/-- `CodeRunner.primitives` -/
def runnerPrimitives (installed : List RunnerPrimitive) (tier : Tier) (privileged : Bool) :
    Except ApiError (List RunnerPrimitive) :=
  if tier ∉ runTiers then .error (.unknownTier tier)
  else
    let base := runTier tier privileged
    let out := installed.foldl (offer base) []
    .ok
      ((out.map Prod.snd).filter fun p =>
        base.withTruth || Level.privileged.tier ∈ p.tiers || !p.privileged)

def offering (settings : PiEmbodied.Services.Settings)
    (offered : List RunnerPrimitive) : PiEmbodied.Services.Settings :=
  { settings with allowed := offered.map RunnerPrimitive.toPrimitive }

/-- The entry of `by_name`. -/
def entryNamed (offered : List RunnerPrimitive) (name : String) :
    Option RunnerPrimitive :=
  (offered.filter fun p => p.name = name).getLast?

/-- The RPC method that an invoked primitive calls, unless it raises before. -/
def rpcOf (offered : List RunnerPrimitive) (call : Invoked) :
    Option RpcCall :=
  match entryNamed offered call.name with
  | none => none
  | some p =>
    match p.fn call.arguments with
    | .error _ => none
    | .ok rpcCall => some rpcCall

/-- The arguments passed the parameter check of the primitive: every one is of
a declared parameter and in its enum and range, and none is missing. -/
structure Accepts (language : Language) (p : Primitive) (kwargs : List (String × Value)) :
    Prop where
  declared : ∀ name, Entries.has kwargs name = true → Entries.has p.params name = true
  complete : ∀ name param, (name, param) ∈ p.params →
    param.required = true → Entries.has kwargs name = true
  checked : ∀ name value, (name, value) ∈ kwargs →
    ∃ param, Entries.get p.params name = some param ∧
      param.check language (p.name ++ "." ++ name) value = .ok ()

/-! ## Resolving -/

variable {p : Primitive}

theorem checkAll_ok {kwargs : List (String × Value)}
    (passed : checkAll language p kwargs = .ok ()) :
    ∀ name value, (name, value) ∈ kwargs →
      ∃ param, Entries.get p.params name = some param ∧
        param.check language (p.name ++ "." ++ name) value = .ok () := by
  induction kwargs with
  | nil =>
    intro name value member
    cases member
  | cons entry rest ih =>
    obtain ⟨own, ownValue⟩ := entry
    rw [checkAll] at passed
    split at passed
    · cases passed
    · rename_i param isParam
      split at passed
      · cases passed
      · rename_i here
        intro name value member
        rcases List.mem_cons.mp member with same | inRest
        · cases same
          exact ⟨param, isParam, here⟩
        · exact ih passed name value inRest

theorem resolveIn_ok {kwargs : List (String × Value)} {call : RpcCall}
    (resolved : resolveIn language p kwargs = .ok call) :
    call = ⟨p.method, kwargs⟩ ∧ Accepts language p kwargs := by
  unfold resolveIn at resolved
  dsimp only at resolved
  split_ifs at resolved with hasExtra hasMissing
  split at resolved
  · cases resolved
  · rename_i passed
    cases resolved
    refine ⟨rfl, ?_, ?_, checkAll_ok passed⟩
    · intro name has
      by_contra undeclared
      have isExtra : name ∈ (Entries.keys kwargs).filter fun k =>
          !Entries.has p.params k := by
        refine List.mem_filter.mpr ⟨(Entries.has_iff_mem_keys _ _).mp has, ?_⟩
        simpa using undeclared
      rw [not_not.mp hasExtra] at isExtra
      cases isExtra
    · intro name param member required
      by_contra absent
      have isMissing : name ∈ (p.params.filter fun param =>
          param.2.required && !Entries.has kwargs param.1).map Prod.fst := by
        refine List.mem_map.mpr ⟨(name, param), ?_, rfl⟩
        refine List.mem_filter.mpr ⟨member, ?_⟩
        simpa [required] using absent
      rw [not_not.mp hasMissing] at isMissing
      cases isMissing

theorem named_mem {listed : List Primitive} {name : String}
    (isNamed : named listed name = some p) : p ∈ listed ∧ p.name = name := by
  have member := List.mem_filter.mp (List.mem_of_getLast? isNamed)
  exact ⟨member.1, of_decide_eq_true member.2⟩

variable {tier : Tier} {level : Level} {truth : Bool}

theorem callIn_ok (api : CodeApi language rpc) (reach : tier.reach = some (level, truth))
    (isListed : Listed api level truth p) {a : Arguments} {call : RpcCall}
    (called : api.callIn tier p a = .ok call) :
    call.method = p.method ∧ Accepts language p call.kwargs := by
  obtain ⟨listed, isList, mem_listed⟩ := primitives_listed api reach
  unfold CodeApi.callIn at called
  split at called
  · cases called
  · rename_i kwargs _
    unfold CodeApi.resolve at called
    rw [isList] at called
    dsimp only at called
    split at called
    · cases called
    · rename_i other isNamed
      obtain ⟨otherMember, sameName⟩ := named_mem isNamed
      have same : other = p := ((mem_listed other).mp otherMember).unique isListed sameName
      rw [same] at called
      obtain ⟨isCall, accepts⟩ := resolveIn_ok called
      rw [isCall]
      exact ⟨rfl, accepts⟩

/-! ## The offer -/

/-- What the loop of the runner has after the entries `done`. -/
structure Offers (base : Tier) (done : List RunnerPrimitive)
    (out : List (String × RunnerPrimitive)) : Prop where
  unique : (Entries.keys out).Nodup
  fromDone : ∀ name p, Entries.get out name = some p →
    p ∈ done ∧ p.name = name ∧ (p.inTier base = true ∨ p.fallsBack base = true)
  kept : ∀ p ∈ done, p.inTier base = true →
    ∃ other, Entries.get out p.name = some other ∧ other.inTier base = true

variable {base : Tier} {done : List RunnerPrimitive}
  {out : List (String × RunnerPrimitive)}

section

variable (offers : Offers base done out)
include offers

theorem offers_set {p : RunnerPrimitive} (taken : p.inTier base = true ∨ p.fallsBack base = true)
    (first : p.inTier base = true ∨ Entries.get out p.name = none) :
    Offers base (done ++ [p]) (Entries.set out p.name p) where
  unique := Entries.nodup_keys_set offers.unique _ _
  fromDone := by
    intro name other found
    rw [Entries.get_set] at found
    split_ifs at found with same
    · cases found
      exact ⟨List.mem_append_right done (List.mem_singleton_self _), same.symm, taken⟩
    · obtain ⟨member, isName, isTaken⟩ := offers.fromDone name other found
      exact ⟨List.mem_append_left _ member, isName, isTaken⟩
  kept := by
    intro other member inTier
    rw [Entries.get_set]
    rcases List.mem_append.mp member with old | new
    · obtain ⟨holder, found, holderIn⟩ := offers.kept other old inTier
      split_ifs with same
      · rcases first with isIn | isNew
        · exact ⟨p, rfl, isIn⟩
        · rw [same, isNew] at found
          cases found
      · exact ⟨holder, found, holderIn⟩
    · rw [List.mem_singleton.mp new] at inTier ⊢
      exact ⟨p, if_pos rfl, inTier⟩

theorem offers_skip {p : RunnerPrimitive} (notIn : p.inTier base = false) :
    Offers base (done ++ [p]) out where
  unique := offers.unique
  fromDone := by
    intro name other found
    obtain ⟨member, rest⟩ := offers.fromDone name other found
    exact ⟨List.mem_append_left _ member, rest⟩
  kept := by
    intro other member inTier
    rcases List.mem_append.mp member with old | new
    · exact offers.kept other old inTier
    · rw [List.mem_singleton.mp new, notIn] at inTier
      cases inTier

theorem offers_step (p : RunnerPrimitive) :
    Offers base (done ++ [p]) (offer base out p) := by
  unfold offer
  split_ifs with inTier fallsBack
  · exact offers_set offers (.inl inTier) (.inl inTier)
  · unfold setDefault
    split_ifs with has
    · exact offers_skip offers (Bool.not_eq_true _ ▸ inTier)
    · refine offers_set offers (.inr fallsBack) (.inr ?_)
      exact Option.not_isSome_iff_eq_none.mp has
  · exact offers_skip offers (Bool.not_eq_true _ ▸ inTier)

theorem offers_foldl (more : List RunnerPrimitive) :
    Offers base (done ++ more) (more.foldl (offer base) out) := by
  induction more generalizing done out with
  | nil =>
    rw [List.append_nil]
    exact offers
  | cons p rest ih =>
    have next := ih (offers_step offers p)
    rwa [List.append_assoc] at next

end

theorem offers_nil (base : Tier) : Offers base [] [] where
  unique := List.nodup_nil
  fromDone := by
    intro name p found
    cases found
  kept := fun _ member => absurd member not_mem_nil

/-! ## The entries of a registry -/

theorem mem_entriesOf (api : CodeApi language rpc) (hooks : Hooks) {some_ : List Tier}
    (reached : ∀ tier ∈ some_, ∃ level truth, tier.reach = some (level, truth)) :
    ∃ entries, entriesOf api hooks some_ = .ok entries ∧
      ∀ entry, entry ∈ entries ↔ ∃ tier ∈ some_, ∃ level truth p,
        tier.reach = some (level, truth) ∧ Listed api level truth p ∧
          entry = registered api hooks tier p := by
  induction some_ with
  | nil => exact ⟨[], rfl, fun entry => by simp⟩
  | cons tier rest ih =>
    obtain ⟨later, isLater, mem_later⟩ := ih
      fun other member => reached other (List.mem_cons_of_mem _ member)
    obtain ⟨level, truth, reach⟩ := reached tier List.mem_cons_self
    obtain ⟨listed, isListed, mem_listed⟩ := primitives_listed api reach
    refine ⟨listed.map (registered api hooks tier) ++ later, ?_, ?_⟩
    · rw [entriesOf, isListed, isLater]
    · intro entry
      rw [List.mem_append, mem_map, mem_later]
      constructor
      · rintro (⟨p, member, rfl⟩ | ⟨other, member, rest⟩)
        · exact ⟨tier, List.mem_cons_self, level, truth, p, reach, (mem_listed p).mp member, rfl⟩
        · exact ⟨other, List.mem_cons_of_mem _ member, rest⟩
      · rintro ⟨other, member, ownLevel, ownTruth, p, ownReach, isIn, rfl⟩
        rcases List.mem_cons.mp member with rfl | inRest
        · cases reach.symm.trans ownReach
          exact .inl ⟨p, (mem_listed p).mpr isIn, rfl⟩
        · exact .inr ⟨other, inRest, ownLevel, ownTruth, p, ownReach, isIn, rfl⟩

theorem reach_of_mem (isTier : tier ∈ entryTiers) :
    ∃ level truth, tier.reach = some (level, truth) := by
  simp only [entryTiers, mem_cons, not_mem_nil, or_false] at isTier
  rcases isTier with rfl | rfl | rfl | rfl | rfl | rfl
  all_goals exact ⟨_, _, rfl⟩

theorem registryPrimitives_ok (api : CodeApi language rpc) (hooks : Hooks) :
    ∃ installed, registryPrimitives api hooks = .ok installed ∧
      ∀ entry, entry ∈ installed ↔ ∃ tier ∈ entryTiers, ∃ level truth p,
        tier.reach = some (level, truth) ∧ Listed api level truth p ∧
          entry = registered api hooks tier p := by
  exact mem_entriesOf api hooks fun _ => reach_of_mem

theorem runTier_mem (isTier : tier ∈ runTiers) (privileged : Bool) :
    runTier tier privileged ∈ entryTiers := by
  simp only [runTiers, mem_cons, not_mem_nil, or_false] at isTier
  rcases isTier with rfl | rfl | rfl | rfl | rfl | rfl | rfl | rfl
  all_goals cases privileged <;> decide

theorem name_of_fallsBack (api : CodeApi language rpc) (hooks : Hooks) {ownLevel : Level}
    {ownTruth : Bool} (isBase : base ∈ entryTiers) (isTier : tier ∈ entryTiers)
    (reach : base.reach = some (level, truth)) (ownReach : tier.reach = some (ownLevel, ownTruth))
    (isListed : Listed api ownLevel ownTruth p)
    (fallsBack : (registered api hooks tier p).fallsBack base = true) :
    ∃ other, Listed api level truth other ∧ other.name = p.name := by
  -- Only a plain tier falls back, to the same level with the ground truth.
  have shape : truth = true ∧ ownTruth = false ∧ ownLevel = level ∨ base = tier := by
    simp only [entryTiers, mem_cons, not_mem_nil, or_false] at isBase isTier
    rcases isBase with rfl | rfl | rfl | rfl | rfl | rfl
    all_goals
      cases reach
      rcases isTier with rfl | rfl | rfl | rfl | rfl | rfl
      all_goals
        cases ownReach
        revert fallsBack
        simp [RunnerPrimitive.fallsBack, registered, Level.tier, Tier.withTruth]
  rcases shape with ⟨rfl, rfl, rfl⟩ | rfl
  · obtain ⟨member, ⟨isTruth, _⟩ | ⟨isLevel, _⟩⟩ := isListed
    · cases isTruth
    · by_cases isNamed : p.name ∈ api.privilegedNames
      · obtain ⟨other, isOther, sameName⟩ := List.mem_map.mp isNamed
        obtain ⟨otherMember, otherTier⟩ := mem_ofTier.mp isOther
        exact ⟨other, ⟨otherMember, .inl ⟨rfl, otherTier⟩⟩, sameName⟩
      · exact ⟨p, ⟨member, .inr ⟨isLevel, fun _ => isNamed⟩⟩, rfl⟩
  · cases reach.symm.trans ownReach
    exact ⟨p, isListed, rfl⟩

/-- The entries are those of the registry, for every tier of the runner. -/
def Installed (api : CodeApi language rpc) (hooks : Hooks)
    (installed : List RunnerPrimitive) : Prop :=
  ∀ entry, entry ∈ installed ↔ ∃ tier ∈ entryTiers, ∃ level truth p,
    tier.reach = some (level, truth) ∧ Listed api level truth p ∧
      entry = registered api hooks tier p

section Offered

variable {api : CodeApi language rpc} {hooks : Hooks}
  {installed : List RunnerPrimitive} {base : Tier} {level : Level} {truth : Bool}

theorem Installed.entry_of_inTier (all : Installed api hooks installed)
    (reach : base.reach = some (level, truth)) {entry : RunnerPrimitive}
    (member : entry ∈ installed) (inTier : entry.inTier base = true) :
    ∃ p, Listed api level truth p ∧ entry = registered api hooks base p := by
  obtain ⟨own, _, ownLevel, ownTruth, p, ownReach, isListed, rfl⟩ := (all entry).mp member
  have same : base = own := List.mem_singleton.mp (of_decide_eq_true inTier)
  rw [← same] at ownReach ⊢
  cases reach.symm.trans ownReach
  exact ⟨p, isListed, rfl⟩

theorem Installed.mem_of_listed (all : Installed api hooks installed) (isBase : base ∈ entryTiers)
    (reach : base.reach = some (level, truth)) {p : Primitive}
    (isListed : Listed api level truth p) :
    registered api hooks base p ∈ installed ∧ (registered api hooks base p).inTier base = true := by
  refine ⟨(all _).mpr ⟨base, isBase, level, truth, p, reach, isListed, rfl⟩, ?_⟩
  exact decide_eq_true (List.mem_singleton_self _)

theorem Installed.get_iff (all : Installed api hooks installed) (isBase : base ∈ entryTiers)
    (reach : base.reach = some (level, truth)) {out : List (String × _)}
    (offers : Offers base installed out) (entry : RunnerPrimitive) :
    Entries.get out entry.name = some entry ↔
      ∃ p, Listed api level truth p ∧ entry = registered api hooks base p := by
  constructor
  · intro found
    obtain ⟨member, _, taken⟩ := offers.fromDone _ entry found
    rcases taken with inTier | fallsBack
    · exact all.entry_of_inTier reach member inTier
    · obtain ⟨own, isOwn, ownLevel, ownTruth, p, ownReach, isListed, rfl⟩ :=
        (all entry).mp member
      obtain ⟨other, otherListed, sameName⟩ :=
        name_of_fallsBack api hooks isBase isOwn reach ownReach isListed fallsBack
      obtain ⟨otherMember, otherIn⟩ := all.mem_of_listed isBase reach otherListed
      obtain ⟨holder, holds, holderIn⟩ := offers.kept _ otherMember otherIn
      have same : holder = registered api hooks own p := by
        have foundToo : Entries.get out p.name = some holder := by
          rw [← sameName]
          exact holds
        exact Option.some.inj (foundToo.symm.trans found)
      rw [same] at holderIn
      exact all.entry_of_inTier reach member holderIn
  · rintro ⟨p, isListed, rfl⟩
    obtain ⟨member, inTier⟩ := all.mem_of_listed isBase reach isListed
    obtain ⟨holder, found, holderIn⟩ := offers.kept _ member inTier
    obtain ⟨holderMember, sameName, _⟩ := offers.fromDone _ holder found
    obtain ⟨other, otherListed, rfl⟩ := all.entry_of_inTier reach holderMember holderIn
    rwa [otherListed.unique isListed sameName] at found

theorem Offers.name_of_mem {done : List RunnerPrimitive} {out : List (String × RunnerPrimitive)}
    (offers : Offers base done out) {slot : String × RunnerPrimitive} (member : slot ∈ out) :
    Entries.get out slot.1 = some slot.2 ∧ slot.2.name = slot.1 := by
  have found := Entries.get_of_mem offers.unique member
  exact ⟨found, (offers.fromDone slot.1 slot.2 found).2.1⟩

theorem Offers.names {done : List RunnerPrimitive} {out : List (String × RunnerPrimitive)}
    (offers : Offers base done out) :
    (out.map Prod.snd).map (fun entry => entry.name) = Entries.keys out := by
  rw [List.map_map, Entries.keys]
  apply List.map_congr_left
  intro slot member
  exact (offers.name_of_mem member).2

theorem registered_kept (p : Primitive) :
    (base.withTruth ||
        Level.privileged.tier ∈ (registered api hooks base p).tiers ||
      !(registered api hooks base p).privileged) = true := by
  by_cases isPrivileged : base = Level.privileged.tier
  · simp [Tier.withTruth, isPrivileged]
  · simp [registered, isPrivileged]

end Offered

/-- What a run is offered is the registry's listing of its tier, each
primitive by the entry of that tier. -/
theorem mem_offered (api : CodeApi language rpc) (hooks : Hooks) (isTier : tier ∈ runTiers)
    (privileged : Bool) :
    ∃ installed offered level truth, registryPrimitives api hooks = .ok installed ∧
      runnerPrimitives installed tier privileged = .ok offered ∧
      (runTier tier privileged).reach = some (level, truth) ∧
      (offered.map fun entry => entry.name).Nodup ∧
      ∀ entry, entry ∈ offered ↔ ∃ p, Listed api level truth p ∧
        entry = registered api hooks (runTier tier privileged) p := by
  obtain ⟨installed, isInstalled, all⟩ := registryPrimitives_ok api hooks
  have isBase := runTier_mem isTier privileged
  obtain ⟨level, truth, reach⟩ := reach_of_mem isBase
  have offers := offers_foldl (offers_nil (runTier tier privileged)) installed
  rw [List.nil_append] at offers
  refine ⟨installed, _, level, truth, isInstalled, if_neg (not_not.mpr isTier), reach, ?_, ?_⟩
  · have unique := offers.unique
    rw [← offers.names] at unique
    exact unique.sublist (List.Sublist.map _ List.filter_sublist)
  · intro entry
    rw [List.mem_filter, mem_map, ← Installed.get_iff all isBase reach offers]
    constructor
    · rintro ⟨⟨slot, member, rfl⟩, _⟩
      obtain ⟨found, sameName⟩ := offers.name_of_mem member
      rw [sameName]
      exact found
    · intro found
      refine ⟨⟨(entry.name, entry), Entries.mem_of_get found, rfl⟩, ?_⟩
      obtain ⟨p, _, rfl⟩ := (Installed.get_iff all isBase reach offers entry).mp found
      exact registered_kept p

/-! ## What a run invokes -/

/-- Every call invoked is of a primitive the run was offered. -/
def Offered (settings : PiEmbodied.Services.Settings) (s : RunState) : Prop :=
  ∀ call ∈ s.invocations, ∃ prim, settings.byName call.name = some prim

variable {settings : PiEmbodied.Services.Settings} {s : RunState}

section

variable (offered : Offered settings s)
include offered

theorem offered_same {t : RunState} (same : t.events = s.events) :
    Offered settings t := by
  unfold Offered RunState.invocations at *
  rw [same]
  exact offered

theorem offered_call (name : String) (arguments : Arguments) (met : Circumstances) :
    Offered settings (call settings s name arguments met).1 := by
  rcases call_cases settings s name arguments met with
    ⟨error, refused, limit, isNext⟩ | isNext |
      ⟨prim, move, isPrim, _, _, _, isNext⟩
  · rw [isNext]
    exact offered_same offered rfl
  · rw [isNext]
    unfold Offered
    intro other member
    have same := @invocations_see (s.refuse name arguments .stopped false) .stopSeen rfl
    exact offered other (same ▸ member)
  · rw [isNext]
    have isEvents := (invoke_spec s name arguments move met).1
    unfold Offered RunState.invocations
    rw [isEvents, List.filterMap_append, calls_invokeEvents]
    intro other member
    rcases List.mem_append.mp member with old | new
    · exact offered other old
    · rw [List.mem_singleton.mp new]
      exact ⟨prim, isPrim⟩

theorem offered_afterCall (t : Turn) (name : String) :
    Offered settings (afterCall settings t s name).1 := by
  rw [afterCall]
  split
  · exact offered
  · split_ifs
    · intro call member
      exact offered call (@invocations_see s .timeoutSeen rfl ▸ member)
    · intro call member
      exact offered call (@invocations_see s .abortSeen rfl ▸ member)
    · exact offered
    · exact offered
    · exact offered_same offered rfl
    · exact offered_same offered rfl

theorem offered_turn (t : Turn) :
    Offered settings (serveTurn settings s t).1 := by
  have kept : Offered settings (flagged s t) := offered_same offered rfl
  rcases serveTurn_cases settings s t with
    ⟨event, outcome, ends, isNext⟩ | ⟨done, outcome, isNext⟩ |
      ⟨name, arguments, deep, _, _, _, isNext⟩
  · rw [isNext]
    intro call member
    exact kept call (invocations_see (flagged s t) ends ▸ member)
  · rw [isNext]
    exact offered_same kept rfl
  · rw [isNext]
    exact offered_afterCall (offered_call kept name arguments t.met) t name

theorem offered_serve (turns : List Turn) :
    Offered settings (serve settings s turns).1 := by
  induction turns generalizing s with
  | nil => exact offered
  | cons t rest ih =>
    have next := offered_turn offered t
    rw [serve]
    split
    · rename_i isNext
      rwa [isNext] at next
    · rename_i isNext
      rw [isNext] at next
      exact ih next

end

/-! ## What a program reaches -/

/-- The tier whose primitives a run has besides the privileged ones. -/
def Tier.own (tier : Tier) : Tier :=
  match (baseTier tier).name with
  | .of .privileged => Level.high.tier
  | name => ⟨name, false⟩

/-- A privileged primitive is for a run with the ground truth, any other for a
run of its own tier. -/
structure Granted (tier : Tier) (privileged : Bool) (p : Primitive) :
    Prop where
  truth : p.isPrivileged = true →
    privileged = true ∨ tier = Level.privileged.tier ∨ tier.plus = true
  own : p.isPrivileged = false → p.tiers = [tier.own]

theorem runTier_reach (isTier : tier ∈ runTiers) {privileged : Bool}
    (reach : (runTier tier privileged).reach = some (level, truth)) :
    level.tier = tier.own ∧ (truth = true →
      privileged = true ∨ tier = Level.privileged.tier ∨ tier.plus = true) := by
  simp only [runTiers, mem_cons, not_mem_nil, or_false] at isTier
  rcases isTier with rfl | rfl | rfl | rfl | rfl | rfl | rfl | rfl
  all_goals
    cases privileged
    · cases reach
      exact ⟨rfl, by decide⟩
    · cases reach
      exact ⟨rfl, fun _ => .inl rfl⟩

theorem granted_of_listed
    {api : CodeApi language rpc} (isTier : tier ∈ runTiers) {privileged : Bool}
    (reach : (runTier tier privileged).reach = some (level, truth))
    (isListed : Listed api level truth p) : Granted tier privileged p := by
  obtain ⟨isOwn, hasTruth⟩ := runTier_reach isTier reach
  obtain ⟨_, ⟨isTruth, isTop⟩ | ⟨isLevel, _⟩⟩ := isListed
  · refine ⟨fun _ => hasTruth isTruth, ?_⟩
    intro notPrivileged
    rw [isPrivileged_of_tier isTop] at notPrivileged
    cases notPrivileged
  · refine ⟨?_, fun _ => by rw [isLevel, isOwn]⟩
    intro isPrivileged
    rw [isPrivileged_of_tier isLevel, decide_eq_true_eq] at isPrivileged
    -- No tier of a run has the privileged level as its own.
    rw [isPrivileged] at isOwn
    simp only [runTiers, mem_cons, not_mem_nil, or_false] at isTier
    rcases isTier with rfl | rfl | rfl | rfl | rfl | rfl | rfl | rfl
    all_goals cases isOwn

/-- What a program of a run reaches: it is offered the names that the registry
lists for the tier and flag, every call invoked is of one declared primitive
of the name, granted to the run, and the RPC method called is that primitive's
with arguments that passed its check. -/
def ReachesDeclared (api : CodeApi language rpc) (hooks : Hooks) (tier : Tier)
    (privileged : Bool) : Prop :=
  ∃ installed offered listed, registryPrimitives api hooks = .ok installed ∧
    runnerPrimitives installed tier privileged = .ok offered ∧
    api.primitives (some (runTier tier privileged)) = .ok listed ∧
    (offered.map fun entry => entry.name).Nodup ∧
    (∀ name, name ∈ offered.map (fun entry => entry.name) ↔ name ∈ listed.map Primitive.name) ∧
    ∀ (settings : PiEmbodied.Services.Settings) (turns : List Turn),
      ∀ call ∈ (serve (offering settings offered) .start turns).1.invocations,
      ∃ p ∈ listed, p.name = call.name ∧ (∀ other ∈ listed, other.name = call.name → other = p) ∧
        Granted tier privileged p ∧
        ∀ rpcCall, rpcOf offered call = some rpcCall →
          rpcCall.method = p.method ∧ Accepts language p rpcCall.kwargs

theorem program_reaches_declared (api : CodeApi language rpc) (hooks : Hooks) {tier : Tier}
    (isTier : tier ∈ runTiers) (privileged : Bool) : ReachesDeclared api hooks tier privileged := by
  obtain ⟨installed, offered, level, truth, isInstalled, isOffered, reach,
    unique, mem_iff⟩ := mem_offered api hooks isTier privileged
  obtain ⟨listed, isListed, mem_listed⟩ := primitives_listed api reach
  refine ⟨installed, offered, listed, isInstalled, isOffered, isListed, unique, ?_, ?_⟩
  · intro name
    rw [mem_map, mem_map]
    constructor
    · rintro ⟨entry, member, rfl⟩
      obtain ⟨p, isIn, rfl⟩ := (mem_iff entry).mp member
      exact ⟨p, (mem_listed p).mpr isIn, rfl⟩
    · rintro ⟨p, member, rfl⟩
      exact ⟨registered api hooks (runTier tier privileged) p,
        (mem_iff _).mpr ⟨p, (mem_listed p).mp member, rfl⟩, rfl⟩
  · intro settings turns call invoked
    have none : Offered (offering settings offered) .start :=
      fun _ member => absurd member not_mem_nil
    obtain ⟨prim, isPrim⟩ := offered_serve none turns call invoked
    have inAllowed := List.mem_filter.mp (List.mem_of_getLast? isPrim)
    obtain ⟨entry, inOffered, rfl⟩ := List.mem_map.mp inAllowed.1
    have sameName : entry.name = call.name := of_decide_eq_true inAllowed.2
    obtain ⟨p, isIn, rfl⟩ := (mem_iff entry).mp inOffered
    refine ⟨p, (mem_listed p).mpr isIn, sameName, ?_, granted_of_listed isTier reach isIn, ?_⟩
    · intro other member otherName
      exact ((mem_listed other).mp member).unique isIn (otherName.trans sameName.symm)
    · intro rpcCall called
      unfold rpcOf at called
      split at called
      · cases called
      · rename_i found isFound
        split at called
        · cases called
        · rename_i resolved isResolved
          cases called
          have member := List.mem_filter.mp (List.mem_of_getLast? isFound)
          obtain ⟨q, otherIn, rfl⟩ := (mem_iff found).mp member.1
          have foundName : q.name = call.name := of_decide_eq_true member.2
          rw [← otherIn.unique isIn (foundName.trans sameName.symm)]
          exact callIn_ok api reach otherIn isResolved

/-- A registry with a motion and two readings of one name, of which one is the
ground truth. -/
def poseApi :
    CodeApi ⟨fun _ => true, fun _ _ => .ok false⟩ ["env.move", "env.pose", "env.truth"] where
  all :=
    [⟨"move", "env.move", [("x", ⟨"number", true, [], none, some 1⟩)], true, [Level.low.tier]⟩,
      ⟨"pose", "env.pose", [], false, [Level.low.tier]⟩,
      ⟨"pose", "env.truth", [], false, [Level.privileged.tier]⟩]
  valid := by rfl

theorem poseApi_reaches_declared :
    ReachesDeclared poseApi ⟨none, none, fun _ => ""⟩ ⟨.noExamples, false⟩ true :=
  program_reaches_declared poseApi ⟨none, none, fun _ => ""⟩ (by decide) true

end PiEmbodied.Services.Registry
