import PiEmbodied.Entries
import PiEmbodied.Services.CodeExec

/-!
# The primitive registry of an env server

A server declares its primitives once.  What a program may call in a tier is
what the registry lists for it, and a call reaches an RPC method only through
`resolve`, which knows the declared names and parameters.
-/

namespace PiEmbodied.Services.Registry

/-! ## Tiers -/

/-- `TIERS` -/
inductive Level where
  | high
  | low
  | raw
  | privileged
deriving DecidableEq

/-- The text of a tier up to a `+privileged`. -/
inductive TierName where
  | of (level : Level)
  /-- `low-noexamples` -/
  | noExamples
  | other (text : String)
deriving DecidableEq

/-- The text of a tier; `plus` for a `+privileged` at its end. -/
structure Tier where
  name : TierName
  plus : Bool
deriving DecidableEq

def Level.tier (level : Level) : Tier :=
  ⟨.of level, false⟩

def baseTier (tier : Tier) : Tier :=
  match tier.name with
  | .noExamples => ⟨.of .low, tier.plus⟩
  | _ => tier

/-- The errors of the registry and of a call that goes through it, with what
their texts name. -/
inductive ApiError where
  | notAnIdentifier (name : String)
  | notOneTier (name : String) (tiers : List Tier)
  | declaredTwice (name : String)
  | notRegistered (name method : String)
  | badParameter (name param type : String)
  | unknownTier (tier : Tier)
  | noPrivilegedVariant (tier : TierName)
  | notAPrimitive (name : String) (listed : List String)
  | unknownParameters (name : String) (params : List String)
  | missingParameters (name : String) (params : List String)
  | tooManyArguments (name : String) (atMost given : ℕ)
  | multipleValues (name : String) (params : List String)
  | notOneOf (param : String) (values : List Value) (value : Value)
  | belowMinimum (param : String) (minimum value : ℚ)
  | aboveMaximum (param : String) (maximum value : ℚ)
  /-- A comparison that raises. -/
  | raised (text : String)

/-! ## Parameters -/

structure Param where
  type : String
  required : Bool
  /-- An enum's values. -/
  values : List Value
  (minimum maximum : Option ℚ)

def paramTypes : List String :=
  ["number", "integer", "boolean", "string", "enum", "vec3", "quat", "array", "object"]

/-- An `int`, which a `bool` is too, or a `float`.  A program's call with a
float that is not finite is refused before its parameters are checked. -/
def numberOf : Value → Option ℚ
  | .bool value => some (if value then 1 else 0)
  | .int value | .float (.finite value) => some value
  | _ => none

inductive Scalar where
  | none
  | number (value : ℚ)
  | str (text : String)
deriving DecidableEq

def scalarOf : Value → Option Scalar
  | .none => some .none
  | .str text => some (.str text)
  | value => (numberOf value).map Scalar.number

/-- What the registry is given: which names are identifiers, and how values
compare that are no scalars (arrays compare as numpy has them). -/
structure Language where
  isIdentifier : String → Bool
  equals : Value → Value → Except String Bool

def Language.same (language : Language) (first second : Value) :
    Except ApiError Bool :=
  match scalarOf first, scalarOf second with
  | some first, some second => .ok (first = second)
  | _, _ =>
    match language.equals first second with
    | .ok same => .ok same
    | .error text => .error (.raised text)

/-- `value in values` -/
def Language.isIn (language : Language) (value : Value) : List Value → Except ApiError Bool
  | [] => .ok false
  | declared :: rest =>
    match language.same declared value with
    | .error error => .error error
    | .ok true => .ok true
    | .ok false => language.isIn value rest

def Param.checkValues (language : Language) (param : Param) (name : String) (value : Value) :
    Except ApiError Unit :=
  if param.values.isEmpty then .ok ()
  else
    match language.isIn value param.values with
    | .error error => .error error
    | .ok true => .ok ()
    | .ok false => .error (.notOneOf name param.values value)

def Param.checkRange (param : Param) (name : String) (value : Value) :
    Except ApiError Unit :=
  if param.type = "number" ∨ param.type = "integer" then
    match numberOf value with
    | none => .ok ()
    | some number =>
      match param.minimum, param.maximum with
      | some minimum, some maximum =>
        if number < minimum then .error (.belowMinimum name minimum number)
        else if maximum < number then
          .error (.aboveMaximum name maximum number)
        else .ok ()
      | some minimum, none =>
        if number < minimum then .error (.belowMinimum name minimum number)
        else .ok ()
      | none, some maximum =>
        if maximum < number then .error (.aboveMaximum name maximum number)
        else .ok ()
      | none, none => .ok ()
  else .ok ()

def Param.check (language : Language) (param : Param) (name : String) (value : Value) :
    Except ApiError Unit :=
  match value with
  | .none => .ok ()
  | value =>
    match param.checkValues language name value with
    | .error error => .error error
    | .ok () => param.checkRange name value

/-! ## The registry -/

structure Primitive where
  (name method : String)
  params : List (String × Param)
  mutating : Bool
  tiers : List Tier

def Primitive.isPrivileged (p : Primitive) : Bool :=
  p.tiers.head? = some Level.privileged.tier

def Primitive.hasOneTier (p : Primitive) : Bool :=
  match p.tiers with
  | [⟨.of _, false⟩] => true
  | _ => false

def validateOne (language : Language) (rpc : List String)
    (seen : List (String × Bool)) (p : Primitive) : Except ApiError Unit :=
  if language.isIdentifier p.name = false then
    .error (.notAnIdentifier p.name)
  else if p.hasOneTier = false then .error (.notOneTier p.name p.tiers)
  else if (p.name, p.isPrivileged) ∈ seen then .error (.declaredTwice p.name)
  else if p.method ∉ rpc then .error (.notRegistered p.name p.method)
  else
    match p.params.find? fun param =>
        !language.isIdentifier param.1 || param.2.type ∉ paramTypes with
    | some (name, param) => .error (.badParameter p.name name param.type)
    | none => .ok ()

def validate (language : Language) (rpc : List String) :
    List (String × Bool) → List Primitive → Except ApiError Unit
  | _, [] => .ok ()
  | seen, p :: rest =>
    match validateOne language rpc seen p with
    | .error error => .error error
    | .ok () => validate language rpc (seen ++ [(p.name, p.isPrivileged)]) rest

/-- `CodeApi`: a validated set of primitives over the registered methods. -/
structure CodeApi (language : Language) (rpc : List String) where
  all : List Primitive
  valid : validate language rpc [] all = .ok ()

/-- `CodeApi.__init__` -/
def CodeApi.create (language : Language) (rpc : List String) (primitives : List Primitive) :
    Except ApiError (CodeApi language rpc) :=
  match valid : validate language rpc [] primitives with
  | .error error => .error error
  | .ok () => .ok ⟨primitives, valid⟩

variable {language : Language} {rpc : List String}

/-- `[p for p in self._all if p.tiers[0] == tier]` -/
def CodeApi.ofTier (api : CodeApi language rpc) (tier : Tier) :
    List Primitive :=
  api.all.filter fun p => p.tiers.head? = some tier

def CodeApi.privilegedNames (api : CodeApi language rpc) : List String :=
  (api.ofTier Level.privileged.tier).map Primitive.name

def CodeApi.primitives (api : CodeApi language rpc) : Option Tier → Except ApiError (List Primitive)
  | none => .ok (api.all.filter fun p => !p.isPrivileged)
  | some tier =>
    match baseTier tier with
    | ⟨.of .privileged, true⟩ => .error (.noPrivilegedVariant (.of .privileged))
    | ⟨.of level, true⟩ =>
      .ok
        ((api.ofTier level.tier).filter (fun p => p.name ∉ api.privilegedNames) ++
          api.ofTier Level.privileged.tier)
    | ⟨name, true⟩ => .error (.noPrivilegedVariant name)
    | ⟨.of .privileged, false⟩ =>
      .ok
        (api.all.filter fun p =>
          p.isPrivileged ||
            (p.tiers.head? = some Level.high.tier && p.name ∉ api.privilegedNames))
    | ⟨.of level, false⟩ => .ok (api.ofTier level.tier)
    | other => .error (.unknownTier other)

/-- An RPC method with the keyword arguments it is called with. -/
structure RpcCall where
  method : String
  kwargs : List (String × Value)

/-- The parameter checks of `resolve`, each on the value given for it. -/
def checkAll (language : Language) (p : Primitive) : List (String × Value) → Except ApiError Unit
  | [] => .ok ()
  | (name, value) :: rest =>
    match Entries.get p.params name with
    | none => .error (.unknownParameters p.name [name])
    | some param =>
      match param.check language (p.name ++ "." ++ name) value with
      | .error error => .error error
      | .ok () => checkAll language p rest

def resolveIn (language : Language) (p : Primitive) (kwargs : List (String × Value)) :
    Except ApiError RpcCall :=
  let extra := (Entries.keys kwargs).filter fun k => !Entries.has p.params k
  let missing :=
    (p.params.filter fun param => param.2.required && !Entries.has kwargs param.1).map Prod.fst
  if extra ≠ [] then .error (.unknownParameters p.name extra)
  else if missing ≠ [] then .error (.missingParameters p.name missing)
  else
    match checkAll language p kwargs with
    | .error error => .error error
    | .ok () => .ok ⟨p.method, kwargs⟩

/-- The entry of a dict by name: of two of one name, the later. -/
def named (listed : List Primitive) (name : String) : Option Primitive :=
  (listed.filter fun p => p.name = name).getLast?

def CodeApi.resolve (api : CodeApi language rpc) (name : String)
    (kwargs : List (String × Value)) (tier : Option Tier) :
    Except ApiError RpcCall :=
  match api.primitives tier with
  | .error error => .error error
  | .ok listed =>
    match named listed name with
    | none => .error (.notAPrimitive name (listed.map Primitive.name))
    | some p => resolveIn language p kwargs

/-- What holds of declarations that were validated after `seen`. -/
structure Valid (language : Language) (rpc : List String) (seen : List (String × Bool))
    (primitives : List Primitive) : Prop where
  single : ∀ p ∈ primitives, ∃ level : Level, p.tiers = [level.tier]
  registered : ∀ p ∈ primitives, p.method ∈ rpc
  apart : (primitives.map fun p => (p.name, p.isPrivileged)).Nodup
  unseen : ∀ p ∈ primitives, (p.name, p.isPrivileged) ∉ seen

theorem hasOneTier_iff (p : Primitive) :
    p.hasOneTier = true ↔ ∃ level : Level, p.tiers = [level.tier] := by
  unfold Primitive.hasOneTier
  constructor
  · intro isOne
    split at isOne
    · rename_i level isTier
      exact ⟨level, isTier⟩
    · cases isOne
  · rintro ⟨level, isTier⟩
    rw [isTier]
    rfl

variable {seen : List (String × Bool)} {p : Primitive}

theorem validateOne_ok (valid : validateOne language rpc seen p = .ok ()) :
    p.hasOneTier = true ∧ (p.name, p.isPrivileged) ∉ seen ∧ p.method ∈ rpc := by
  unfold validateOne at valid
  split_ifs at valid with _ twoTiers isSeen isMissing
  exact ⟨by simpa using twoTiers, isSeen, isMissing⟩

theorem valid_of_validate {primitives : List Primitive}
    (valid : validate language rpc seen primitives = .ok ()) :
    Valid language rpc seen primitives := by
  induction primitives generalizing seen with
  | nil =>
    exact
      { single := fun _ member => absurd member List.not_mem_nil
        registered := fun _ member => absurd member List.not_mem_nil
        apart := List.nodup_nil
        unseen := fun _ member => absurd member List.not_mem_nil }
  | cons p rest ih =>
    rw [validate] at valid
    split at valid
    · cases valid
    · rename_i one
      obtain ⟨oneTier, notSeen, isRegistered⟩ := validateOne_ok one
      have later := ih valid
      refine ⟨?_, ?_, ?_, ?_⟩
      · intro other member
        rcases List.mem_cons.mp member with rfl | inRest
        · exact (hasOneTier_iff other).mp oneTier
        · exact later.single other inRest
      · intro other member
        rcases List.mem_cons.mp member with rfl | inRest
        · exact isRegistered
        · exact later.registered other inRest
      · rw [List.map_cons, List.nodup_cons]
        refine ⟨?_, later.apart⟩
        intro again
        obtain ⟨other, inRest, sameKey⟩ := List.mem_map.mp again
        apply later.unseen other inRest
        rw [sameKey]
        exact List.mem_append_right seen (List.mem_singleton_self _)
      · intro other member
        rcases List.mem_cons.mp member with rfl | inRest
        · exact notSeen
        · intro isSeen
          exact later.unseen other inRest (List.mem_append_left _ isSeen)

theorem CodeApi.isValid (api : CodeApi language rpc) : Valid language rpc [] api.all :=
  valid_of_validate api.valid

/-! ## What a tier lists -/

variable {first second : Primitive}

theorem Valid.key_injective
    {primitives : List Primitive} (valid : Valid language rpc seen primitives)
    (firstMember : first ∈ primitives) (secondMember : second ∈ primitives)
    (sameName : first.name = second.name)
    (sameKind : first.isPrivileged = second.isPrivileged) : first = second :=
  List.inj_on_of_nodup_map valid.apart firstMember secondMember (Prod.ext sameName sameKind)

variable {level : Level} {api : CodeApi language rpc}

theorem mem_ofTier : p ∈ api.ofTier level.tier ↔ p ∈ api.all ∧ p.tiers = [level.tier] := by
  unfold CodeApi.ofTier
  rw [List.mem_filter, decide_eq_true_eq]
  constructor
  · rintro ⟨member, isHead⟩
    obtain ⟨other, isTier⟩ := api.isValid.single p member
    rw [isTier, List.head?_cons] at isHead
    rw [isTier, Option.some.inj isHead]
    exact ⟨member, rfl⟩
  · rintro ⟨member, isTier⟩
    rw [isTier]
    exact ⟨member, rfl⟩

theorem isPrivileged_of_tier (isTier : p.tiers = [level.tier]) :
    p.isPrivileged = decide (level = .privileged) := by
  unfold Primitive.isPrivileged
  rw [isTier]
  cases level <;> rfl

/-- A tier of the registry, or one with the ground truth added, as the list
of what belongs to it: the levels it takes, the privileged of two of one name
first. -/
def Listed (api : CodeApi language rpc) (level : Level) (truth : Bool) (p : Primitive) : Prop :=
  p ∈ api.all ∧
    (truth = true ∧ p.tiers = [Level.privileged.tier] ∨
      p.tiers = [level.tier] ∧ (truth = true → p.name ∉ api.privilegedNames))

variable {truth : Bool}

theorem Listed.unique (firstListed : Listed api level truth first)
    (secondListed : Listed api level truth second)
    (sameName : first.name = second.name) : first = second := by
  obtain ⟨firstMember, firstIs⟩ := firstListed
  obtain ⟨secondMember, secondIs⟩ := secondListed
  refine api.isValid.key_injective firstMember secondMember sameName ?_
  have named : ∀ p ∈ api.all, p.tiers = [Level.privileged.tier] → p.name ∈ api.privilegedNames := by
    intro p member isTier
    exact List.mem_map_of_mem (mem_ofTier.mpr ⟨member, isTier⟩)
  rcases firstIs with ⟨isTruth, firstTier⟩ | ⟨firstTier, firstNot⟩
  · rcases secondIs with ⟨_, secondTier⟩ | ⟨_, secondNot⟩
    · rw [isPrivileged_of_tier firstTier, isPrivileged_of_tier secondTier]
    · refine absurd ?_ (secondNot isTruth)
      rw [← sameName]
      exact named first firstMember firstTier
  · rcases secondIs with ⟨isTruth, secondTier⟩ | ⟨secondTier, _⟩
    · refine absurd ?_ (firstNot isTruth)
      rw [sameName]
      exact named second secondMember secondTier
    · rw [isPrivileged_of_tier firstTier, isPrivileged_of_tier secondTier]

/-- The level of a tier and whether the ground truth is added to it; the
privileged tier is the high one with it. -/
def Tier.reach (tier : Tier) : Option (Level × Bool) :=
  match baseTier tier with
  | ⟨.of .privileged, true⟩ => none
  | ⟨.of .privileged, false⟩ => some (.high, true)
  | ⟨.of level, plus⟩ => some (level, plus)
  | _ => none

theorem primitives_listed (api : CodeApi language rpc) {tier : Tier}
    (reach : tier.reach = some (level, truth)) :
    ∃ listed, api.primitives (some tier) = .ok listed ∧
      ∀ p, p ∈ listed ↔ Listed api level truth p := by
  have privileged_iff : ∀ p ∈ api.all,
      p.isPrivileged = true ↔ p.tiers = [Level.privileged.tier] := by
    intro p member
    obtain ⟨own, isTier⟩ := api.isValid.single p member
    rw [isPrivileged_of_tier isTier, decide_eq_true_eq, isTier]
    constructor
    · rintro rfl
      rfl
    · intro same
      cases own <;> first | rfl | cases same
  have withTruth : ∀ own : Level, ∀ p,
      p ∈ (api.ofTier own.tier).filter (fun p => p.name ∉ api.privilegedNames) ++
        api.ofTier Level.privileged.tier ↔ Listed api own true p := by
    intro own p
    rw [List.mem_append, List.mem_filter, mem_ofTier, mem_ofTier, Listed,
      decide_eq_true_eq]
    constructor
    · rintro (⟨⟨member, isTier⟩, notNamed⟩ | ⟨member, isTier⟩)
      · exact ⟨member, .inr ⟨isTier, fun _ => notNamed⟩⟩
      · exact ⟨member, .inl ⟨rfl, isTier⟩⟩
    · rintro ⟨member, ⟨_, isTier⟩ | ⟨isTier, notNamed⟩⟩
      · exact .inr ⟨member, isTier⟩
      · exact .inl ⟨⟨member, isTier⟩, notNamed rfl⟩
  have plain : ∀ own : Level, ∀ p, p ∈ api.ofTier own.tier ↔ Listed api own false p := by
    intro own p
    rw [mem_ofTier, Listed]
    constructor
    · rintro ⟨member, isTier⟩
      exact ⟨member, .inr ⟨isTier, fun truth => Bool.noConfusion truth⟩⟩
    · rintro ⟨member, ⟨truth, _⟩ | ⟨isTier, _⟩⟩
      · cases truth
      · exact ⟨member, isTier⟩
  unfold Tier.reach at reach
  rw [CodeApi.primitives]
  split at reach
  · cases reach
  · rename_i isBase
    cases reach
    rw [isBase]
    refine ⟨_, rfl, ?_⟩
    intro p
    rw [List.mem_filter, Listed]
    refine and_congr_right fun member => ?_
    rw [Bool.or_eq_true, privileged_iff p member, Bool.and_eq_true,
      decide_eq_true_eq, decide_eq_true_eq]
    obtain ⟨own, isTier⟩ := api.isValid.single p member
    simp [isTier]
  · rename_i own plus notPrivilegedPlus notPrivileged isBase
    cases reach
    rw [isBase]
    cases truth with
    | true =>
      cases level with
      | privileged => exact (notPrivilegedPlus rfl rfl).elim
      | _ => exact ⟨_, rfl, withTruth _⟩
    | false =>
      cases level with
      | privileged => exact (notPrivileged rfl rfl).elim
      | _ => exact ⟨_, rfl, plain _⟩
  · cases reach

end PiEmbodied.Services.Registry
