import PiEmbodied.Instances

/-!
# Mirrored coders

An encoder and a decoder that each keep a state and step in lockstep: the
encoder turns a symbol into wire tokens, the decoder turns them back.  Symbols
travel in batches, and either side may reset part of its state where a batch
begins.  A `Mirror` relates the two states; the rules below lift what one
symbol preserves to batches, to whole streams, to joined batches and to readers
that start at a base symbol.
-/

namespace Coding

universe u v

variable {Error : Type u} {Value : Type v} {first : Except Error Value}

/-- A computation that went through, taken apart. -/
theorem bind_eq_ok {Result : Type v} {next : Value → Except Error Result} {result : Result} :
    (first >>= next) = .ok result ↔ ∃ value, first = .ok value ∧ next value = .ok result := by
  cases first with
  | error e | ok value => simp [bind, Except.bind]

theorem pure_eq_ok {value other : Value} :
    (pure value : Except Error Value) = .ok other ↔ value = other := by
  simp [pure, Except.pure]

theorem map_eq_ok {Result : Type w} {change : Value → Result} {result : Result} :
    first.map change = .ok result ↔ ∃ value, first = .ok value ∧ change value = result := by
  cases first with
  | error e | ok value => simp [Except.map]

theorem foldlM_keeps {Item State : Type*} {step : State → Item → Except Error State}
    {Holds : State → Prop} {items : List Item} {state final : State}
    (keeps : ∀ item ∈ items, ∀ {state next}, Holds state → step state item = .ok next → Holds next)
    (holds : Holds state) (isFinal : items.foldlM step state = .ok final) : Holds final := by
  induction items generalizing state with
  | nil =>
    cases isFinal
    exact holds
  | cons item rest ih =>
    rw [List.foldlM_cons] at isFinal
    obtain ⟨middle, isMiddle, isRest⟩ := bind_eq_ok.mp isFinal
    exact ih (fun other member => keeps other (List.mem_cons_of_mem _ member))
      (keeps item List.mem_cons_self holds isMiddle) isRest

/-- The two machines, with no law about them. -/
structure Coder (Enc Dec Symbol Wire Error : Type u) where
  beginEncode : Enc → Enc
  encodeOne : Enc → Symbol → Enc × List Wire
  beginDecode : Dec → Dec
  decodeOne : Dec → Wire → Except Error (Dec × List Symbol)

variable {Enc Dec Symbol Wire Error : Type u}

namespace Coder

variable (coder : Coder Enc Dec Symbol Wire Error)

/-! ## Batches and streams -/

/-- The tokens of some symbols, with the state they leave. -/
def encodeRun (enc : Enc) : List Symbol → Enc × List Wire
  | [] => (enc, [])
  | symbol :: rest =>
    let first := coder.encodeOne enc symbol
    let later := encodeRun first.1 rest
    (later.1, first.2 ++ later.2)

def decodeRun (dec : Dec) : List Wire → Except Error (Dec × List Symbol)
  | [] => .ok (dec, [])
  | token :: rest => do
      let (dec, first) ← coder.decodeOne dec token
      let (dec, later) ← decodeRun dec rest
      return (dec, first ++ later)

def encodeBatch (enc : Enc) (batch : List Symbol) : Enc × List Wire :=
  coder.encodeRun (coder.beginEncode enc) batch

def decodeBatch (dec : Dec) (wire : List Wire) : Except Error (Dec × List Symbol) :=
  coder.decodeRun (coder.beginDecode dec) wire

def encodeStream (enc : Enc) : List (List Symbol) → Enc × List (List Wire)
  | [] => (enc, [])
  | batch :: rest =>
    let first := coder.encodeBatch enc batch
    let later := encodeStream first.1 rest
    (later.1, first.2 :: later.2)

def decodeStream (dec : Dec) : List (List Wire) → Except Error (Dec × List (List Symbol))
  | [] => .ok (dec, [])
  | wire :: rest => do
      let (dec, first) ← coder.decodeBatch dec wire
      let (dec, later) ← decodeStream dec rest
      return (dec, first :: later)

@[simp]
theorem encodeStream_length (enc : Enc) (batches : List (List Symbol)) :
    (coder.encodeStream enc batches).2.length = batches.length := by
  induction batches generalizing enc with
  | nil => rfl
  | cons batch rest ih => simp [encodeStream, ih]

theorem encodeStream_append (enc : Enc) (first second : List (List Symbol)) :
    coder.encodeStream enc (first ++ second) =
      let early := coder.encodeStream enc first
      let late := coder.encodeStream early.1 second
      (late.1, early.2 ++ late.2) := by
  induction first generalizing enc with
  | nil => rfl
  | cons batch rest ih => simp [encodeStream, ih]

theorem decodeRun_append {dec middle : Dec} {first second : List Wire} {symbols : List Symbol}
    (decoded : coder.decodeRun dec first = .ok (middle, symbols)) :
    coder.decodeRun dec (first ++ second) =
      (coder.decodeRun middle second).map fun (dec, later) =>
        (dec, symbols ++ later) := by
  induction first generalizing dec symbols with
  | nil =>
    cases decoded
    cases tail : coder.decodeRun middle second <;>
      simp [tail, Except.map]
  | cons token rest ih =>
    simp only [decodeRun] at decoded
    cases step : coder.decodeOne dec token with
    | error e => simp [step, bind, Except.bind] at decoded
    | ok stepped =>
      simp only [step, bind, Except.bind] at decoded
      cases tail : coder.decodeRun stepped.1 rest with
      | error e => simp [tail] at decoded
      | ok later =>
        simp only [tail, pure, Except.pure, Except.ok.injEq, Prod.mk.injEq] at decoded
        obtain ⟨rfl, rfl⟩ := decoded
        have joined := ih tail
        simp only [List.cons_append, decodeRun, step, bind, Except.bind, joined]
        cases coder.decodeRun later.1 second <;>
          simp [Except.map, pure, Except.pure]

end Coder

/-! ## Mirrors -/

/-- A relation between the two states that one symbol preserves.  The encoder
may begin a batch while the decoder does not notice, which is what lets wire
batches be joined. -/
structure Mirror (coder : Coder Enc Dec Symbol Wire Error) where
  Related : Enc → Dec → Prop
  Allowed : Symbol → Prop
  begins : ∀ {enc dec}, Related enc dec → Related (coder.beginEncode enc) dec
  beginsBoth :
    ∀ {enc dec}, Related (coder.beginEncode enc) dec →
      Related (coder.beginEncode enc) (coder.beginDecode dec)
  one :
    ∀ {enc dec symbol}, Related enc dec → Allowed symbol →
      ∃ next, coder.decodeRun dec (coder.encodeOne enc symbol).2 = .ok (next, [symbol]) ∧
        Related (coder.encodeOne enc symbol).1 next
  /-- A base symbol decodes alike from every state. -/
  Base : Symbol → Prop
  base :
    ∀ (enc dec) {symbol}, Base symbol →
      ∃ next, coder.decodeRun dec (coder.encodeOne enc symbol).2 = .ok (next, [symbol]) ∧
        Related (coder.encodeOne enc symbol).1 next

namespace Mirror

variable {coder : Coder Enc Dec Symbol Wire Error} (mirror : Mirror coder) {enc : Enc} {dec : Dec}

theorem run {symbols : List Symbol} (related : mirror.Related enc dec)
    (allowed : ∀ symbol ∈ symbols, mirror.Allowed symbol) :
    ∃ next, coder.decodeRun dec (coder.encodeRun enc symbols).2 = .ok (next, symbols) ∧
      mirror.Related (coder.encodeRun enc symbols).1 next := by
  induction symbols generalizing enc dec with
  | nil => exact ⟨dec, rfl, related⟩
  | cons symbol rest ih =>
    obtain ⟨middle, first, relatedMiddle⟩ := mirror.one related (allowed symbol List.mem_cons_self)
    obtain ⟨next, later, relatedNext⟩ :=
      ih relatedMiddle (fun other member => allowed other (List.mem_cons_of_mem symbol member))
    refine ⟨next, ?_, relatedNext⟩
    simp only [Coder.encodeRun]
    rw [coder.decodeRun_append first, later]
    rfl

/-- What relates the two sides between batches. -/
def Between (enc : Enc) (dec : Dec) : Prop :=
  mirror.Related (coder.beginEncode enc) dec

theorem between_beginDecode (between : mirror.Between enc dec) :
    mirror.Between enc (coder.beginDecode dec) :=
  mirror.beginsBoth between

variable {batches : List (List Symbol)}

theorem joined (between : mirror.Between enc dec)
    (allowed : ∀ batch ∈ batches, ∀ symbol ∈ batch, mirror.Allowed symbol) :
    ∃ next,
      coder.decodeRun dec (coder.encodeStream enc batches).2.flatten = .ok (next, batches.flatten) ∧
      mirror.Between (coder.encodeStream enc batches).1 next := by
  induction batches generalizing enc dec with
  | nil => exact ⟨dec, rfl, between⟩
  | cons batch rest ih =>
    obtain ⟨middle, first, relatedMiddle⟩ := mirror.run between (allowed batch List.mem_cons_self)
    obtain ⟨next, later, betweenNext⟩ :=
      ih (mirror.begins relatedMiddle)
        (fun other member => allowed other (List.mem_cons_of_mem batch member))
    refine ⟨next, ?_, betweenNext⟩
    simp only [Coder.encodeStream, Coder.encodeBatch, List.flatten_cons]
    rw [coder.decodeRun_append first, later]
    rfl

/-- However the wire batches of a stream are joined in order, the decoder
returns the batches joined the same way. -/
theorem grouped (groups : List (List (List Symbol))) :
    ∀ {enc : Enc} {dec : Dec} {wires : List (List (List Wire))}, mirror.Between enc dec →
      (∀ batch ∈ groups.flatten, ∀ symbol ∈ batch, mirror.Allowed symbol) →
      wires.flatten = (coder.encodeStream enc groups.flatten).2 →
      wires.map List.length = groups.map List.length →
      ∃ next,
        coder.decodeStream dec (wires.map List.flatten) = .ok (next, groups.map List.flatten) ∧
        mirror.Between (coder.encodeStream enc groups.flatten).1 next := by
  induction groups with
  | nil =>
    intro enc dec wires between _ _ sameShape
    have noWires : wires = [] := by simpa using sameShape
    subst noWires
    exact ⟨dec, rfl, between⟩
  | cons group rest ih =>
    intro enc dec wires between allowed encoded sameShape
    cases wires with
    | nil => simp at sameShape
    | cons wire later =>
      simp only [List.map_cons, List.cons.injEq] at sameShape
      simp only [List.flatten_cons, coder.encodeStream_append] at encoded
      obtain ⟨first, second⟩ :=
        List.append_inj encoded (by rw [coder.encodeStream_length, sameShape.1])
      obtain ⟨middle, decodedFirst, betweenMiddle⟩ :=
        mirror.joined (mirror.between_beginDecode between)
          (fun batch member => allowed batch (List.mem_append_left _ member))
      obtain ⟨next, decodedLater, betweenNext⟩ :=
        ih betweenMiddle (fun batch member => allowed batch (List.mem_append_right _ member))
          second sameShape.2
      refine ⟨next, ?_, ?_⟩
      · rw [← first] at decodedFirst
        simp only [List.map_cons, Coder.decodeStream, Coder.decodeBatch,
          decodedFirst, decodedLater, bind, Except.bind, pure,
          Except.pure]
      · rw [List.flatten_cons, coder.encodeStream_append]
        exact betweenNext

theorem stream (between : mirror.Between enc dec)
    (allowed : ∀ batch ∈ batches, ∀ symbol ∈ batch, mirror.Allowed symbol) :
    ∃ next, coder.decodeStream dec (coder.encodeStream enc batches).2 = .ok (next, batches) ∧
      mirror.Between (coder.encodeStream enc batches).1 next := by
  have singles : (batches.map fun batch => [batch]).flatten = batches := by
    rw [← List.flatMap_def]
    exact List.flatMap_singleton' batches
  obtain ⟨next, decoded, betweenNext⟩ :=
    @grouped _ _ _ _ _ coder mirror (batches.map fun batch => [batch]) enc dec
      ((coder.encodeStream enc batches).2.map fun wire => [wire])
      between (by rwa [singles])
      (by
        rw [singles, ← List.flatMap_def]
        exact List.flatMap_singleton' _)
      (by
        simp only [List.map_map, Function.comp_def, List.length_singleton]
        rw [List.map_const', List.map_const', coder.encodeStream_length])
  rw [singles] at betweenNext
  refine ⟨next, ?_, betweenNext⟩
  simpa [Function.comp_def] using decoded

/-- A decoder in any state that starts at a batch whose first symbol is a base
reads that batch and everything after it. -/
theorem recovers {symbol : Symbol} {batch : List Symbol} (isBase : mirror.Base symbol)
    (allowed : ∀ other ∈ batch :: batches, ∀ symbol ∈ other, mirror.Allowed symbol) :
    ∃ next,
      coder.decodeStream dec (coder.encodeStream enc ((symbol :: batch) :: batches)).2 =
        .ok (next, (symbol :: batch) :: batches) ∧
      mirror.Between
        (coder.encodeStream enc ((symbol :: batch) :: batches)).1 next := by
  obtain ⟨afterBase, first, relatedBase⟩ :=
    mirror.base (coder.beginEncode enc) (coder.beginDecode dec) isBase
  obtain ⟨middle, rest, relatedMiddle⟩ := mirror.run relatedBase (allowed batch List.mem_cons_self)
  obtain ⟨next, later, betweenNext⟩ :=
    mirror.stream (mirror.begins relatedMiddle)
      (fun other member => allowed other (List.mem_cons_of_mem batch member))
  refine ⟨next, ?_, betweenNext⟩
  simp only [Coder.encodeStream, Coder.encodeBatch, Coder.encodeRun,
    Coder.decodeStream, Coder.decodeBatch]
  rw [coder.decodeRun_append first, rest]
  simp only [Except.map, bind, Except.bind]
  rw [later]
  rfl

end Mirror

end Coding
