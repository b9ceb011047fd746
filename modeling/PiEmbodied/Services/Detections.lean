import PiEmbodied.Coding
import PiEmbodied.Runs

/-!
# Detection ids

A server keeps books of detections, and one clock for all of them.  An id is
good in the observation it was handed out in; a motion that changes what the
robot state reads, or a reset, starts a new observation.
-/

namespace PiEmbodied.Services.Detections

/-! ## Ids -/

abbrev Id := List Char

/-- What marks the kind of an id: `d` masks, `g` grasps, `p` placements. -/
structure Label where
  text : List Char
  noDigit : ∀ char ∈ text, char.isDigit = false

def Label.mask : Label := ⟨['d'], List.forall_mem_singleton.mpr rfl⟩

def Label.id (label : Label) (number : ℕ) : Id :=
  label.text ++ Nat.toDigits 10 number

theorem toDigits_injective : Function.Injective (Nat.toDigits 10) := by
  intro left right same
  calc
    left = Nat.ofDigitChars 10 (Nat.toDigits 10 left) 0 := Nat.ofDigitChars_ten_toDigits.symm
    _ = Nat.ofDigitChars 10 (Nat.toDigits 10 right) 0 := by rw [same]
    _ = right := Nat.ofDigitChars_ten_toDigits

theorem number_of_id {first second : Label} {left right : ℕ}
    (same : first.id left = second.id right) : left = right := by
  have digits : ∀ (label : Label) (number : ℕ),
      (label.id number).dropWhile (fun char => !char.isDigit) =
        Nat.toDigits 10 number := by
    intro label number
    unfold Label.id
    rw [List.dropWhile_append_of_pos fun char member => by simp [label.noDigit char member]]
    cases shape : Nat.toDigits 10 number with
    | nil => rfl
    | cons char rest =>
      have isDigit : char.isDigit = true :=
        @Nat.isDigit_of_mem_toDigits 10 number char (by decide) (by decide)
          (by rw [shape]; exact List.mem_cons_self)
      simp [isDigit]
  refine toDigits_injective ?_
  rw [← digits first, ← digits second, same]

/-! ## Books -/

structure Item (M : Type) where
  detection : M
  id : Id
  observation : ℕ

/-- The masks of the current observation, by id; `history` has the observation
of every id that the book handed out. -/
structure Book (M : Type) where
  observation : Option ℕ
  items : List (Item M)
  history : Id → Option ℕ
  selected : Option Id
  (rejected invalidated : List Id)

namespace Book

variable {M : Type}

def new : Book M where
  observation := none
  items := []
  history := fun _ => none
  selected := none
  rejected := []
  invalidated := []

def ids (book : Book M) : List Id :=
  book.items.map Item.id

def bind (book : Book M) (observation : ℕ) : Book M :=
  if book.observation = some observation then book
  else
    { book with
      observation := some observation
      items := []
      selected := none
      rejected := []
      invalidated := book.invalidated ++ book.ids }

def put (items : List (Item M)) (item : Item M) : List (Item M) :=
  if items.any fun other => other.id = item.id then
    items.map fun other => if other.id = item.id then item else other
  else items ++ [item]

def get (book : Book M) (id : Id) : Except String (Item M) :=
  match book.items.find? fun item => item.id = id with
  | some item => .ok item
  | none =>
    match book.history id with
    | none =>
      .error s!"unknown detection id {String.ofList id}; current ids: {
        book.ids.map String.ofList}"
    | some past =>
      .error s!"detection {String.ofList id} is stale: it belongs to observation {
        past}, the current observation is {
        book.observation}; segment again and use a new id"

def select (book : Book M) (id : Id) : Except String (Book M × Item M) :=
  (book.get id).map fun item =>
    ({ book with
        selected := some id
        rejected := book.rejected.erase id }, item)

def reject (book : Book M) (id : Id) : Except String (Book M × Item M) :=
  (book.get id).map fun item =>
    ({ book with
        rejected :=
          if id ∈ book.rejected then book.rejected
          else book.rejected ++ [id]
        selected := if book.selected = some id then none else book.selected },
      item)

def Refuses (book : Book M) (id : Id) : Prop :=
  (∃ error, book.get id = .error error) ∧ (∃ error, book.select id = .error error) ∧
    ∃ error, book.reject id = .error error

variable {book : Book M}

theorem refuses_of_get {id : Id} {error : String} (isRefused : book.get id = .error error) :
    book.Refuses id := by
  refine ⟨⟨error, isRefused⟩, ⟨error, ?_⟩, ⟨error, ?_⟩⟩
  · unfold select
    rw [isRefused]
    rfl
  · unfold reject
    rw [isRefused]
    rfl

variable {item : Item M}

theorem mem_of_get {id : Id} (isItem : book.get id = .ok item) :
    item ∈ book.items ∧ item.id = id := by
  unfold get at isItem
  split at isItem
  case h_1 found isFound =>
    cases isItem
    exact ⟨List.mem_of_find?_eq_some isFound,
      by simpa using List.find?_some isFound⟩
  case h_2 =>
    split at isItem
    · cases isItem
    · cases isItem

theorem mem_put {items : List (Item M)} {other : Item M} (member : other ∈ put items item) :
    other = item ∨ other ∈ items := by
  unfold put at member
  split_ifs at member
  · obtain ⟨before, isBefore, same⟩ := List.mem_map.mp member
    split_ifs at same
    · exact Or.inl same.symm
    · rw [← same]
      exact Or.inr isBefore
  · rcases List.mem_append.mp member with old | new
    · exact Or.inr old
    · exact Or.inl (List.mem_singleton.mp new)

theorem mem_put_self (items : List (Item M)) (item : Item M) : item ∈ put items item := by
  unfold put
  split_ifs with isThere
  · obtain ⟨other, member, same⟩ := List.any_eq_true.mp isThere
    refine List.mem_map.mpr ⟨other, member, ?_⟩
    exact if_pos (of_decide_eq_true same)
  · exact List.mem_append_right _ List.mem_cons_self

theorem select_keeps {next : Book M} {id : Id} (isSelected : book.select id = .ok (next, item)) :
    next.observation = book.observation ∧ next.items = book.items := by
  unfold select at isSelected
  cases isItem : book.get id with
  | error error =>
    rw [isItem] at isSelected
    cases isSelected
  | ok found =>
    rw [isItem] at isSelected
    cases isSelected
    exact ⟨rfl, rfl⟩

theorem reject_keeps {next : Book M} {id : Id} (isRejected : book.reject id = .ok (next, item)) :
    next.observation = book.observation ∧ next.items = book.items := by
  unfold reject at isRejected
  cases isItem : book.get id with
  | error error =>
    rw [isItem] at isRejected
    cases isRejected
  | ok found =>
    rw [isItem] at isRejected
    cases isRejected
    exact ⟨rfl, rfl⟩

end Book

/-- `digest` gives the fingerprint of a robot state, if there is one;
`baseline` is the fingerprint the observation started with. -/
structure Epoch (S D : Type) where
  (observation counter : ℕ)
  digest : Option (S → D)
  baseline : Option D

namespace Epoch

variable {S D : Type}

def readDigest (epoch : Epoch S D) (robot : S) (readable : Bool) : Option D :=
  match epoch.digest with
  | none => none
  | some digest => if readable then some (digest robot) else none

/-- Whether the state differs from the observation's, true when unknown. -/
def changed [DecidableEq D] (epoch : Epoch S D) (robot : S) (readable : Bool) :
    Bool :=
  match epoch.digest, epoch.baseline with
  | none, _ | _, none => true
  | some _, some baseline =>
    match epoch.readDigest robot readable with
    | none => true
    | some now => now ≠ baseline

/-- The state the ids are bound to is read when no tick has recorded one. -/
def nextId (epoch : Epoch S D) (label : Label) (robot : S) (readable : Bool) : Epoch S D × Id :=
  ({ epoch with
      baseline :=
        match epoch.baseline with
        | none => epoch.readDigest robot readable
        | some baseline => some baseline
      counter := epoch.counter + 1 },
    label.id (epoch.counter + 1))

end Epoch

/-! ## A server -/

/-- `handed` has every id that was handed out, and its observation. -/
structure Server (S D M : Type) where
  robot : S
  epoch : Epoch S D
  books : List (Book M)
  handed : List (Id × ℕ)

/-- What happens next; `readable`, `now` and `later` tell whether a reading of
the robot state succeeds. -/
inductive Event (S D M : Type) where
  /-- A book is made for the clock, and bound to its observation. -/
  | newBook
  | setDigest (digest : Option (S → D))
  | add (book : ℕ) (detection : M) (label : Label) (readable : Bool)
  | get (book : ℕ) (id : Id)
  | select (book : ℕ) (id : Id)
  | reject (book : ℕ) (id : Id)
  /-- A wrapped motion returns or raises, and has left the robot at `moved`. -/
  | motion (moved : S) (now later : Bool)
  /-- A wrapped reset. -/
  | reset (moved : S) (later : Bool)
  /-- An observation is taken, of an unmoved robot or not. -/
  | refresh (now later : Bool)
  /-- A frame shows another scene. -/
  | sceneChanged (later : Bool)

namespace Server

variable {S D M : Type}

def start (robot : S) (digest : Option (S → D)) : Server S D M where
  robot := robot
  epoch := { observation := 0, counter := 0, digest, baseline := none }
  books := []
  handed := []

def tick (server : Server S D M) (readable : Bool) : Server S D M :=
  let observation := server.epoch.observation + 1
  { server with
    epoch :=
      { server.epoch with
        observation
        baseline := server.epoch.readDigest server.robot readable }
    books := server.books.map fun book => book.bind observation }

def refresh [DecidableEq D] (server : Server S D M) (now later : Bool) :
    Server S D M :=
  if server.epoch.changed server.robot now then server.tick later else server

def withBook (server : Server S D M) (index : ℕ) (book : Book M) :
    Server S D M :=
  { server with books := server.books.set index book }

/-- `add`: a detection is registered in a book that is bound. -/
def add (server : Server S D M) (index : ℕ) (detection : M) (label : Label)
    (readable : Bool) : Server S D M :=
  match server.books[index]? with
  | none => server
  | some book =>
    match book.observation with
    | none => server
    | some observation =>
      let (epoch, id) := server.epoch.nextId label server.robot readable
      { server with
        epoch
        books := server.books.set index
          { book with
            items := Book.put book.items ⟨detection, id, observation⟩
            history := Function.update book.history id (some observation) }
        handed := server.handed ++ [(id, observation)] }

def onBook (server : Server S D M) (index : ℕ)
    (operation : Book M → Except String (Book M × Item M)) : Server S D M :=
  match server.books[index]? with
  | none => server
  | some book =>
    match operation book with
    | .error _ => server
    | .ok (book, _) => server.withBook index book

def step [DecidableEq D] (server : Server S D M) : Event S D M → Server S D M
  | .newBook =>
    { server with
      books := server.books ++ [Book.new.bind server.epoch.observation] }
  | .setDigest digest => { server with epoch := { server.epoch with digest, baseline := none } }
  | .add book detection label readable => server.add book detection label readable
  | .get _ _ => server
  | .select book id => server.onBook book fun book => book.select id
  | .reject book id => server.onBook book fun book => book.reject id
  | .motion moved now later => { server with robot := moved }.refresh now later
  | .reset moved later => { server with robot := moved }.tick later
  | .refresh now later => server.refresh now later
  | .sceneChanged later => server.tick later

def after [DecidableEq D] (server : Server S D M) (events : List (Event S D M)) :
    Server S D M :=
  Runs.after step server events

/-! ## What holds between the events -/

structure Good (server : Server S D M) : Prop where
  bound : ∀ book ∈ server.books, book.observation = some server.epoch.observation
  listed : ∀ book ∈ server.books, ∀ item ∈ book.items,
    item.observation = server.epoch.observation ∧ (item.id, item.observation) ∈ server.handed
  distinct : (server.handed.map Prod.fst).Nodup
  numbered : ∀ entry ∈ server.handed, ∃ label number,
    entry.1 = Label.id label number ∧ number ≤ server.epoch.counter
  past : ∀ entry ∈ server.handed, entry.2 ≤ server.epoch.observation
  baseline : ∀ fingerprint, server.epoch.baseline = some fingerprint →
    ∃ digest, server.epoch.digest = some digest ∧ fingerprint = digest server.robot

theorem good_start (robot : S) (digest : Option (S → D)) :
    (start robot digest : Server S D M).Good where
  bound := by simp [start]
  listed := by simp [start]
  distinct := List.nodup_nil
  numbered := by simp [start]
  past := by simp [start]
  baseline := by simp [start]

theorem readDigest_eq_some {epoch : Epoch S D} {robot : S} {readable : Bool} {fingerprint : D}
    (isRead : epoch.readDigest robot readable = some fingerprint) :
    ∃ digest, epoch.digest = some digest ∧ fingerprint = digest robot := by
  unfold Epoch.readDigest at isRead
  split at isRead
  · cases isRead
  case h_2 digest isDigest =>
    split_ifs at isRead
    cases isRead
    exact ⟨digest, isDigest, rfl⟩

variable {server : Server S D M}

theorem Good.tick (moved : S) (readable : Bool) (good : server.Good) :
    (({ server with robot := moved } : Server S D M).tick readable).Good where
  bound := by
    intro book member
    obtain ⟨before, _, rfl⟩ := List.mem_map.mp member
    unfold Book.bind
    split_ifs with same
    · exact same
    · rfl
  listed := by
    intro book member item isItem
    obtain ⟨before, isBefore, rfl⟩ := List.mem_map.mp member
    have wasBound := good.bound before isBefore
    unfold Book.bind at isItem
    rw [if_neg (by rw [wasBound]; simp)] at isItem
    cases isItem
  distinct := good.distinct
  numbered := good.numbered
  past := fun entry member => (good.past entry member).trans (Nat.le_succ _)
  baseline := fun _ isBaseline => readDigest_eq_some isBaseline

theorem Good.refresh [DecidableEq D] (moved : S) (now later : Bool) (good : server.Good) :
    (({ server with robot := moved } : Server S D M).refresh now later).Good := by
  unfold Server.refresh
  split_ifs with isChanged
  · exact good.tick moved later
  · refine ⟨good.bound, good.listed, good.distinct, good.numbered, good.past, ?_⟩
    intro fingerprint isBaseline
    replace isBaseline : server.epoch.baseline = some fingerprint := isBaseline
    obtain ⟨digest, isDigest, _⟩ := good.baseline fingerprint isBaseline
    unfold Epoch.changed at isChanged
    dsimp only at isChanged
    rw [isBaseline, isDigest] at isChanged
    dsimp only at isChanged
    split at isChanged
    · simp at isChanged
    case h_2 reading isRead =>
      obtain ⟨same, isSame, isReading⟩ := readDigest_eq_some isRead
      refine ⟨same, isSame, ?_⟩
      rw [← isReading]
      by_contra different
      exact isChanged (by simpa using Ne.symm different)

theorem Good.add (good : server.Good) (index : ℕ) (detection : M) (label : Label)
    (readable : Bool) : (server.add index detection label readable).Good := by
  unfold Server.add
  split
  · exact good
  case h_2 book isBook =>
    have member := List.mem_of_getElem? isBook
    have isBound := good.bound book member
    rw [isBound]
    dsimp only [Epoch.nextId]
    refine ⟨?_, ?_, ?_, ?_, ?_, ?_⟩
    · intro other isOther
      rcases List.mem_or_eq_of_mem_set isOther with old | rfl
      · exact good.bound other old
      · rfl
    · intro other isOther item isItem
      have older : ∀ book ∈ server.books, ∀ item ∈ book.items,
          item.observation = server.epoch.observation ∧
            (item.id, item.observation) ∈ server.handed ++
              [(label.id (server.epoch.counter + 1), server.epoch.observation)] := by
        intro book isListed item isItem
        obtain ⟨isCurrent, isHanded⟩ := good.listed book isListed item isItem
        exact ⟨isCurrent, List.mem_append_left _ isHanded⟩
      rcases List.mem_or_eq_of_mem_set isOther with old | rfl
      · exact older other old item isItem
      · rcases Book.mem_put isItem with rfl | before
        · exact ⟨rfl, List.mem_append_right _ List.mem_cons_self⟩
        · exact older book member item before
    · rw [List.map_append]
      refine List.nodup_append.mpr ⟨good.distinct, List.nodup_singleton _, ?_⟩
      rintro id isOld _ isNew rfl
      rw [List.map_singleton, List.mem_singleton] at isNew
      obtain ⟨entry, isEntry, isId⟩ := List.mem_map.mp isOld
      obtain ⟨other, number, isNumber, isSmall⟩ := good.numbered entry isEntry
      rw [isNumber, isNew] at isId
      have same := number_of_id isId
      omega
    · intro entry isEntry
      rcases List.mem_append.mp isEntry with old | new
      · obtain ⟨other, number, isNumber, isSmall⟩ := good.numbered entry old
        exact ⟨other, number, isNumber, isSmall.trans (Nat.le_succ _)⟩
      · rw [List.mem_singleton.mp new]
        exact ⟨label, server.epoch.counter + 1, rfl, le_refl _⟩
    · intro entry isEntry
      rcases List.mem_append.mp isEntry with old | new
      · exact good.past entry old
      · rw [List.mem_singleton.mp new]
    · intro fingerprint isBaseline
      dsimp only at isBaseline
      split at isBaseline
      · exact readDigest_eq_some isBaseline
      case h_2 before isBefore =>
        rw [← Option.some.inj isBaseline]
        exact good.baseline before isBefore

theorem Good.onBook (good : server.Good) (index : ℕ)
    {operation : Book M → Except String (Book M × Item M)}
    (keeps : ∀ book later item, operation book = .ok (later, item) →
      later.observation = book.observation ∧ later.items = book.items) :
    (server.onBook index operation).Good := by
  unfold Server.onBook
  split
  · exact good
  case h_2 book isBook =>
    have member := List.mem_of_getElem? isBook
    split
    · exact good
    case h_2 later item isDone =>
      obtain ⟨sameObservation, sameItems⟩ := keeps book later item isDone
      refine ⟨?_, ?_, good.distinct, good.numbered, good.past, good.baseline⟩
      · intro other isOther
        rcases List.mem_or_eq_of_mem_set isOther with old | rfl
        · exact good.bound other old
        · rw [sameObservation]
          exact good.bound book member
      · intro other isOther
        rcases List.mem_or_eq_of_mem_set isOther with old | rfl
        · exact good.listed other old
        · rw [sameItems]
          exact good.listed book member

theorem Good.step [DecidableEq D] (good : server.Good) (event : Event S D M) :
    (server.step event).Good := by
  cases event with
  | newBook =>
    refine ⟨?_, ?_, good.distinct, good.numbered, good.past, good.baseline⟩
    · intro book member
      rcases List.mem_append.mp member with old | new
      · exact good.bound book old
      · rw [List.mem_singleton.mp new]
        rfl
    · intro book member
      rcases List.mem_append.mp member with old | new
      · exact good.listed book old
      · rw [List.mem_singleton.mp new]
        intro item isItem
        cases isItem
  | setDigest digest =>
    exact ⟨good.bound, good.listed, good.distinct, good.numbered, good.past,
      fun _ isBaseline => by cases isBaseline⟩
  | add book detection label readable => exact good.add book detection label readable
  | get book id => exact good
  | select book id | reject book id =>
    refine good.onBook book fun book later item isDone => ?_
    obtain ⟨_, _, same⟩ := Coding.map_eq_ok.mp isDone
    cases same
    exact ⟨rfl, rfl⟩
  | motion moved now later => exact good.refresh moved now later
  | reset moved later => exact good.tick moved later
  | refresh now later => exact good.refresh server.robot now later
  | sceneChanged later => exact good.tick server.robot later

theorem good_after [DecidableEq D] (good : server.Good) (events : List (Event S D M)) :
    (server.after events).Good :=
  Runs.after_invariant step Good (fun _ event good => good.step event) good events

/-! ## Ids of past observations -/

theorem Good.handed_of_accepted (good : server.Good) {book : Book M} (member : book ∈ server.books)
    {id : Id} (isAccepted : ¬ book.Refuses id) :
    (id, server.epoch.observation) ∈ server.handed := by
  cases isItem : book.get id with
  | error error => exact absurd (Book.refuses_of_get isItem) isAccepted
  | ok item =>
    obtain ⟨isListed, isNamed⟩ := Book.mem_of_get isItem
    obtain ⟨isCurrent, isHanded⟩ := good.listed book member item isListed
    rwa [isNamed, isCurrent] at isHanded

theorem Good.refuses_past (good : server.Good) {entry : Id × ℕ} (isHanded : entry ∈ server.handed)
    (isPast : entry.2 < server.epoch.observation) {book : Book M}
    (member : book ∈ server.books) : book.Refuses entry.1 := by
  by_contra isAccepted
  have current := good.handed_of_accepted member isAccepted
  have same := List.inj_on_of_nodup_map good.distinct isHanded current rfl
  rw [same] at isPast
  exact lt_irrefl _ isPast

/-- What was handed out stays so, and the clock only goes on. -/
structure Later (server next : Server S D M) : Prop where
  observation : server.epoch.observation ≤ next.epoch.observation
  handed : ∀ entry ∈ server.handed, entry ∈ next.handed

theorem later_refresh [DecidableEq D] (server : Server S D M) (moved : S) (now later : Bool) :
    server.Later
      (({ server with robot := moved } : Server S D M).refresh now later) := by
  unfold Server.refresh
  split_ifs
  · exact ⟨Nat.le_succ _, fun _ member => member⟩
  · exact ⟨le_refl _, fun _ member => member⟩

theorem later_add (server : Server S D M) (index : ℕ) (detection : M) (label : Label)
    (readable : Bool) : server.Later (server.add index detection label readable) := by
  unfold Server.add
  split
  · exact ⟨le_refl _, fun _ member => member⟩
  · split
    · exact ⟨le_refl _, fun _ member => member⟩
    · exact ⟨le_refl _, fun _ member => List.mem_append_left _ member⟩

theorem later_onBook (server : Server S D M) (index : ℕ)
    (operation : Book M → Except String (Book M × Item M)) :
    server.Later (server.onBook index operation) := by
  unfold Server.onBook
  split
  · exact ⟨le_refl _, fun _ member => member⟩
  · split
    · exact ⟨le_refl _, fun _ member => member⟩
    · exact ⟨le_refl _, fun _ member => member⟩

theorem later_step [DecidableEq D] (server : Server S D M) (event : Event S D M) :
    server.Later (server.step event) := by
  cases event with
  | newBook | setDigest digest | get book id => exact ⟨le_refl _, fun _ member => member⟩
  | add book detection label readable => exact later_add server book detection label readable
  | select book id | reject book id => exact later_onBook server book _
  | motion moved now later => exact later_refresh server moved now later
  | reset moved later | sceneChanged later => exact ⟨Nat.le_succ _, fun _ member => member⟩
  | refresh now later => exact later_refresh server server.robot now later

theorem later_after [DecidableEq D] (server : Server S D M) (events : List (Event S D M)) :
    server.Later (server.after events) := by
  induction events generalizing server with
  | nil => exact ⟨le_refl _, fun _ member => member⟩
  | cons event rest ih =>
    have first := later_step server event
    have then_ := ih (server.step event)
    exact ⟨first.observation.trans then_.observation,
      fun entry member => then_.handed entry (first.handed entry member)⟩

theorem Good.expired [DecidableEq D] {next : Server S D M} (good : server.Good)
    (nextGood : next.Good) (isLater : server.Later next)
    (isNew : server.epoch.observation < next.epoch.observation) (rest : List (Event S D M)) :
    ∀ entry ∈ server.handed, ∀ book ∈ (next.after rest).books, book.Refuses entry.1 := by
  intro entry member book isBook
  have onward := later_after next rest
  refine (good_after nextGood rest).refuses_past
    (onward.handed entry (isLater.handed entry member)) ?_ isBook
  have wasPast := good.past entry member
  have goesOn := onward.observation
  omega

/-! ## Motions -/

/-- The fingerprint after a motion cannot be read, or is not the one before
it. -/
def Moved (server : Server S D M) (moved : S) (now : Bool) : Prop :=
  ∀ digest, server.epoch.digest = some digest → now = true → digest moved ≠ digest server.robot

theorem Good.changed_of_moved [DecidableEq D] (good : server.Good) {moved : S} {now : Bool}
    (isMoved : server.Moved moved now) : server.epoch.changed moved now = true := by
  unfold Epoch.changed
  split
  · rfl
  · rfl
  case h_3 digest baseline isDigest isBaseline =>
    split
    · rfl
    case h_2 reading isRead =>
      obtain ⟨same, isSame, wasRead⟩ := good.baseline baseline isBaseline
      rw [isDigest] at isSame
      cases isSame
      have isReadable : now = true ∧ digest moved = reading := by
        simpa [Epoch.readDigest, isDigest] using isRead
      obtain ⟨isNow, rfl⟩ := isReadable
      rw [wasRead]
      exact decide_eq_true (isMoved digest isDigest isNow)

end Server

/-- In every run no id is handed out twice, a book takes an id only in the
observation it was handed out in, and no book takes an id from before a motion
that changed what the robot's state reads, or from before a reset. -/
theorem ids_expire {S D M : Type} [DecidableEq D] (robot : S) (digest : Option (S → D))
    (events : List (Event S D M)) :
    let server := (Server.start robot digest : Server S D M).after events
    (server.handed.map Prod.fst).Nodup ∧
    (∀ book ∈ server.books, ∀ id, ¬ book.Refuses id →
      book.observation = some server.epoch.observation ∧
        (id, server.epoch.observation) ∈ server.handed) ∧
    (∀ moved now later rest, server.Moved moved now →
      ∀ entry ∈ server.handed,
        ∀ book ∈ ((server.step (.motion moved now later)).after rest).books, book.Refuses entry.1) ∧
    ∀ moved later rest, ∀ entry ∈ server.handed,
      ∀ book ∈ ((server.step (.reset moved later)).after rest).books, book.Refuses entry.1 := by
  intro server
  have good : server.Good := Server.good_after (Server.good_start robot digest) events
  refine ⟨good.distinct, ?_, ?_, ?_⟩
  · intro book member id isAccepted
    exact ⟨good.bound book member, good.handed_of_accepted member isAccepted⟩
  · intro moved now later rest isMoved
    have isNew : server.epoch.observation <
        (server.step (.motion moved now later)).epoch.observation := by
      simp only [Server.step, Server.refresh, good.changed_of_moved isMoved, if_true]
      exact Nat.lt_succ_self _
    exact good.expired (good.step _) (Server.later_step server _) isNew rest
  · intro moved later rest
    exact good.expired (good.step _) (Server.later_step server _) (Nat.lt_succ_self _) rest

/-- A motion below the resolution of the fingerprint, here of 0.3 mm where it
reads millimetres, keeps the ids. -/
theorem small_motion_keeps_ids :
    let server := (Server.start 0 (some fun tenths => (tenths + 5) / 10) :
      Server ℕ ℕ Unit).after [.newBook, .add 0 () .mask true]
    let next := server.step (.motion 3 true true)
    next.robot ≠ server.robot ∧
      ∃ book ∈ next.books, ∃ item, book.get ['d', '1'] = .ok item ∧
        (['d', '1'], 0) ∈ server.handed := by
  refine ⟨by decide, _, List.mem_cons_self, ⟨(), ['d', '1'], 0⟩, rfl, ?_⟩
  decide

end PiEmbodied.Services.Detections
