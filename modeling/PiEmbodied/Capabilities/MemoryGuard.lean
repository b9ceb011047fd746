import PiEmbodied.Capabilities.Memory

/-!
# What the memory guard lets through

The places that a file tool reaches when the guard lets its call through.
-/

namespace PiEmbodied.Memory

open Paths

/-! ## Texts of places -/

def slashed (path : Place) : Text := path.flatMap fun name => '/' :: name.text

variable (name : Name) (rest : Place)

theorem slashed_cons :
    slashed (name :: rest) = '/' :: name.text ++ slashed rest := by
  rw [slashed, slashed, List.flatMap_cons]

theorem slashed_head (path : Place) : slashed path = [] ∨ ∃ rest, slashed path = '/' :: rest := by
  cases path with
  | nil => exact .inl rfl
  | cons name rest =>
    rw [slashed_cons]
    exact .inr ⟨_, rfl⟩

theorem names_split {first second : Name} {left right : Text}
    (leftEnds : left = [] ∨ ∃ rest, left = '/' :: rest)
    (rightEnds : right = [] ∨ ∃ rest, right = '/' :: rest)
    (same : first.text ++ left = second.text ++ right) : first = second ∧ left = right := by
  have taken :
      ∀ (name : Name) {rest : Text},
        (rest = [] ∨ ∃ more, rest = '/' :: more) →
          (name.text ++ rest).takeWhile (fun c => c ≠ '/') = name.text := by
    intro name rest ends
    have noSlash : ∀ c ∈ name.text, decide (c ≠ '/') = true := by
      intro c member
      apply decide_eq_true
      intro isSlash
      exact name.valid.2.2.2 (isSlash ▸ member)
    rw [List.takeWhile_append_of_pos noSlash]
    rcases ends with isNil | ⟨more, isCons⟩
    · rw [isNil, List.takeWhile_nil, List.append_nil]
    · rw [isCons, List.takeWhile_cons_of_neg (by simp), List.append_nil]
  have sameText : first.text = second.text := by
    rw [← taken first leftEnds, same, taken second rightEnds]
  have sameName : first = second := by
    cases first
    cases second
    cases sameText
    rfl
  rw [sameText] at same
  exact ⟨sameName, List.append_cancel_left same⟩

theorem slashed_injective {first second : Place}
    (same : slashed first = slashed second) : first = second := by
  induction first generalizing second with
  | nil =>
    cases second with
    | nil => rfl
    | cons name rest =>
      rw [slashed_cons] at same
      cases same
  | cons name rest ih =>
    cases second with
    | nil =>
      rw [slashed_cons] at same
      cases same
    | cons other others =>
      rw [slashed_cons, slashed_cons] at same
      obtain ⟨sameName, sameRest⟩ :=
        names_split (slashed_head rest) (slashed_head others) (List.cons.inj same).2
      rw [sameName, ih sameRest]

variable {path : Place} {base : Place}

theorem prefix_of_slashed (isStart : slashed base ++ ['/'] <+: slashed path) : base <+: path := by
  obtain ⟨more, same⟩ := isStart
  induction base generalizing path with
  | nil => exact List.nil_prefix
  | cons name rest ih =>
    cases path with
    | nil =>
      rw [slashed_cons] at same
      cases same
    | cons other others =>
      rw [slashed_cons, slashed_cons, List.append_assoc] at same
      have joined :
          name.text ++ (slashed rest ++ ('/' :: more)) = other.text ++ slashed others := by
        have tail : name.text ++ slashed rest ++ ('/' :: more) = other.text ++ slashed others :=
          (List.cons.inj same).2
        rwa [List.append_assoc] at tail
      have ends : ∃ text, slashed rest ++ ('/' :: more) = '/' :: text := by
        rcases slashed_head rest with isNil | ⟨text, isCons⟩
        · rw [isNil]
          exact ⟨more, rfl⟩
        · rw [isCons]
          exact ⟨_, rfl⟩
      obtain ⟨sameName, sameRest⟩ := names_split (.inr ends) (slashed_head others) joined
      have restSame : slashed rest ++ ['/'] ++ more = slashed others := by
        rw [List.append_assoc]
        exact sameRest
      rw [sameName]
      exact List.cons_prefix_cons.mpr ⟨rfl, ih restSame⟩

theorem render_cons :
    render (name :: rest) = slashed (name :: rest) := by
  rw [render, if_neg (List.cons_ne_nil name rest)]
  rfl

theorem inside_spec (isInside : inside base path = true) : base <+: path := by
  rw [inside, Bool.or_eq_true, decide_eq_true_eq] at isInside
  rcases isInside with same | isStart
  · cases path with
    | nil =>
      cases base with
      | nil => exact List.prefix_refl []
      | cons name rest =>
        rw [render_cons, slashed_cons] at same
        have noText : name.text ++ slashed rest = [] := (List.cons.inj same).2.symm
        exact absurd (List.append_eq_nil_iff.mp noText).1 name.valid.1
    | cons first others =>
      cases base with
      | nil => exact List.nil_prefix
      | cons name rest =>
        rw [render_cons, render_cons] at same
        exact slashed_injective same ▸ List.prefix_refl _
  · have isStart' := List.isPrefixOf_iff_prefix.mp isStart
    cases base with
    | nil => exact List.nil_prefix
    | cons name rest =>
      cases path with
      | nil =>
        rw [render_cons, slashed_cons] at isStart'
        have lengths := isStart'.length_le
        simp [render] at lengths
      | cons first others =>
        rw [render_cons, render_cons] at isStart'
        exact prefix_of_slashed isStart'

/-! ## What may be reached -/

/-- The places promised to a file tool: the readable directories, the attempt
archive, the cell's inbox and own files, and what is published of the corpus. -/
inductive Promised (g : Guard) (access : Access) : Place → Prop where
  | readable {base path : Place} (notWrite : access ≠ .write)
      (isReadable : base ∈ g.readable) (isIn : base <+: path) :
      Promised g access path
  | attempts {base path : Place} (isArchive : g.attempts = some base)
      (isIn : base <+: path) : Promised g access path
  | inbox {tag : Text} {path more : Place} (isInbox : g.inbox = some tag)
      (isMore : path = g.root ++ more)
      (isOwn : ["_internal".toList, "inbox".toList, tag] <+: more.map Name.text) :
      Promised g access path
  | own {name : Name} {rest : Place} (isName : isOwn g.tag name.text = true)
      (isFile : rest = [] ∨ access = .search) :
      Promised g access (g.output ++ name :: rest)
  | published {first : Name} {rest : Place} (notWrite : access ≠ .write)
      (isPart :
        first.text ∈ READABLE ∨ isMarkdown first.text = true ∧ (rest = [] ∨ access = .search)) :
      Promised g access (g.root ++ first :: rest)

variable {g : Guard}

theorem Promised.below (promised : Promised g .search path) (more : Place) :
    Promised g .search (path ++ more) := by
  cases promised with
  | readable notWrite isReadable isIn =>
    exact .readable notWrite isReadable (isIn.trans (List.prefix_append path more))
  | attempts isArchive isIn => exact .attempts isArchive (isIn.trans (List.prefix_append path more))
  | inbox isInbox isMore isOwn =>
    apply Promised.inbox isInbox
    · rw [isMore, List.append_assoc]
    · rw [List.map_append]
      exact isOwn.trans (List.prefix_append _ _)
  | own isName _ =>
    rw [List.append_assoc, List.cons_append]
    exact .own isName (.inr rfl)
  | published notWrite isPart =>
    rw [List.append_assoc, List.cons_append]
    apply Promised.published notWrite
    rcases isPart with isReadable | ⟨isMarkdown, _⟩
    · exact .inl isReadable
    · exact .inr ⟨isMarkdown, .inr rfl⟩

/-- What a read lists besides: the corpus root and the output directory. -/
def Listed (g : Guard) (access : Access) (path : Place) : Prop :=
  access = .read ∧ (path = g.root ∨ path = g.output)

def Open (g : Guard) (access : Access) (path : Place) : Prop :=
  (access ≠ .write ∧ ∃ base ∈ g.readable, base <+: path) ∨
    ∃ base, g.attempts = some base ∧ base <+: path

def Foreign (g : Guard) (path : Place) : Prop :=
  inside g.home path = true ∧ inside g.root path = false

/-- Whether a place is in the internal part of the corpus and not in the cell's
inbox: another cell's inbox, or an archive. -/
def Internal (g : Guard) (path : Place) : Prop :=
  inside g.root path = true ∧ ∃ more, path = g.root ++ more ∧
    (more.map Name.text).head? = some "_internal".toList ∧
      ∀ tag, g.inbox = some tag → ¬ ["_internal".toList, "inbox".toList, tag] <+: more.map Name.text

theorem isOwnInbox_spec {inbox : Option Text} {parts : List Text}
    (isInbox : isOwnInbox inbox parts = true) :
    ∃ tag, inbox = some tag ∧ ["_internal".toList, "inbox".toList, tag] <+: parts := by
  rw [isOwnInbox, Option.any_eq_true] at isInbox
  obtain ⟨tag, isTag, isParts⟩ := isInbox
  rw [Bool.and_eq_true, Bool.and_eq_true, decide_eq_true_eq,
    decide_eq_true_eq, decide_eq_true_eq] at isParts
  refine ⟨tag, isTag, ?_⟩
  match parts, isParts with
  | first :: second :: third :: rest, ⟨⟨isFirst, isSecond⟩, isThird⟩ =>
    cases Option.some.inj isFirst
    cases Option.some.inj isSecond
    cases Option.some.inj isThird
    exact List.prefix_append _ rest
  | [first, second], ⟨_, isThird⟩ | [first], ⟨_, isThird⟩ | [], ⟨_, isThird⟩ => cases isThird

variable {access : Access}

theorem deniedInside_spec (isIn : inside g.root path = true)
    (passes : deniedInside path access g = none) :
    (Promised g access path ∨ Listed g access path) ∧ ¬ Internal g path := by
  obtain ⟨more, isMore⟩ := inside_spec isIn
  have parts : relative g.root path = more.map Name.text := by
    rw [relative, ← isMore, List.drop_left]
  have ownInbox : isOwnInbox g.inbox (relative g.root path) = true →
      (Promised g access path ∨ Listed g access path) ∧ ¬ Internal g path := by
    intro isInbox
    rw [parts] at isInbox
    obtain ⟨tag, isTag, isOwn⟩ := isOwnInbox_spec isInbox
    refine ⟨.inl (.inbox isTag isMore.symm isOwn), ?_⟩
    rintro ⟨_, others, isOthers, _, notOwn⟩
    rw [← isMore] at isOthers
    rw [List.append_cancel_left isOthers] at isOwn
    exact notOwn tag isTag isOwn
  rw [deniedInside] at passes
  split at passes
  · split at passes
    · rename_i isInbox
      exact ownInbox isInbox
    · cases passes
  · rename_i notWrite
    split at passes
    · rename_i isRoot
      rw [parts] at isRoot
      have noMore : more = [] := List.map_eq_nil_iff.mp (List.isEmpty_iff.mp isRoot)
      split at passes
      · rename_i isRead
        rw [noMore, List.append_nil] at isMore
        refine ⟨.inr ⟨isRead, .inl isMore.symm⟩, ?_⟩
        rintro ⟨_, others, isOthers, isHead, _⟩
        rw [← isMore] at isOthers
        have noOthers : others = [] := by
          have lengths := congrArg List.length isOthers
          rw [List.length_append] at lengths
          exact List.length_eq_zero_iff.mp (by omega)
        rw [noOthers] at isHead
        cases isHead
      · cases passes
    · split at passes
      · rename_i isPart
        rw [Bool.or_eq_true] at isPart
        rcases isPart with isPublic | isInbox
        · rw [parts] at isPublic
          cases more with
          | nil => cases isPublic
          | cons first rest =>
            rw [List.map_cons, isPublished, Bool.or_eq_true,
              decide_eq_true_eq, Bool.and_eq_true] at isPublic
            have isPart' :
                first.text ∈ READABLE ∨
                  isMarkdown first.text = true ∧ (rest = [] ∨ access = .search) := by
              rcases isPublic with isReadable | ⟨isLast, isMark⟩
              · exact .inl isReadable
              · have noRest : rest = [] :=
                  List.map_eq_nil_iff.mp (List.isEmpty_iff.mp isLast)
                exact .inr ⟨isMark, .inl noRest⟩
            rw [← isMore]
            refine ⟨.inl (.published notWrite isPart'), ?_⟩
            rintro ⟨_, others, isOthers, isHead, _⟩
            rw [← List.append_cancel_left isOthers, List.map_cons, List.head?_cons] at isHead
            rw [Option.some.inj isHead] at isPart'
            rcases isPart' with isReadable | ⟨isMark, _⟩
            · revert isReadable
              decide
            · revert isMark
              decide
        · exact ownInbox isInbox
      · cases passes

theorem deniedOutside_spec (hasTag : g.tag ≠ []) (passes : deniedOutside path access g = none) :
    (Promised g access path ∨ Listed g access path) ∧ ¬ Foreign g path := by
  rw [deniedOutside] at passes
  split at passes
  · cases passes
  · rename_i notHome
    have notForeign : ¬ Foreign g path := fun foreign => notHome foreign.1
    split at passes
    · rename_i isOutput
      rw [Bool.and_eq_true, decide_eq_true_eq, decide_eq_true_eq] at isOutput
      exact ⟨.inr ⟨isOutput.2, .inr isOutput.1⟩, notForeign⟩
    · split at passes
      · rename_i isFile
        rw [Bool.and_eq_true, decide_eq_true_eq] at isFile
        refine ⟨.inl ?_, notForeign⟩
        obtain ⟨isOutput, isName⟩ := isFile
        rcases List.eq_nil_or_concat path with isNil | ⟨dirname, last, isLast⟩
        · rw [isNil] at isName
          have noTag : ∀ text : Text, ¬ (g.tag ++ text).isPrefixOf [] = true := by
            intro text isStart
            have isNil := List.prefix_nil.mp (List.isPrefixOf_iff_prefix.mp isStart)
            exact hasTag (List.append_eq_nil_iff.mp isNil).1
          rw [basename, List.getLast?_nil, isOwn, Bool.or_eq_true,
            Bool.or_eq_true, decide_eq_true_eq] at isName
          rcases isName with (same | isStart) | isStart
          · exact absurd same.symm hasTag
          · exact absurd isStart (noTag _)
          · exact absurd isStart (noTag _)
        · rw [List.concat_eq_append] at isLast
          rw [isLast, List.dropLast_concat] at isOutput
          rw [isLast, basename, List.getLast?_concat] at isName
          rw [isLast, isOutput]
          exact .own isName (.inl rfl)
      · cases passes

theorem denied_spec (hasTag : g.tag ≠ []) (passes : denied path access g = none) :
    (Promised g access path ∨ Listed g access path) ∧
      (Open g access path ∨ ¬ Foreign g path ∧ ¬ Internal g path) := by
  rw [denied] at passes
  split at passes
  · rename_i isReadable
    rw [Bool.and_eq_true, decide_eq_true_eq, List.any_eq_true] at isReadable
    obtain ⟨notWrite, base, isBase, isInside⟩ := isReadable
    have isIn := inside_spec isInside
    exact ⟨.inl (.readable notWrite isBase isIn), .inl (.inl ⟨notWrite, base, isBase, isIn⟩)⟩
  · split at passes
    · rename_i isArchive
      rw [Option.any_eq_true] at isArchive
      obtain ⟨base, isBase, isInside⟩ := isArchive
      have isIn := inside_spec isInside
      exact ⟨.inl (.attempts isBase isIn), .inl (.inr ⟨base, isBase, isIn⟩)⟩
    · split at passes
      · rename_i isIn
        obtain ⟨reached, notInternal⟩ := deniedInside_spec isIn passes
        refine ⟨reached, .inr ⟨?_, notInternal⟩⟩
        intro foreign
        rw [foreign.2] at isIn
        cases isIn
      · rename_i notIn
        obtain ⟨reached, notForeign⟩ := deniedOutside_spec hasTag passes
        refine ⟨reached, .inr ⟨notForeign, ?_⟩⟩
        intro internal
        exact notIn internal.1

/-! ## Calls let through -/

/-- Whether what a tool opens is at the path it was given, read without crossing
a link: a missing file is not read under another spelling, and a dangling link
written through has no `..` that cancels a link. -/
def AsGiven (host : Host) (tree : Paths.Tree Name) (extra : ℕ) (tool : Tool) (path : Place) : Prop :=
  match tool with
  | .read =>
    (walk tree maxLinks [] (ofNames path)).found = none →
      ∀ spelling ∈ host.spellings path, (walk tree maxLinks [] (ofNames spelling)).found = none
  | .write | .edit => plain tree extra path = true
  | _ => True

variable {tree : Paths.Tree Name} {place : Place}

theorem canonical_of_found (extra : ℕ)
    (isFound : (walk tree maxLinks [] (ofNames path)).found = some place) :
    canonical tree extra path = some place := by
  have isReal : realpathSync tree extra path = some place := by
    revert isFound
    cases isWalk : walk tree maxLinks [] (ofNames path) with
    | reached other after =>
      intro isFound
      cases isFound
      exact realpath_of_walk extra (Nat.le_refl _) isWalk
    | creates other | fails =>
      intro isFound
      cases isFound
  rw [canonical, canonicalFrom_eq]
  rcases List.eq_nil_or_concat path with isNil | ⟨dirname, last, isLast⟩
  · have atRoot : realpathSync tree extra [] = some [] :=
      realpath_of_walk extra (Nat.zero_le maxLinks) (walk_nil tree 0 [])
    rw [isNil, atRoot] at isReal
    rw [isNil, ← isReal]
    rfl
  · rw [List.concat_eq_append] at isLast
    rw [isLast] at isReal ⊢
    rw [List.reverse_append, List.reverse_singleton, List.singleton_append,
      canonicalWith, List.reverse_reverse, isReal]
    dsimp only
    rw [List.append_nil]

variable {extra : ℕ}

/-- A path that creates an object has its place as its canonical path, unless a
`..` of a dangling link on its way cancels a link. -/
theorem canonical_of_place (isPlace : (walk tree maxLinks [] (ofNames path)).place = some place)
    (isPlain : plain tree extra path = true) : canonical tree extra path = some place := by
  apply canonicalFrom_right (Nat.le_refl 40) (Nat.le_refl maxLinks)
  · trivial
  · rw [List.reverse_reverse]
    have noTail : ofNames path ++ ofNames [] = ofNames path := List.append_nil _
    rw [noTail]
    exact isPlace
  · exact isPlain

theorem canonicalPath_of_opens {host : Host} {extra : ℕ} {cwd : Place} {tool : Tool} {input : Text}
    (isOpened : opens host tree cwd tool input = some place)
    (asGiven : ∀ p, expand host input = some p → AsGiven host tree extra tool (resolve cwd p)) :
    canonicalPath host tree extra cwd input = some place := by
  rw [opens, Option.bind_eq_some_iff] at isOpened
  obtain ⟨p, isText, isPlace⟩ := isOpened
  have given := asGiven p isText
  rw [canonicalPath, isText, Option.bind_some]
  cases tool with
  | read =>
    rw [AsGiven] at given
    dsimp only at isPlace
    rw [readsAt, List.findSome?_cons] at isPlace
    split at isPlace
    · rename_i isFound
      rw [← isPlace]
      exact canonical_of_found extra isFound
    · rename_i isMissing
      rw [List.findSome?_eq_none_iff.mpr (given isMissing)] at isPlace
      cases isPlace
  | ls | grep | find => exact canonical_of_found extra isPlace
  | write | edit => exact canonical_of_place isPlace given

structure Guarded (g : Guard) (access : Access) (place : Place) : Prop where
  reached : Promised g access place ∨ Listed g access place
  below : access = .search → ∀ more : Place, Promised g access (place ++ more)
  kept : Open g access place ∨ ¬ Foreign g place ∧ ¬ Internal g place

theorem guarded_of_denied {path : Place} {access : Access} {g : Guard} (hasTag : g.tag ≠ [])
    (passes : denied path access g = none) : Guarded g access path := by
  obtain ⟨reached, kept⟩ := denied_spec hasTag passes
  refine ⟨reached, ?_, kept⟩
  intro isSearch more
  rcases reached with promised | listed
  · rw [isSearch] at promised ⊢
    exact promised.below more
  · have isRead := listed.1
    rw [isSearch] at isRead
    cases isRead

def plainHost : Host := ⟨"/root".toList, fun _ => none, fun _ => []⟩

def placeOf (text : String) : Place := resolve [] text.toList

def treeOf (nodes : List (Place × Node Name)) : Paths.Tree Name where
  node path :=
    if path = [] then some .dir
    else (nodes.find? fun entry => entry.1 = path).map Prod.snd
  root := rfl

def cellGuard : Guard where
  root := placeOf "/m/libero"
  home := placeOf "/m"
  output := placeOf "/tmp/run"
  tag := "10_t2_s0".toList
  inbox := none
  attempts := none
  readable := []

def cellTree : Paths.Tree Name :=
  treeOf [(placeOf "/tmp", .dir), (placeOf "/tmp/run", .dir)]

end PiEmbodied.Memory
