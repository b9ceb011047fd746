import PiEmbodied.Paths

/-!
# The memory boundary

The canonical path of what a file tool is given, and the guard that decides by
it whether the tool may run.
-/

namespace PiEmbodied.Memory

open Paths

abbrev Text := List Char

structure Name where
  text : Text
  valid : text ≠ [] ∧ text ≠ ['.'] ∧ text ≠ ['.', '.'] ∧ '/' ∉ text
  deriving DecidableEq

abbrev Place := Path Name

/-! ## Texts of paths -/

structure Host where
  homedir : Text
  fileURLToPath : Text → Option Text
  /-- The other spellings of a missing path that `read` tries. -/
  spellings : List Name → List (List Name)

def isUnicodeSpace (c : Char) : Bool :=
  c = '\u00A0' || ('\u2000' ≤ c && c ≤ '\u200A') || c = '\u202F' ||
    c = '\u205F' || c = '\u3000'

def fileURL : Text := ['f', 'i', 'l', 'e', ':', '/', '/']

def expand (host : Host) (input : Text) : Option Text :=
  let p := if input = [] then ['.'] else input
  let p := p.map fun c => if isUnicodeSpace c then ' ' else c
  let p := if p.head? = some '@' then p.drop 1 else p
  let p :=
    if p = ['~'] ∨ ['~', '/'].isPrefixOf p then host.homedir ++ p.drop 1
    else p
  if fileURL.isPrefixOf p then host.fileURLToPath p else some p

/-- A part between two separators; an empty one and `.` are none. -/
def partOf (segment : Text) : Option (Paths.Part Name) :=
  if segment = ['.', '.'] then some .up
  else if valid :
      segment ≠ [] ∧ segment ≠ ['.'] ∧ segment ≠ ['.', '.'] ∧ '/' ∉ segment then
    some (.name ⟨segment, valid⟩)
  else none

def partsOf (text : Text) : List (Paths.Part Name) :=
  (text.splitOn '/').filterMap partOf

/-- `resolve(cwd, p)` -/
def resolve (cwd : Place) (p : Text) : Place :=
  lexical (if p.head? = some '/' then [] else cwd) (partsOf p)

def maxLinks : ℕ := 40

section Canonical

variable (tree : Paths.Tree Name) (extra : ℕ)

/-- `realpathSync`, which follows some links more. -/
def realpathSync (path : Place) : Option Place :=
  (walk tree (maxLinks + extra) [] (ofNames path)).found

def readlinkSync (dirname : Place) (basename : Name) : Option (Link Name) :=
  match (walk tree maxLinks [] (ofNames dirname)).found with
  | none => none
  | some dir =>
    if tree.isDir dir then tree.linkAt (dir ++ [basename]) else none

/-- `resolve(dirname(head), link)` -/
def resolveLink (dirname : Place) (link : Link Name) : Place :=
  lexical (link.base dirname) link.parts

/-- The loop up to the next link followed; the head is given from its last
name. -/
def canonicalWith (hop : Place → List Name → Option Place) : List Name → List Name → Option Place
  | [], tail => some tail
  | basename :: dirname, tail =>
    match realpathSync tree extra (dirname.reverse ++ [basename]) with
    | some real => some (real ++ tail)
    | none =>
      match readlinkSync tree dirname.reverse basename with
      | some link => hop (resolveLink dirname.reverse link) tail
      | none => canonicalWith hop dirname (basename :: tail)

def canonicalFrom : ℕ → List Name → List Name → Option Place
  | 0 => canonicalWith tree extra fun _ _ => none
  | hops + 1 => canonicalWith tree extra fun head tail => canonicalFrom hops head.reverse tail

def canonical (path : Place) : Option Place :=
  canonicalFrom tree extra 40 path.reverse []

end Canonical

def canonicalPath (host : Host) (tree : Paths.Tree Name) (extra : ℕ) (cwd : Place)
    (input : Text) : Option Place :=
  (expand host input).bind fun p => canonical tree extra (resolve cwd p)

/-! ## The boundary -/

inductive Access where
  | read
  | search
  | write
  deriving DecidableEq

inductive Tool where
  | read
  | ls
  | grep
  | find
  | write
  | edit
  deriving DecidableEq

def Tool.access : Tool → Access
  | .read | .ls => .read
  | .grep | .find => .search
  | .write | .edit => .write

structure Guard where
  (root home output : Place)
  tag : Text
  inbox : Option Text
  attempts : Option Place
  readable : List Place
  deriving DecidableEq

def render (path : Place) : Text :=
  if path = [] then ['/']
  else path.flatMap fun name => '/' :: name.text

/-- `path === base || path.startsWith(base + sep)` -/
def inside (base path : Place) : Bool :=
  render path = render base ||
    (render base ++ ['/']).isPrefixOf (render path)

def READABLE : List Text :=
  ["global", "suite", "task_only", "results"].map String.toList

def basename (path : Place) : Text :=
  match path.getLast? with
  | none => []
  | some name => name.text

/-- `relative(root, path)` split, for a path inside the root. -/
def relative (root path : Place) : List Text :=
  (path.drop root.length).map Name.text

def isOwn (tag name : Text) : Bool :=
  name = tag || (tag ++ ['.']).isPrefixOf name ||
    (tag ++ ['_']).isPrefixOf name

def isOwnInbox (inbox : Option Text) (parts : List Text) : Bool :=
  inbox.any fun tag =>
    parts[0]? = some "_internal".toList && parts[1]? = some "inbox".toList && parts[2]? = some tag

def isMarkdown (name : Text) : Bool :=
  ".md".toList.isSuffixOf name

def isPublished (parts : List Text) : Bool :=
  match parts with
  | [] => false
  | first :: rest => first ∈ READABLE || (rest.isEmpty && isMarkdown first)

inductive Denial where
  | anotherRobot (path : Place)
  | onlyOwn (tag : Text) (output path : Place)
  | writing (path : Place)
  | memoryRoot (path : Place)
  | reading (path : Place)
  deriving DecidableEq

def deniedOutside (path : Place) (access : Access) (g : Guard) :
    Option Denial :=
  if inside g.home path then some (.anotherRobot path)
  else if path = g.output && access = .read then none
  else if path.dropLast = g.output && isOwn g.tag (basename path) then none
  else some (.onlyOwn g.tag g.output path)

def deniedInside (path : Place) (access : Access) (g : Guard) :
    Option Denial :=
  let parts := relative g.root path
  if access = .write then
    if isOwnInbox g.inbox parts then none else some (.writing path)
  else if parts.isEmpty then
    if access = .read then none else some (.memoryRoot path)
  else if isPublished parts || isOwnInbox g.inbox parts then none
  else some (.reading path)

def denied (path : Place) (access : Access) (g : Guard) : Option Denial :=
  if access ≠ .write && g.readable.any fun base => inside base path then none
  else if g.attempts.any fun base => inside base path then none
  else if inside g.root path then deniedInside path access g
  else deniedOutside path access g

inductive Block where
  | disabled
  | denied (denial : Denial)
  /-- A path with too many links. -/
  | threw
  deriving DecidableEq

def canonicalAll (host : Host) (tree : Paths.Tree Name) (extra : ℕ) (cwd : Place)
    (inputs : List Text) : Option (List Place) :=
  (inputs.filter fun input => !input.isEmpty).mapM (canonicalPath host tree extra cwd)

/-- The guard of a file tool's call.  A session without a guard, or without an
absolute root of it, lets nothing through. -/
def toolCall (host : Host) (tree : Paths.Tree Name) (extra : ℕ) (cwd : Place)
    (guard_ : Option Guard) (readable : List Text) (tool : Tool) (input : Text) : Option Block :=
  match guard_ with
  | none => some .disabled
  | some g =>
    if g.tag = [] then some .disabled
    else
      match canonicalAll host tree extra cwd readable with
      | none => some .threw
      | some bases =>
        match canonicalPath host tree extra cwd input with
        | none => some .threw
        | some path => (denied path tool.access { g with readable := bases }).map Block.denied

/-- Where `read` finds a file: at the path, or else at the first other spelling
of it that is there. -/
def readsAt (host : Host) (tree : Paths.Tree Name) (path : Place) : Option Place :=
  (path :: host.spellings path).findSome? fun spelling =>
    (walk tree maxLinks [] (ofNames spelling)).found

/-- What a tool opens: `write` and `edit` may create it. -/
def opens (host : Host) (tree : Paths.Tree Name) (cwd : Place) (tool : Tool)
    (input : Text) : Option Place :=
  (expand host input).bind fun p =>
    let outcome := walk tree maxLinks [] (ofNames (resolve cwd p))
    match tool with
    | .read => readsAt host tree (resolve cwd p)
    | .write | .edit => outcome.place
    | _ => outcome.found

/-- Whether a `..` cancels a name that is a link. -/
def crosses (tree : Paths.Tree Name) : Place → List (Paths.Part Name) → Bool
  | _, [] => false
  | base, .name name :: rest => crosses tree (base ++ [name]) rest
  | base, .up :: rest =>
    (match base.getLast? with
      | none => false
      | some last => (readlinkSync tree base.dropLast last).isSome) ||
      crosses tree base.dropLast rest

section Plain

variable (tree : Paths.Tree Name) (extra : ℕ)

/-- Whether no `..` of a dangling link up to the next one followed cancels a
link. -/
def plainWith (hop : Place → Bool) : List Name → Bool
  | [] => true
  | basename :: dirname =>
    match realpathSync tree extra (dirname.reverse ++ [basename]) with
    | some _ => true
    | none =>
      match readlinkSync tree dirname.reverse basename with
      | some link =>
        !crosses tree (link.base dirname.reverse) link.parts &&
          hop (resolveLink dirname.reverse link)
      | none => plainWith hop dirname

def plainFrom : ℕ → List Name → Bool
  | 0 => plainWith tree extra fun _ => true
  | hops + 1 => plainWith tree extra fun head => plainFrom hops head.reverse

/-- Whether no `..` in the text of a dangling link that a path goes through
cancels a name that is itself a link. -/
def plain (path : Place) : Bool :=
  plainFrom tree extra 40 path.reverse

end Plain

/-! ## Canonical paths are where paths lead -/

variable {tree : Paths.Tree Name} {left : ℕ} {place : Place} {path : Place} {after : ℕ}

theorem realpath_of_walk (extra : ℕ) (few : left ≤ maxLinks)
    (leads : walk tree left [] (ofNames path) = .reached place after) :
    realpathSync tree extra path = some place := by
  have isSome : walk tree left [] (ofNames path) ≠ .fails := by
    rw [leads]
    intro fails
    cases fails
  have enough : left ≤ maxLinks + extra := Nat.le_add_right_of_le few
  rw [realpathSync, walk_atLeast tree enough isSome, leads]
  rfl

variable {extra : ℕ}

theorem walk_of_realpath
    (few : left ≤ maxLinks) (isReal : realpathSync tree extra path = some place)
    (leads : walk tree left [] (ofNames path) ≠ .fails) :
    ∃ after, walk tree left [] (ofNames path) = .reached place after := by
  have enough : left ≤ maxLinks + extra := Nat.le_add_right_of_le few
  rw [realpathSync, walk_atLeast tree enough leads, found_more] at isReal
  revert isReal
  cases walk tree left [] (ofNames path) with
  | reached other after =>
    intro isReal
    cases isReal
    exact ⟨after, rfl⟩
  | creates other | fails =>
    intro isReal
    cases isReal

variable {dirname : Place}

theorem readlink_of_walk (few : left ≤ maxLinks) {dir : Place}
    (leads : walk tree left [] (ofNames dirname) = .reached dir after)
    (isDir : tree.isDir dir = true) (basename : Name) :
    readlinkSync tree dirname basename = tree.linkAt (dir ++ [basename]) := by
  have isSome : walk tree left [] (ofNames dirname) ≠ .fails := by
    rw [leads]
    intro fails
    cases fails
  rw [readlinkSync, walk_atLeast tree few isSome, leads]
  dsimp only [Outcome.more, Outcome.found]
  rw [if_pos isDir]

variable {rest : List (Paths.Part Name)}

/-- Text resolved without looking at the tree leads where it leads, unless a
`..` cancels a link. -/
theorem walk_lexical (few : left ≤ maxLinks) {parts : List (Paths.Part Name)} {base : Place}
    (leads : walk tree left [] (ofNames base ++ (parts ++ rest)) ≠ .fails)
    (straight : crosses tree base parts = false) :
    walk tree left [] (ofNames (lexical base parts) ++ rest) =
      walk tree left [] (ofNames base ++ (parts ++ rest)) := by
  induction parts generalizing base with
  | nil => rfl
  | cons part others ih =>
    cases part with
    | name name =>
      have joined :
          ofNames base ++ (.name name :: others ++ rest) =
            ofNames (base ++ [name]) ++ (others ++ rest) := by
        rw [ofNames_append, List.append_assoc]
        rfl
      rw [joined] at leads ⊢
      rw [crosses] at straight
      exact ih leads straight
    | up =>
      rw [crosses, Bool.or_eq_false_iff] at straight
      obtain ⟨notLink, straightRest⟩ := straight
      rw [lexical]
      rcases List.eq_nil_or_concat base with
        isNil | ⟨dirname, last, isConcat⟩
      · rw [isNil] at leads straightRest ⊢
        have climbs :
            walk tree left [] (ofNames [] ++ (.up :: others ++ rest)) =
              walk tree left [] (ofNames [] ++ (others ++ rest)) := by
          have isDir : tree.isDir [] = true := by rw [Tree.isDir, tree.root]
          exact (walk_up tree left [] (others ++ rest)).trans (if_pos isDir)
        rw [climbs] at leads ⊢
        exact ih leads straightRest
      · rw [List.concat_eq_append] at isConcat
        rw [isConcat] at leads notLink straightRest ⊢
        rw [List.dropLast_concat] at straightRest ⊢
        rw [List.getLast?_concat, List.dropLast_concat] at notLink
        dsimp only at notLink
        have joined :
            ofNames (dirname ++ [last]) ++ (.up :: others ++ rest) =
              ofNames dirname ++ (.name last :: .up :: (others ++ rest)) := by
          rw [ofNames_append, List.append_assoc]
          rfl
        have climbs :
            walk tree left [] (ofNames (dirname ++ [last]) ++ (.up :: others ++ rest)) =
              walk tree left [] (ofNames dirname ++ (others ++ rest)) := by
          rw [joined] at leads ⊢
          rw [walk_append] at leads
          rw [walk_append, walk_append]
          cases isStart : walk tree left [] (ofNames dirname) with
          | fails => rfl
          | creates path =>
            rw [isStart] at leads
            exact absurd rfl leads
          | reached dir after =>
            rw [isStart] at leads
            dsimp only [Outcome.andThen] at leads ⊢
            rw [walk_name] at leads ⊢
            split at leads
            · rename_i isDir
              rw [if_pos isDir]
              have isLink := readlink_of_walk few isStart isDir last
              rw [isLink, Tree.linkAt] at notLink
              cases isNode : tree.node (dir ++ [last]) with
              | none =>
                rw [isNode] at leads
                exact absurd rfl leads
              | some node =>
                rw [isNode] at leads notLink
                cases node with
                | dir =>
                  have isDir' : tree.isDir (dir ++ [last]) = true := by rw [Tree.isDir, isNode]
                  dsimp only
                  rw [walk_up, if_pos isDir', List.dropLast_concat]
                | file =>
                  have notDir : tree.isDir (dir ++ [last]) = false := by rw [Tree.isDir, isNode]
                  dsimp only at leads
                  rw [walk_up, notDir] at leads
                  exact absurd rfl leads
                | link link => cases notLink
            · exact absurd rfl leads
        rw [climbs] at leads ⊢
        exact ih leads straightRest

/-- The tail that the loop carries: nothing, or names of which the first is not
there, or the head itself is not there. -/
def Settled (tree : Paths.Tree Name) (extra : ℕ) (head : Place) : List Name → Prop
  | [] => True
  | first :: _ =>
    realpathSync tree extra head = none ∨
      (realpathSync tree extra (head ++ [first]) = none ∧ readlinkSync tree head first = none)

variable {tail : List Name}

theorem place_of_settled (few : left ≤ maxLinks) {head real : Place}
    (isReal : realpathSync tree extra head = some real) (settled : Settled tree extra head tail)
    (leads : (walk tree left [] (ofNames head ++ ofNames tail)).place = some place) :
    place = real ++ tail := by
  have goes := ne_fails_of_place leads
  obtain ⟨after, isHead⟩ := walk_of_realpath few isReal (start_ne_fails goes)
  rw [walk_append, isHead] at leads
  cases tail with
  | nil =>
    have isPlace : (walk tree after real []).place = some place := leads
    rw [walk_nil] at isPlace
    rw [List.append_nil]
    exact (Option.some.inj isPlace).symm
  | cons first rest =>
    obtain ⟨notReal, notLink⟩ : realpathSync tree extra (head ++ [first]) =
        none ∧ readlinkSync tree head first = none := by
      rcases settled with isNone | both
      · rw [isReal] at isNone
        cases isNone
      · exact both
    have isPlace :
        (walk tree after real (.name first :: ofNames rest)).place =
          some place :=
      leads
    rw [walk_name] at isPlace
    split at isPlace
    · rename_i isDir
      have isLink := readlink_of_walk few isHead isDir first
      rw [isLink, Tree.linkAt] at notLink
      have extends_ :
          ∀ node, tree.node (real ++ [first]) = some node →
            (∀ link, node ≠ .link link) → False := by
        intro node isNode noLink
        have isNext :
            walk tree left [] (ofNames (head ++ [first])) = .reached (real ++ [first]) after := by
          rw [ofNames_append, walk_append, isHead]
          have next : walk tree after real [.name first] = .reached (real ++ [first]) after := by
            rw [walk_name, if_pos isDir, isNode]
            cases node with
            | dir | file => exact walk_nil tree after _
            | link link => exact absurd rfl (noLink link)
          exact next
        rw [realpath_of_walk extra few isNext] at notReal
        cases notReal
      cases isNode : tree.node (real ++ [first]) with
      | none =>
        rw [isNode] at isPlace
        dsimp only at isPlace
        rw [creating, names_ofNames] at isPlace
        have same : real ++ [first] ++ rest = place := Option.some.inj isPlace
        rw [← same, List.append_assoc]
        rfl
      | some node =>
        rw [isNode] at notLink
        cases node with
        | dir => exact (extends_ .dir isNode fun _ same => by cases same).elim
        | file => exact (extends_ .file isNode fun _ same => by cases same).elim
        | link link => cases notLink
    · cases isPlace

def hopFrom (tree : Paths.Tree Name) (extra : ℕ) : ℕ → Place → List Name → Option Place
  | 0 => fun _ _ => none
  | hops + 1 => fun head tail => canonicalFrom tree extra hops head.reverse tail

theorem canonicalFrom_eq (tree : Paths.Tree Name) (extra hops : ℕ) :
    canonicalFrom tree extra hops = canonicalWith tree extra (hopFrom tree extra hops) := by
  cases hops with
  | zero | succ hops => rfl

def plainHop (tree : Paths.Tree Name) (extra : ℕ) : ℕ → Place → Bool
  | 0 => fun _ => true
  | hops + 1 => fun head => plainFrom tree extra hops head.reverse

theorem plainFrom_eq (tree : Paths.Tree Name) (extra hops : ℕ) :
    plainFrom tree extra hops = plainWith tree extra (plainHop tree extra hops) := by
  cases hops with
  | zero | succ hops => rfl

variable {link : Link Name}

theorem walk_link (few : left ≤ maxLinks) {basename : Name} {link : Link Name}
    (isLink : readlinkSync tree dirname basename = some link) {rest : List (Paths.Part Name)}
    (leads : walk tree left [] (ofNames (dirname ++ [basename]) ++ rest) ≠ .fails) :
    ∃ fewer count, fewer + 1 ≤ left ∧
      walk tree fewer [] (ofNames (link.base dirname) ++ (link.parts ++ rest)) =
        (walk tree left [] (ofNames (dirname ++ [basename]) ++ rest)).more count := by
  have joined :
      ofNames (dirname ++ [basename]) ++ rest = ofNames dirname ++ (.name basename :: rest) := by
    rw [ofNames_append, List.append_assoc]
    rfl
  rw [joined] at leads ⊢
  have isStart := start_ne_fails leads
  rw [walk_append] at leads ⊢
  rw [readlinkSync, walk_atLeast tree few isStart, found_more] at isLink
  cases isDirname : walk tree left [] (ofNames dirname) with
  | fails => exact absurd isDirname isStart
  | creates path =>
    rw [isDirname] at isLink
    cases isLink
  | reached dir after =>
    rw [isDirname] at leads isLink
    dsimp only [Outcome.andThen, Outcome.found] at leads isLink ⊢
    split at isLink
    · rename_i isDir
      rw [Tree.linkAt] at isLink
      have isNode : tree.node (dir ++ [basename]) = some (.link link) := by
        split at isLink
        · rename_i isNode
          rw [isNode, Option.some.inj isLink]
        · cases isLink
      have followed :
          walk tree after dir (.name basename :: rest) =
            follow tree after (link.base dir) (link.parts ++ rest) := by
        rw [walk_name, if_pos isDir, isNode]
      rw [followed] at leads ⊢
      cases after with
      | zero => exact absurd rfl leads
      | succ after =>
        have isLess := left_le tree isDirname
        obtain ⟨fewer, rfl⟩ : ∃ fewer, left = fewer + 1 :=
          ⟨left - 1, by omega⟩
        have goes :
            walk tree after (link.base dir) (link.parts ++ rest) ≠
              .fails :=
          leads
        have start := walk_less tree isDirname
        rw [follow]
        rw [Link.base] at goes ⊢
        rw [Link.base]
        cases isAbsolute : link.absolute with
        | true =>
          rw [isAbsolute, if_pos rfl] at goes
          rw [if_pos rfl, if_pos rfl]
          have enough : after ≤ fewer := by omega
          exact ⟨fewer, fewer - after, Nat.le_refl _, walk_atLeast tree enough goes⟩
        | false =>
          rw [if_neg Bool.false_ne_true, if_neg Bool.false_ne_true]
          refine ⟨fewer, 0, Nat.le_refl _, ?_⟩
          rw [more_zero, walk_append, start]
          rfl
    · cases isLink

theorem realpath_dangling (few : left ≤ maxLinks) {basename : Name}
    (notReal : realpathSync tree extra (dirname ++ [basename]) = none)
    (isLink : readlinkSync tree dirname basename = some link)
    (leads : walk tree left [] (ofNames (dirname ++ [basename])) ≠ .fails)
    (straight : crosses tree (link.base dirname) link.parts = false) :
    realpathSync tree extra (resolveLink dirname link) = none := by
  rw [← List.append_nil (ofNames (dirname ++ [basename]))] at leads
  obtain ⟨fewer, count, isLess, sameWalk⟩ := walk_link few isLink leads
  have fewLinks : fewer ≤ maxLinks := Nat.le_trans (Nat.le_of_succ_le isLess) few
  have goes := more_ne_fails leads count
  rw [← sameWalk] at goes
  have sameText := walk_lexical fewLinks goes straight
  rw [sameWalk, List.append_nil, List.append_nil] at sameText
  rw [List.append_nil] at leads
  cases isReal : realpathSync tree extra (resolveLink dirname link) with
  | none => rfl
  | some real =>
    have goesOn : walk tree fewer [] (ofNames (resolveLink dirname link)) ≠
        .fails := by
      rw [resolveLink, sameText]
      exact more_ne_fails leads count
    obtain ⟨after, isReached⟩ := walk_of_realpath fewLinks isReal goesOn
    rw [resolveLink, sameText] at isReached
    cases isLinkWalk : walk tree left [] (ofNames (dirname ++ [basename])) with
    | fails => exact absurd isLinkWalk leads
    | creates place =>
      rw [isLinkWalk] at isReached
      cases isReached
    | reached place others =>
      rw [realpath_of_walk extra few isLinkWalk] at notReal
      cases notReal

/-- A path that leads somewhere has the place it leads to as its canonical path,
unless it goes through a dangling link whose `..` cancels a link. -/
theorem canonicalFrom_right
    {hops : ℕ} (enough : left ≤ hops) (few : left ≤ maxLinks) {head : List Name}
    (settled : Settled tree extra head.reverse tail)
    (leads : (walk tree left [] (ofNames head.reverse ++ ofNames tail)).place = some place)
    (straight : plainFrom tree extra hops head = true) :
    canonicalFrom tree extra hops head tail = some place := by
  induction hops using Nat.strongRecOn generalizing left head tail with
  | ind hops fewerHops =>
    have hopRight :
        ∀ {fewer : ℕ} {target : Place} {others : List Name}, fewer + 1 ≤ left →
          Settled tree extra target others →
          (walk tree fewer [] (ofNames target ++ ofNames others)).place = some place →
          plainHop tree extra hops target = true →
          hopFrom tree extra hops target others = some place := by
      intro fewer target others isLess isSettled isPlace isPlain
      cases hops with
      | zero =>
        have none_ : fewer + 1 ≤ 0 := Nat.le_trans isLess enough
        exact absurd none_ (Nat.not_succ_le_zero fewer)
      | succ hops =>
        apply fewerHops hops (Nat.lt_succ_self hops)
        · exact Nat.le_of_succ_le_succ (Nat.le_trans isLess enough)
        · exact Nat.le_trans (Nat.le_of_succ_le isLess) few
        · rw [List.reverse_reverse]
          exact isSettled
        · rw [List.reverse_reverse]
          exact isPlace
        · exact isPlain
    rw [canonicalFrom_eq]
    rw [plainFrom_eq] at straight
    induction head generalizing tail with
    | nil =>
      have isReal : realpathSync tree extra [] = some [] :=
        realpath_of_walk extra (Nat.zero_le maxLinks) (walk_nil tree 0 [])
      rw [place_of_settled few isReal settled leads]
      rfl
    | cons basename dirname ih =>
      rw [List.reverse_cons] at settled leads
      rw [canonicalWith]
      rw [plainWith] at straight
      cases isReal : realpathSync tree extra (dirname.reverse ++ [basename]) with
      | some real => rw [place_of_settled few isReal settled leads]
      | none =>
        rw [isReal] at straight
        dsimp only at straight ⊢
        cases isLink : readlinkSync tree dirname.reverse basename with
        | none =>
          rw [isLink] at straight
          apply ih
          · exact Or.inr ⟨isReal, isLink⟩
          · rw [← leads, ofNames_append, List.append_assoc]
            rfl
          · exact straight
        | some link =>
          rw [isLink] at straight
          dsimp only at straight ⊢
          rw [Bool.and_eq_true, Bool.not_eq_true'] at straight
          have goes := ne_fails_of_place leads
          obtain ⟨fewer, count, isLess, sameWalk⟩ := walk_link few isLink goes
          have goesOn := more_ne_fails goes count
          rw [← sameWalk] at goesOn
          have fewLinks : fewer ≤ maxLinks := Nat.le_trans (Nat.le_of_succ_le isLess) few
          have sameText := walk_lexical fewLinks goesOn straight.1
          apply hopRight isLess _ _ straight.2
          · cases tail with
            | nil => trivial
            | cons first rest =>
              apply Or.inl
              exact realpath_dangling few isReal isLink (start_ne_fails goes) straight.1
          · rw [resolveLink, sameText, sameWalk, place_more]
            exact leads

end PiEmbodied.Memory
