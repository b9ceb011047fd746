import PiEmbodied.Capabilities.Operator
import PiEmbodied.Motormind.Mission

/-!
# Words of a step

What the planner reads off the words of its steps: whether a step acts, whether
it opens the gripper with nowhere to put down, and whether two target phrases
name the same object.  The source writes these tests as regular expressions;
here each is a search over the positions of a text.
-/

namespace PiEmbodied.Motormind.Planner

open Operator (isSpace trim)

/-! ## Searching a text -/

/-- The `i` flag: only ASCII letters match across case. -/
def foldCase (c : Char) : Char :=
  if 'A' ≤ c ∧ c ≤ 'Z' then Char.ofNat (c.toNat + 32) else c

def folded (text : String) : List Char :=
  text.toList.map foldCase

/-- A test that holds at some position, told the character before it and the
rest from it on. -/
def anywhere (test : Option Char → List Char → Bool) : Option Char → List Char → Bool
  | before, [] => test before []
  | before, c :: rest => test before (c :: rest) || anywhere test (some c) rest

def startsWord (before : Option Char) : Bool :=
  !before.any isWordChar

def beginsWith (rest : List Char) (phrase : String) : Bool :=
  phrase.toList.isPrefixOf rest

def beginsWithWhole (rest : List Char) (phrase : String) : Bool :=
  beginsWith rest phrase && !(rest.drop phrase.length).head?.any isWordChar

/-- `/\b(…)\w*\b/i`. -/
def hasBeginning (beginnings : List String) (text : String) : Bool :=
  anywhere
    (fun before rest => startsWord before && beginnings.any (beginsWith rest))
    none (folded text)

/-- `/\b(…)\b/i`. -/
def hasWhole (words : List String) (text : String) : Bool :=
  anywhere
    (fun before rest => startsWord before && words.any (beginsWithWhole rest))
    none (folded text)

def ACT_WORDS : List String :=
  ["pick", "grasp", "grab", "take", "lift", "carry", "place", "put", "release",
    "push", "pull", "press", "turn", "twist", "rotate", "slide", "open",
    "close", "drop", "move", "insert", "pour", "stack"]

def LOOK_WORDS : List String :=
  ["look", "observe", "inspect", "check", "view", "see"]

def acts (s : Subgoal) : Bool :=
  hasBeginning ACT_WORDS s.subgoal &&
    !LOOK_WORDS.any (beginsWithWhole ((folded s.subgoal).dropWhile isSpace))

def GRIPPER_VERBS : List String :=
  ["open", "close", "release", "let go", "squeeze", "clamp"]

/-- `/\bopen|release|let go\b/i`: the boundaries belong to the outer two. -/
def opens (text : String) : Bool :=
  anywhere
    (fun before rest =>
      (startsWord before && beginsWith rest "open") ||
        beginsWith rest "release" || beginsWithWhole rest "let go")
    none (folded text)

def PUT_WORDS : List String := ["on", "in", "into", "onto", "over", "at"]

def dropsHeld (s : Subgoal) : Bool :=
  hasBeginning GRIPPER_VERBS s.subgoal && opens s.subgoal &&
    !hasWhole PUT_WORDS s.subgoal && s.target.isEmpty

def IRRECOVERABLE : List String :=
  ["out of reach", "unreachable", "cannot reach", "can't reach", "dropped",
    "on the floor", "fell", "fallen", "outside the workspace",
    "out of the workspace", "broken", "shattered", "spilled", "spilt",
    "cannot be grasped", "can't be grasped", "ungraspable", "permanent",
    "irreversibl"]

/-- Whether a `recoverable=false` is let through. -/
def gaveUp (rationale : String) (replans : ℕ) : Bool :=
  decide (2 ≤ replans) || hasBeginning IRRECOVERABLE rationale

def PLACE : List String :=
  ["on top of", "next to", "close to", "in front of", "on", "onto", "in",
    "inside", "into", "at", "from", "beside", "between", "near", "behind",
    "under", "underneath", "beneath", "atop", "upon", "by", "over", "above",
    "against", "along"]

def PARTICIPLE : List String :=
  ["sitting", "resting", "standing", "lying", "located", "situated",
    "positioned", "placed", "kept", "found", "that is", "which is",
    "that sits", "that rests"]

def ARTICLES : List String := ["the", "a", "an", "its", "that", "this"]

def STOP : List String :=
  ["the", "a", "an", "of", "on", "in", "to", "and", "with", "from", "at",
    "it", "its", "into", "onto"]

def bare (text : List Char) : List Char :=
  [' '].intercalate ((text.splitOnP isSpace).filter fun w => !w.isEmpty)

def after (rest : List Char) (phrase : String) : Option (List Char) :=
  if beginsWith rest (phrase ++ " ") then some (rest.drop (phrase.length + 1))
  else none

/-- A place preposition and an article, a participle before them or not. -/
def placePhrase (rest : List Char) : Bool :=
  (rest :: PARTICIPLE.filterMap (after rest)).any fun place =>
    (PLACE.filterMap (after place)).any fun article => ARTICLES.any (beginsWithWhole article)

def placeStart : List Char → Option ℕ
  | [] => none
  | c :: rest =>
    if c = ' ' ∧ placePhrase (rest.map foldCase) then some 0
    else (placeStart rest).map (· + 1)

def isLetter (c : Char) : Bool := 'a' ≤ c ∧ c ≤ 'z'

def objectHead (name : String) : List Char :=
  let t := bare name.toList
  match placeStart t with
  | none | some 0 => t
  | some start =>
    let head := trim (t.take start)
    if (head.flatMap toLowerCase).any isLetter then head else t

def nouns (text : List Char) : List String :=
  (((text.flatMap toLowerCase).splitOnP fun c =>
      !isWordChar c || c = '_').map String.ofList).filter fun w =>
    3 ≤ w.length && !STOP.contains w

def sameObject (a b : String) : Bool :=
  !(trim a.toList).isEmpty && !(trim b.toList).isEmpty &&
    (nouns (objectHead b)).any (nouns (objectHead a)).contains

end PiEmbodied.Motormind.Planner
