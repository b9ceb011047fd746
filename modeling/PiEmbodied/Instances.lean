import Mathlib

/-!
# Instances of closed types

Each is a constant, so that a definition that uses it names no lemma of its own.
-/

namespace Closed

instance chars : LawfulBEq (List Char) := inferInstance

instance units : LawfulBEq (List UInt16) := inferInstance

instance axes : NeZero 3 := ⟨by decide⟩

instance two : Nat.AtLeastTwo 2 := ⟨by decide⟩

instance three : Nat.AtLeastTwo 3 := ⟨by decide⟩

instance four : Nat.AtLeastTwo 4 := ⟨by decide⟩

instance five : Nat.AtLeastTwo 5 := ⟨by decide⟩

instance six : Nat.AtLeastTwo 6 := ⟨by decide⟩

instance seven : Nat.AtLeastTwo 7 := ⟨by decide⟩

instance ten : Nat.AtLeastTwo 10 := ⟨by decide⟩

instance fifteen : Nat.AtLeastTwo 15 := ⟨by decide⟩

instance twenty : Nat.AtLeastTwo 20 := ⟨by decide⟩

instance thirtyTwo : Nat.AtLeastTwo 32 := ⟨by decide⟩

instance forty : Nat.AtLeastTwo 40 := ⟨by decide⟩

instance eighty : Nat.AtLeastTwo 80 := ⟨by decide⟩

instance hundred : Nat.AtLeastTwo 100 := ⟨by decide⟩

instance halfTurn : Nat.AtLeastTwo 180 := ⟨by decide⟩

instance thousand : Nat.AtLeastTwo 1000 := ⟨by decide⟩

instance tenThousand : Nat.AtLeastTwo 10000 := ⟨by decide⟩

instance billion : Nat.AtLeastTwo 1000000000 := ⟨by decide⟩

end Closed
