/-!
# Powers of two and of ten

The scales of binary and decimal numbers.
-/

namespace StackScript

def twoTo (n : Nat) : Nat :=
  Nat.pow 2 n

def tenTo (n : Nat) : Nat :=
  Nat.pow 10 n

/-- Powers of two are positive. -/
theorem twoTo_pos (n : Nat) : 0 < twoTo n :=
  Nat.pow_pos (by decide)

/-- Powers of ten are positive. -/
theorem tenTo_pos (n : Nat) : 0 < tenTo n :=
  Nat.pow_pos (by decide)

/-- One more factor makes a power of ten ten times as large. -/
theorem tenTo_succ (n : Nat) : tenTo (n + 1) = tenTo n * 10 :=
  rfl

end StackScript
