import Atomicity.Width

/-!
# Sets of widths

A `WidthSet` is eight flag bits, of which the lowest four stand for the four widths. The other bits
have no meaning, and are kept by the bitwise operations rather than dropped: only `complement` and
`known` confine a set to the four.

`contains` and `intersects` compare all eight bits. A set is written with its known names first and
what is left in hexadecimal: `Widths(W8 | 0x10)`, and `Widths(0x0)` for no bits at all.

Main facts: `contains_flag`, that holding a width means containing its flag, and `has_ofWidths`,
that the set built from a list of widths has exactly the listed ones.
-/

namespace Atomicity

/-- A set of widths, as flag bits. -/
structure WidthSet where
  bits : BitVec 8
  deriving DecidableEq, Repr

/-- The position of a width's flag bit. -/
def Width.flagBit : Width → Nat
  | .w8 => 0
  | .w16 => 1
  | .w32 => 2
  | .w64 => 3

/-- The set of one width. -/
def Width.flag (w : Width) : WidthSet := ⟨BitVec.twoPow 8 w.flagBit⟩

/-- The name of a width within a set. -/
def Width.flagName : Width → String
  | .w8 => "W8"
  | .w16 => "W16"
  | .w32 => "W32"
  | .w64 => "W64"

namespace WidthSet

/-- No width. -/
def empty : WidthSet := ⟨0⟩

/-- All four widths, and no other bit. -/
def full : WidthSet := ⟨15⟩

/-- Every bit of either set. -/
def union (a b : WidthSet) : WidthSet := ⟨a.bits ||| b.bits⟩

/-- The bits that are in both sets. -/
def inter (a b : WidthSet) : WidthSet := ⟨a.bits &&& b.bits⟩

/-- The bits of `a` that are not in `b`. -/
def diff (a b : WidthSet) : WidthSet := ⟨a.bits &&& ~~~b.bits⟩

/-- The bits that are in one of the sets only. -/
def symmDiff (a b : WidthSet) : WidthSet := ⟨a.bits ^^^ b.bits⟩

/-- The set without its meaningless bits. -/
def known (a : WidthSet) : WidthSet := a.inter full

/-- The widths that are not in the set. -/
def complement (a : WidthSet) : WidthSet := known ⟨~~~a.bits⟩

/-- Every bit of `b` is a bit of `a`. -/
def contains (a b : WidthSet) : Bool := a.inter b == b

/-- Some bit of `b` is a bit of `a`. -/
def intersects (a b : WidthSet) : Bool := !(a.inter b == empty)

/-- No bit is set, with a meaning or without. -/
def isEmpty (a : WidthSet) : Bool := a == empty

/-- The four widths are all present, whatever the other bits. -/
def isFull (a : WidthSet) : Bool := a.contains full

/-- The set itself, if it has no bit without a meaning. -/
def strict? (a : WidthSet) : Option WidthSet := if a.known = a then some a else none

/-- Whether a width is in the set. -/
def has (a : WidthSet) (w : Width) : Bool := a.bits.getLsbD w.flagBit

/-- The widths in the set, narrowest first. -/
def widths (a : WidthSet) : List Width := Width.all.filter a.has

/-- The set of the listed widths. -/
def ofWidths (ws : List Width) : WidthSet := ws.foldr (fun w a => w.flag.union a) empty

/-- The names of the widths in the set, narrowest first. -/
def names (a : WidthSet) : List String := a.widths.map Width.flagName

private def hexadecimal (n : Nat) : String := "0x" ++ String.ofList (Nat.toDigits 16 n)

/-- The written form: known names, then the other bits in hexadecimal. -/
def render (a : WidthSet) : String :=
  let rest := a.diff full
  let parts :=
    if a.isEmpty || !rest.isEmpty then a.names ++ [hexadecimal rest.bits.toNat] else a.names
  "Widths(" ++ " | ".intercalate parts ++ ")"

@[simp]
theorem has_empty (w : Width) : empty.has w = false := by
  cases w <;> decide

@[simp]
theorem has_full (w : Width) : full.has w = true := by
  cases w <;> decide

@[simp]
theorem contains_self (a : WidthSet) : a.contains a = true := by
  simp [contains, inter]

theorem has_union (a b : WidthSet) (w : Width) : (a.union b).has w = (a.has w || b.has w) := by
  simp [has, union]

theorem contains_flag (a : WidthSet) (w : Width) : a.contains w.flag = a.has w := by
  obtain ⟨a⟩ := a
  revert a
  cases w <;> decide +kernel

theorem has_flag (v w : Width) : v.flag.has w = (v == w) := by
  cases v <;> cases w <;> decide

/-- A set built from a list has exactly the listed widths. -/
theorem has_ofWidths (ws : List Width) (w : Width) : (ofWidths ws).has w = ws.contains w := by
  induction ws with
  | nil => simp [ofWidths]
  | cons v ws ih =>
    change ((v.flag).union (ofWidths ws)).has w = _
    rw [has_union, has_flag, ih, List.contains_cons]
    cases v <;> cases w <;> rfl

end WidthSet

end Atomicity
