import Atomicity.Scalar

/-!
# Written forms of a value

A `Layout` says how a value is written: the base of its digits, a mark for the base, the sign of a
number that is not negative, and the least number of characters. It is spelled by a short
specification that ends in a question mark, such as `#x?` or `08?`.

- A number in base sixteen is written by its bits, so a negative one in two's complement, and in
  base ten with its sign. Padding goes to its left; zeros go between the sign or mark and the
  digits.
- A truth value is a word of text. Padding goes to its right and is never made of zeros.
- A pointer is always written in base sixteen with its mark. Asking for the mark asks for all its
  digits, which with the mark are eighteen characters.

A specification may choose the side that the text stands on, which decides where spaces go.
-/

namespace Atomicity

/-- The base that digits are written in, and their case. -/
inductive Radix where
  | decimal
  | lowerHex
  | upperHex
  deriving DecidableEq, Repr

/-- The side of its field that a text stands on. -/
inductive Side where
  | left
  | right
  deriving DecidableEq, Repr

/-- How a value is written. -/
structure Layout where
  radix : Radix := .decimal
  /-- Write the mark of the base. -/
  marked : Bool := false
  /-- Write a plus before a number that is not negative. -/
  plus : Bool := false
  /-- Fill a number with zeros instead of spaces. -/
  zeros : Bool := false
  side : Option Side := none
  /-- The least number of characters. -/
  room : Option Nat := none
  deriving DecidableEq, Repr

namespace Layout

/-- Drops one given character, and says whether it was there. -/
private def accept (c : Char) : List Char → Bool × List Char
  | [] => (false, [])
  | d :: r => if d = c then (true, r) else (false, d :: r)

/-- The layout that a specification spells: a side, a plus, a mark, a zero, a count of characters
and a letter for base sixteen, each optional and in this order, and then a question mark. -/
def ofSpec? (spec : String) : Option Layout :=
  let (onRight, cs) := accept '>' spec.toList
  let (onLeft, cs) := accept '<' cs
  let (plus, cs) := accept '+' cs
  let (marked, cs) := accept '#' cs
  let (zeros, cs) := accept '0' cs
  let count := cs.takeWhile Char.isDigit
  let (lower, cs) := accept 'x' (cs.dropWhile Char.isDigit)
  let (upper, cs) := accept 'X' cs
  if cs = ['?'] then
    some {
      radix := if upper then .upperHex else if lower then .lowerHex else .decimal
      side := if onRight then some .right else if onLeft then some .left else none
      room := if count.isEmpty then none else (String.ofList count).toNat?
      plus, marked, zeros }
  else none

/-- Fills a text with spaces. -/
def pad (l : Layout) (usual : Side) (text : String) : String :=
  let fill := String.ofList (List.replicate (l.room.getD 0 - text.length) ' ')
  match l.side.getD usual with
  | .left => text ++ fill
  | .right => fill ++ text

/-- A number from its sign, the mark of its base, and its digits. -/
def number (l : Layout) (negative : Bool) (mark digits : String) : String :=
  let sign := if negative then "-" else if l.plus then "+" else ""
  let head := if l.marked then sign ++ mark else sign
  if l.zeros then
    let missing := l.room.getD 0 - (head ++ digits).length
    head ++ String.ofList (List.replicate missing '0') ++ digits
  else
    l.pad .right (head ++ digits)

/-- The digits of a number in base sixteen. -/
def hexadecimal (upper : Bool) (n : Nat) : String :=
  let ds := Nat.toDigits 16 n
  String.ofList (if upper then ds.map Char.toUpper else ds)

/-- An integer. -/
def integer (l : Layout) {k : IntType} (x : k.Value) : String :=
  match l.radix with
  | .decimal => l.number (x.val < 0) "" (toString x.val.natAbs)
  | .lowerHex => l.number false "0x" (hexadecimal false x.toBits.toNat)
  | .upperHex => l.number false "0x" (hexadecimal true x.toBits.toNat)

/-- A pointer. -/
def pointer (l : Layout) (p : Pointer) : String :=
  let whole : Layout :=
    if l.marked then { l with zeros := true, room := some (l.room.getD 18) } else l
  { whole with marked := true }.number false "0x" (hexadecimal false p.address.toNat)

/-- The written form of a value. -/
def write (l : Layout) : {t : Scalar} → t.Value → String
  | .int _, x => l.integer x
  | .bool, x => l.pad .left (match x with | true => "true" | false => "false")
  | .pointer, x => l.pointer x

end Layout

end Atomicity
