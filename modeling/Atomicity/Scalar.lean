import Atomicity.Width

/-!
# Values that live in a word

A `Scalar` is a type of value that an atomic cell may hold: an integer type of one of the four
widths, a truth value, or a pointer. `Scalar.Value.toRepr` writes a value into a word and
`Scalar.Value.ofRepr` reads one back.

A signed integer is represented in two's complement. A truth value is zero or one in a byte, and any
byte other than zero reads back as true. A pointer is its address.

A machine word has 64 bits, and so has an address: it is the build for such a machine that is
modelled. In the build for a machine of 32 bits, an unsigned machine word is what `unsigned .w32` is
here, and there is a pointer of 32 bits, which is left out.

Main fact: `ofRepr_toRepr`, that a value reads back as itself. The converse fails for truth values
only: `toRepr_ofRepr` needs a word that represents some value.
-/

namespace Atomicity

/-- An integer type: a width and whether the values are signed. -/
structure IntType where
  width : Width
  isSigned : Bool
  deriving DecidableEq, Repr

namespace IntType

/-- The unsigned integers of a width. -/
abbrev unsigned (w : Width) : IntType := ⟨w, false⟩

/-- The signed integers of a width. -/
abbrev signed (w : Width) : IntType := ⟨w, true⟩

/-- The unsigned integers of a machine word, which the word of a lock is. It is a word of 64 bits,
also where a backend of a 32-bit machine is simulated. -/
abbrev machineWord : IntType := unsigned .w64

/-- The least value. -/
def least (k : IntType) : Int := if k.isSigned then -(1 <<< (k.width.bits - 1) : Nat) else 0

/-- The greatest value. -/
def greatest (k : IntType) : Int :=
  if k.isSigned then (1 <<< (k.width.bits - 1) : Nat) - 1 else (1 <<< k.width.bits : Nat) - 1

/-- The integer that a word stands for. -/
def read (k : IntType) (b : Word k.width) : Int := if k.isSigned then b.toInt else b.toNat

theorem least_le_read (k : IntType) (b : Word k.width) : k.least ≤ k.read b := by
  unfold least read
  split
  · rw [Nat.one_shiftLeft]
    exact BitVec.le_toInt b
  · exact Int.natCast_nonneg _

theorem read_le_greatest (k : IntType) (b : Word k.width) : k.read b ≤ k.greatest := by
  unfold greatest read
  split
  · have : b.toInt < 2 ^ (k.width.bits - 1) := BitVec.toInt_lt
    rw [Nat.one_shiftLeft]
    push_cast
    omega
  · have : (b.toNat : Int) < (2 ^ k.width.bits : Nat) := Int.ofNat_lt.mpr b.isLt
    rw [Nat.one_shiftLeft]
    omega

theorem least_le_greatest (k : IntType) : k.least ≤ k.greatest :=
  Int.le_trans (k.least_le_read 0) (k.read_le_greatest 0)

/-- A value of an integer type: an integer in its range. -/
structure Value (k : IntType) where
  val : Int
  least_le : k.least ≤ val
  le_greatest : val ≤ k.greatest

namespace Value

variable {k : IntType}

@[ext]
theorem ext {x y : k.Value} (h : x.val = y.val) : x = y := by
  cases x
  cases y
  simp_all

instance : DecidableEq k.Value := fun x y =>
  if h : x.val = y.val then .isTrue (ext h) else .isFalse fun e => h (e ▸ rfl)

/-- The value that a word stands for. -/
def ofBits (b : Word k.width) : k.Value := ⟨k.read b, k.least_le_read b, k.read_le_greatest b⟩

/-- The word that stands for a value, in two's complement. -/
def toBits (x : k.Value) : Word k.width := BitVec.ofInt k.width.bits x.val

/-- The value congruent to an integer modulo the number of words. -/
def wrap (k : IntType) (z : Int) : k.Value := ofBits (BitVec.ofInt k.width.bits z)

/-- The integer itself where it is in range, else the nearer end of the range. -/
def clamp (k : IntType) (z : Int) : k.Value :=
  ⟨max k.least (min z k.greatest), by omega, by have := k.least_le_greatest; omega⟩

/-- The value with the number of an integer in range. -/
def ofInt? (k : IntType) (z : Int) : Option k.Value :=
  if h : k.least ≤ z ∧ z ≤ k.greatest then some ⟨z, h.1, h.2⟩ else none

@[simp]
theorem toBits_ofBits (b : Word k.width) : (ofBits b : k.Value).toBits = b := by
  unfold toBits ofBits IntType.read
  split <;> simp

theorem read_toBits (x : k.Value) : k.read x.toBits = x.val := by
  obtain ⟨z, hl, hg⟩ := x
  obtain ⟨w, s⟩ := k
  unfold toBits IntType.read
  unfold least at hl
  unfold greatest at hg
  cases s with
  | true =>
    simp only [if_true] at hl hg ⊢
    have hw := w.bits_pos
    rw [BitVec.toInt_ofInt]
    apply Int.bmod_eq_of_le <;> cases w <;> simp [Width.bits] at * <;> omega
  | false =>
    simp only [Bool.false_eq_true, if_false] at hl hg ⊢
    rw [BitVec.toNat_ofInt]
    cases w <;> simp [Width.bits] at * <;> omega

@[simp]
theorem ofBits_toBits (x : k.Value) : ofBits x.toBits = x :=
  ext (read_toBits x)

end Value

end IntType

/-- An address in memory, on a machine with addresses of 64 bits. -/
structure Pointer where
  address : BitVec 64
  deriving DecidableEq, Repr

/-- A type of value that an atomic cell may hold. -/
inductive Scalar where
  | int (k : IntType)
  | bool
  | pointer
  deriving DecidableEq, Repr

namespace Scalar

/-- The unsigned integers of a width. -/
abbrev unsigned (w : Width) : Scalar := .int (.unsigned w)

/-- The width of the word that represents a value. -/
def width : Scalar → Width
  | int k => k.width
  | bool => .w8
  | pointer => .w64

/-- The values of a scalar type. -/
def Value : Scalar → Type
  | int k => k.Value
  | bool => Bool
  | pointer => Pointer

instance : (t : Scalar) → DecidableEq t.Value
  | int k => inferInstanceAs (DecidableEq k.Value)
  | bool => inferInstanceAs (DecidableEq Bool)
  | pointer => inferInstanceAs (DecidableEq Pointer)

/-- The word that represents a value. -/
def Value.toRepr : {t : Scalar} → t.Value → Word t.width
  | int _, x => IntType.Value.toBits x
  | bool, (b : Bool) => if b then 1 else 0
  | pointer, p => Pointer.address p

/-- The value that a word represents. -/
def Value.ofRepr : {t : Scalar} → Word t.width → t.Value
  | int _, b => IntType.Value.ofBits b
  | bool, b => b != 0
  | pointer, b => Pointer.mk b

/-- The value of a fresh cell: zero, false, or the null pointer. -/
def zero (t : Scalar) : t.Value := .ofRepr 0

/-- A value reads back as itself. -/
@[simp]
theorem Value.ofRepr_toRepr {t : Scalar} (v : t.Value) : .ofRepr v.toRepr = v := by
  cases t with
  | int => exact IntType.Value.ofBits_toBits v
  | bool => cases v <;> rfl
  | pointer => rfl

/-- A word that represents some value is written back as itself. -/
theorem Value.toRepr_ofRepr {t : Scalar} {b : Word t.width} (h : ∃ v : t.Value, v.toRepr = b) :
    (ofRepr b : t.Value).toRepr = b := by
  obtain ⟨v, rfl⟩ := h
  rw [ofRepr_toRepr]

theorem Value.toRepr_injective {t : Scalar} {u v : t.Value} (h : u.toRepr = v.toRepr) : u = v := by
  rw [← ofRepr_toRepr u, h, ofRepr_toRepr]

/-- For integers and pointers every word represents a value. -/
theorem Value.toRepr_ofRepr_of_ne_bool {t : Scalar} (h : t ≠ .bool) (b : Word t.width) :
    (ofRepr b : t.Value).toRepr = b := by
  cases t with
  | int => exact IntType.Value.toBits_ofBits b
  | bool => exact absurd rfl h
  | pointer => rfl

end Scalar

end Atomicity
