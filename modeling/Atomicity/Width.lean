/-!
# Operand widths

Atomic operations work on words of one, two, four or eight bytes and on nothing else. `Width` names
the four, `Word w` is a word of that width, and `Width.ofBytes?` recognises a byte count.

A CPU holds a word in a register of 32 bits, and one of eight bytes in a register of 64. A narrow
word is zero-extended into its register, and the register is cut to the word on the way back.

Main facts: `ofBytes?_bytes` and `bytes_of_ofBytes?` say that the byte counts of the four widths are
exactly the counts recognised; `toWord_toRegister` says that a register loses nothing of a word, so
that words compare in registers as they do by themselves (`toRegister_inj`).
-/

namespace Atomicity

/-- The width of an operand. -/
inductive Width where
  | w8
  | w16
  | w32
  | w64
  deriving DecidableEq, Repr

namespace Width

/-- The number of bytes of an operand. -/
def bytes : Width → Nat
  | w8 => 1
  | w16 => 2
  | w32 => 4
  | w64 => 8

/-- The number of bits of an operand. -/
def bits : Width → Nat
  | w8 => 8
  | w16 => 16
  | w32 => 32
  | w64 => 64

/-- The number of bits of the register that holds an operand. -/
def registerBits : Width → Nat
  | w8 => 32
  | w16 => 32
  | w32 => 32
  | w64 => 64

/-- The width of an operand of so many bytes, if there is one. -/
def ofBytes? : Nat → Option Width
  | 1 => some w8
  | 2 => some w16
  | 4 => some w32
  | 8 => some w64
  | _ => none

/-- The four widths, narrowest first. -/
def all : List Width := [w8, w16, w32, w64]

theorem mem_all (w : Width) : w ∈ all := by
  cases w <;> decide

theorem bits_eq (w : Width) : w.bits = 8 * w.bytes := by
  cases w <;> rfl

theorem bits_pos (w : Width) : 0 < w.bits := by
  cases w <;> decide

theorem bits_le_registerBits (w : Width) : w.bits ≤ w.registerBits := by
  cases w <;> decide

@[simp]
theorem ofBytes?_bytes (w : Width) : ofBytes? w.bytes = some w := by
  cases w <;> rfl

theorem bytes_of_ofBytes? {n : Nat} {w : Width} (h : ofBytes? n = some w) : w.bytes = n := by
  unfold ofBytes? at h
  split at h <;> simp_all <;> subst h <;> rfl

end Width

/-- A word of a given width. -/
abbrev Word (w : Width) : Type := BitVec w.bits

/-- A register that holds a word of a given width. -/
abbrev Register (w : Width) : Type := BitVec w.registerBits

/-- A word in its register, zero-extended. -/
def Word.toRegister {w : Width} (v : Word w) : Register w := v.setWidth w.registerBits

/-- The word that a register holds: its low bits. -/
def Register.toWord {w : Width} (r : Register w) : Word w := r.setWidth w.bits

@[simp]
theorem Register.toWord_toRegister {w : Width} (v : Word w) : toWord (Word.toRegister v) = v := by
  unfold toWord Word.toRegister
  rw [BitVec.setWidth_setWidth_of_le v w.bits_le_registerBits, BitVec.setWidth_eq]

@[simp]
theorem Word.toRegister_inj {w : Width} {u v : Word w} :
    Word.toRegister u = Word.toRegister v ↔ u = v := by
  refine ⟨fun h => ?_, fun h => h ▸ rfl⟩
  rw [← Register.toWord_toRegister u, h, Register.toWord_toRegister]

end Atomicity
