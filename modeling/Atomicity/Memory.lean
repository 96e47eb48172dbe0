import Atomicity.Width

/-!
# Memory

Memory holds, for every width on its own, one word at every address. Words of different widths never
overlap: whoever looks at one word under several types looks at it with one width.

An address is a cell, the data behind the lock of a cell, or the one word that the emulation by a
global lock locks.

Main facts: `read_write_self`, `read_write_of_ne` and `read_write_of_width_ne` give every read after
a write, and `write_comm` lets writes to different addresses pass each other.
-/

namespace Atomicity

/-- An address. -/
inductive Addr where
  /-- The word of a cell. -/
  | cell (n : Nat)
  /-- The data that the lock in a cell guards. -/
  | guarded (n : Nat)
  /-- The word of the global lock. -/
  | globalLock
  deriving DecidableEq, Repr

/-- A word at every address, for every width. -/
structure Memory where
  read : (w : Width) → Addr → Word w

namespace Memory

/-- Every word is zero. -/
def zero : Memory := ⟨fun _ _ => 0⟩

/-- Memory with one word replaced. -/
def write (m : Memory) (w : Width) (a : Addr) (v : Word w) : Memory :=
  ⟨fun w' a' => if h : w = w' then if a = a' then h ▸ v else m.read w' a' else m.read w' a'⟩

@[ext]
theorem ext {m n : Memory} (h : ∀ w a, m.read w a = n.read w a) : m = n := by
  cases m
  cases n
  congr
  funext w a
  exact h w a

@[simp]
theorem read_zero (w : Width) (a : Addr) : zero.read w a = 0 := rfl

theorem read_write (m : Memory) (w : Width) (a b : Addr) (v : Word w) :
    (m.write w a v).read w b = if a = b then v else m.read w b := by
  simp [write]

@[simp]
theorem read_write_self (m : Memory) (w : Width) (a : Addr) (v : Word w) :
    (m.write w a v).read w a = v := by
  simp [write]

theorem read_write_of_ne (m : Memory) {w w' : Width} {a b : Addr} (v : Word w) (h : a ≠ b) :
    (m.write w a v).read w' b = m.read w' b := by
  simp [write, h]

theorem read_write_of_width_ne (m : Memory) {w w' : Width} (a b : Addr) (v : Word w) (h : w ≠ w') :
    (m.write w a v).read w' b = m.read w' b := by
  simp [write, h]

/-- Only the last of two writes to a word counts. -/
@[simp]
theorem write_write (m : Memory) (w : Width) (a : Addr) (u v : Word w) :
    (m.write w a u).write w a v = m.write w a v := by
  refine ext fun w' b => ?_
  by_cases hw : w = w'
  · subst hw
    rw [read_write, read_write, read_write]
    split <;> rfl
  · simp only [read_write_of_width_ne _ _ _ _ hw]

/-- Writing back what is there changes nothing. -/
@[simp]
theorem write_read (m : Memory) (w : Width) (a : Addr) : m.write w a (m.read w a) = m := by
  refine ext fun w' b => ?_
  by_cases hw : w = w'
  · subst hw
    rw [read_write]
    split
    · next h => exact h ▸ rfl
    · rfl
  · simp only [read_write_of_width_ne _ _ _ _ hw]

/-- Writes to different addresses can be exchanged. -/
theorem write_comm (m : Memory) {w w' : Width} {a b : Addr} (u : Word w) (v : Word w') (h : a ≠ b) :
    (m.write w a u).write w' b v = (m.write w' b v).write w a u := by
  refine ext fun x c => ?_
  by_cases hb : b = c
  · subst hb
    rw [read_write_of_ne _ _ h]
    by_cases hx : w' = x
    · subst hx
      rw [read_write_self, read_write_self]
    · rw [read_write_of_width_ne _ _ _ _ hx, read_write_of_width_ne _ _ _ _ hx,
        read_write_of_ne _ _ h]
  · rw [read_write_of_ne _ _ hb]
    by_cases hx : w = x
    · subst hx
      rw [read_write, read_write, read_write_of_ne _ _ hb]
    · rw [read_write_of_width_ne _ _ _ _ hx, read_write_of_width_ne _ _ _ _ hx,
        read_write_of_ne _ _ hb]

end Memory

end Atomicity
