import Atomicity.Instruction

/-!
# Accesses to memory

What an instruction does to memory, going by what it answered (`Instr.accesses`). **The accesses of
an instruction account for what it does** (`Instr.accesses_apply`): they lead from the memory before
it to the memory after it. So an instruction that stores nothing leaves memory as it was
(`Instr.memory_of_not_writes`).
-/

namespace Atomicity

inductive Access where
  /-- A write from outside. -/
  | foreign (w : Width) (a : Addr) (v : Word w)
  /-- The context reads a word. -/
  | loaded (w : Width) (a : Addr) (v : Word w)
  /-- The context writes a word. -/
  | stored (w : Width) (a : Addr) (v : Word w)
  deriving DecidableEq

namespace Access

def apply (m : Memory) : Access → Memory
  | foreign w a v => m.write w a v
  | loaded .. => m
  | stored w a v => m.write w a v

def isForeign : Access → Bool
  | foreign .. => true
  | _ => false

def isStored : Access → Bool
  | stored .. => true
  | _ => false

end Access

/-- What an instruction does to memory, going by what it answered: what it loads, and then what it
stores. -/
def Instr.accesses : (i : Instr) → i.Reply → List Access
  | read w a, v => [.loaded w a v]
  | write w a v, _ => [.stored w a v]
  | swap _ w a v, found => [.loaded w a found, .stored w a v]
  | compareSwap w a expected desired, found =>
    .loaded w a found :: if found = expected then [.stored w a desired] else []
  | fetchAdd w a v, found => [.loaded w a found, .stored w a (found + v)]
  | loadExclusive _ w a, r => [.loaded w a (Register.toWord r)]
  | storeExclusive _ w a v, ok => if ok then [.stored w a (Register.toWord v)] else []
  | endConstruction, _ => [.stored .w64 .globalLock 0]
  | _, _ => []

theorem Instr.accesses_apply (i : Instr) (refused : Bool) (s : State) :
    (i.accesses (i.exec refused s).1).foldl Access.apply s.shared.memory =
      (i.exec refused s).2.shared.memory := by
  cases i with
  | compareSwap w a expected desired =>
    by_cases h : s.read w a = expected
    · simp [accesses, exec, h, Access.apply]
    · simp [accesses, exec, h, Access.apply]
  | storeExclusive isa w a v =>
    simp only [accesses, exec]
    split <;> rfl
  | claimCore =>
    simp only [accesses, exec]
    split <;> rfl
  | lineRestore b => cases b <;> rfl
  | startConstruction =>
    simp only [accesses, exec]
    split <;> rfl
  | _ => rfl

/-- A context writes nothing from outside. -/
theorem Instr.countP_accesses (i : Instr) (r : i.Reply) :
    (i.accesses r).countP Access.isForeign = 0 := by
  cases i with
  | compareSwap w a expected desired =>
    simp only [accesses]
    split <;> rfl
  | storeExclusive isa w a v =>
    simp only [accesses]
    split <;> rfl
  | _ => rfl

/-- The instruction stores something, going by what it answered. -/
def Instr.writes (i : Instr) (r : i.Reply) : Bool := (i.accesses r).any Access.isStored

/-- An instruction that stores nothing leaves memory as it was. -/
theorem Instr.memory_of_not_writes {i : Instr} {refused : Bool} {s : State}
    (h : i.writes (i.exec refused s).1 = false) :
    (i.exec refused s).2.shared.memory = s.shared.memory := by
  rw [← i.accesses_apply refused s]
  cases i with
  | write w a v => cases h
  | swap isa w a v => cases h
  | fetchAdd w a v => cases h
  | endConstruction => cases h
  | compareSwap w a expected desired =>
    by_cases hs : s.read w a = expected
    · simp [writes, accesses, exec, hs, Access.isStored] at h
    · simp [accesses, exec, hs, Access.apply]
  | storeExclusive isa w a v =>
    cases hs : ((storeExclusive isa w a v).exec refused s).1 with
    | true => simp [writes, accesses, hs, Access.isStored] at h
    | false => simp [accesses]
  | _ => rfl

end Atomicity
