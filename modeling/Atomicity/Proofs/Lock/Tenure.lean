import Atomicity.Proofs.Context
import Atomicity.Proofs.Leads

/-!
# Who holds a lock

A context holds a lock **from the store of its test-and-set over a zero that it has found to the
store of a zero** by which it frees the lock. Both are instants, and what has been executed tells
whether a context is between them (`tenure`): what it last found in the word of the lock, and what
it stored there since. A test-and-set that found something else **has spun**.

An instruction with another target concerns neither the word nor who holds the lock
(`tenure_of_target?`).

**A turn** (`Turn`) is what one instruction may do to the word and to the tenure of its context:
nothing to either, or it takes the lock, the word being zero before and one after, or it frees it.
To store over what has been found is a turn (`Tenure.turn_store`), if the word tells whether the
lock is held.

While a context holds the lock nobody else frees it, so that the context does not find the word
zero. What has been executed tells whether that is so (`Unbroken`).
-/

namespace Atomicity

/-- How a context stands with a lock. -/
structure Tenure where
  /-- What it last found in the word, if it has looked. -/
  found : Option (Word .w64)
  holds : Bool
  /-- It has tried to take the lock and found it taken. -/
  spun : Bool
  deriving DecidableEq, Repr

namespace Tenure

/-- Nothing has been found yet. -/
def start : Tenure := ⟨none, false, false⟩

def find (t : Tenure) (v : Word .w64) : Tenure := { t with found := some v }

def store (t : Tenure) (v : Word .w64) : Tenure :=
  if v = 0 then { t with holds := false }
  else if t.found = some 0 then { t with holds := true }
  else { t with spun := true }

/-- How a context stands with the lock at `a` after one more access. -/
def see (a : Addr) (t : Tenure) : Access → Tenure
  | .loaded .w64 b v => if b = a then t.find v else t
  | .stored .w64 b v => if b = a then t.store v else t
  | _ => t

def note (a : Addr) (e : Executed) (t : Tenure) : Tenure := (e.1.accesses e.2).foldl (see a) t

end Tenure

/-- How a context stands with the lock at `a`, going by what it has executed, last instruction
first. -/
def tenure (a : Addr) (log : List Executed) : Tenure := log.foldr (Tenure.note a) .start

def Context.tenure {S : Service} (a : Addr) (c : Context S) : Tenure := Atomicity.tenure a c.log

/-- What has been executed on an address, last instruction first. -/
def touched (a : Addr) (log : List Executed) : List Executed :=
  log.filter fun e => e.1.target? = some a

section

variable {a b : Addr} {i : Instr} {r : i.Reply} {log : List Executed}

theorem tenure_cons : tenure a (⟨i, r⟩ :: log) = (tenure a log).note a ⟨i, r⟩ := rfl

theorem Tenure.note_of_target? (h : i.target? ≠ some a) (r : i.Reply) (t : Tenure) :
    t.note a ⟨i, r⟩ = t := by
  have hloaded : ∀ {w b} (v : Word w), b ≠ a → ∀ t, see a t (.loaded w b v) = t := by
    intro w b v hb t
    cases w <;> simp [see, hb]
  have hstored : ∀ {w b} (v : Word w), b ≠ a → ∀ t, see a t (.stored w b v) = t := by
    intro w b v hb t
    cases w <;> simp [see, hb]
  cases i with
  | read w b => simp [note, Instr.accesses, hloaded r fun hb => h (congrArg some hb)]
  | write w b v => simp [note, Instr.accesses, hstored v fun hb => h (congrArg some hb)]
  | swap isa w b v =>
    simp [note, Instr.accesses, hloaded r fun hb => h (congrArg some hb),
      hstored v fun hb => h (congrArg some hb)]
  | compareSwap w b expected desired =>
    simp only [note, Instr.accesses, List.foldl_cons, hloaded r fun hb => h (congrArg some hb)]
    split
    · exact hstored desired (fun hb => h (congrArg some hb)) t
    · rfl
  | fetchAdd w b v =>
    simp [note, Instr.accesses, hloaded r fun hb => h (congrArg some hb),
      hstored (r + v) fun hb => h (congrArg some hb)]
  | loadExclusive isa w b =>
    simp [note, Instr.accesses, hloaded _ fun hb => h (congrArg some hb)]
  | storeExclusive isa w b v =>
    simp only [note, Instr.accesses]
    split
    · exact hstored _ (fun hb => h (congrArg some hb)) t
    · rfl
  | endConstruction => exact hstored (0 : Word .w64) (fun hb => h (congrArg some hb)) t
  | _ => rfl

/-- **An instruction with another target does not concern who holds the lock.** -/
theorem tenure_of_target? (h : i.target? ≠ some a) : tenure a (⟨i, r⟩ :: log) = tenure a log :=
  Tenure.note_of_target? h r (tenure a log)

theorem touched_of_target? (h : i.target? ≠ some a) :
    touched a (⟨i, r⟩ :: log) = touched a log := by
  simp [touched, h]

theorem touched_cons (h : i.target? = some a) :
    touched a (⟨i, r⟩ :: log) = ⟨i, r⟩ :: touched a log := by
  simp [touched, h]

theorem tenure_swap (isa : SwapIsa) (v r : Word .w64) :
    tenure a (⟨.swap isa .w64 a v, r⟩ :: log) = ((tenure a log).find r).store v := by
  simp [tenure_cons, Tenure.note, Instr.accesses, Tenure.see]

theorem tenure_read (r : Word .w64) :
    tenure a (⟨.read .w64 a, r⟩ :: log) = (tenure a log).find r := by
  simp [tenure_cons, Tenure.note, Instr.accesses, Tenure.see]

theorem tenure_write (v : Word .w64) (r : Unit) :
    tenure a (⟨.write .w64 a v, r⟩ :: log) = (tenure a log).store v := by
  simp [tenure_cons, Tenure.note, Instr.accesses, Tenure.see]

theorem tenure_loadExclusive (isa : PairIsa) (r : Register .w64) :
    tenure a (⟨.loadExclusive isa .w64 a, r⟩ :: log) = (tenure a log).find (Register.toWord r) := by
  simp [tenure_cons, Tenure.note, Instr.accesses, Tenure.see]

theorem tenure_storeExclusive (isa : PairIsa) (v : Word .w64) (stored : Bool) :
    tenure a (⟨.storeExclusive isa .w64 a (Word.toRegister v), stored⟩ :: log) =
      if stored then (tenure a log).store v else tenure a log := by
  cases stored <;> simp [tenure_cons, Tenure.note, Instr.accesses, Tenure.see]

end

/-! ## Turns -/

/-- Whether a context holds a lock once it has stored `v` there over what it found. -/
def taken (held : Bool) (v found : Word .w64) : Bool := v != 0 && (held || found == 0)

/-- What one instruction may do: its context holds the lock or not, before and after, and the word
is what it is, before and after. -/
inductive Turn : Bool → Bool → Word .w64 → Word .w64 → Prop where
  | stay (held : Bool) (v : Word .w64) : Turn held held v v
  | take : Turn false true 0 1
  | free (v : Word .w64) : Turn true false v 0

/-- The word of a lock that a context holds is one, and the word of any lock is zero or one. -/
def Legible (held : Bool) (word : Word .w64) : Prop :=
  (held = true → word = 1) ∧ (word = 0 ∨ word = 1)

/-- What is stored is one, or zero by a context that holds the lock. -/
def Allowed (v : Word .w64) (held : Bool) : Prop := v = 1 ∨ v = 0 ∧ held = true

/-- What is stored is one by a context that does not hold the lock, or zero by one that does. -/
def Proper (v : Word .w64) (held : Bool) : Prop := v = 1 ∧ held = false ∨ v = 0 ∧ held = true

namespace Tenure

variable {t : Tenure} {v word : Word .w64}

theorem holds_store (hf : t.found = some word) : (t.store v).holds = taken t.holds v word := by
  by_cases hv : v = 0
  · rw [store, if_pos hv, taken, bne_eq_false_iff_eq.mpr hv]
    rfl
  · rw [store, if_neg hv, taken, bne_iff_ne.mpr hv, hf]
    by_cases hw : word = 0
    · rw [if_pos (congrArg some hw), beq_iff_eq.mpr hw, Bool.or_true]
      rfl
    · rw [if_neg fun h => hw (Option.some.inj h), beq_eq_false_iff_ne.mpr hw, Bool.or_false]
      rfl

/-- **To store over what has been found is a turn.** -/
theorem turn_store (h : Allowed v t.holds) (hf : t.found = some word) (hl : Legible t.holds word) :
    Turn t.holds (t.store v).holds word v := by
  rw [holds_store hf]
  rcases h with rfl | ⟨rfl, hh⟩
  · cases hh : t.holds with
    | true =>
      obtain rfl := hl.1 hh
      exact .stay true 1
    | false =>
      rcases hl.2 with rfl | rfl
      · exact .take
      · exact .stay false 1
  · rw [hh]
    exact .free word

/-- To store over a word that says whether the lock is held is not to spin, and leaves it saying
so. -/
theorem store_of_word (h : Proper v t.holds) (hf : t.found = some word)
    (hw : word = if t.holds then 1 else 0) :
    (t.store v).spun = t.spun ∧ v = if taken t.holds v word then 1 else 0 := by
  have hone : (1 : Word .w64) ≠ 0 := by decide
  rcases h with ⟨rfl, hh⟩ | ⟨rfl, hh⟩
  · obtain rfl : word = 0 := by simpa [hh] using hw
    simp only [store, if_neg hone, if_pos hf, hh]
    exact ⟨trivial, rfl⟩
  · exact ⟨rfl, rfl⟩

end Tenure

/-! ## Whoever holds the lock -/

/-- The context has not found the word of the lock zero while it held the lock. -/
def Unbroken (a : Addr) : List Executed → Prop
  | [] => True
  | e :: log => ((tenure a log).holds = true → Access.loaded .w64 a 0 ∉ e.1.accesses e.2) ∧
      Unbroken a log

/-- What an instruction loads is in the word. -/
theorem Instr.read_of_loaded {i : Instr} {refused : Bool} {s : State} {w : Width}
    {a : Addr} {v : Word w} (h : Access.loaded w a v ∈ i.accesses (i.exec refused s).1) :
    v = s.read w a := by
  cases i with
  | read w' b =>
    cases List.mem_singleton.mp h
    rfl
  | loadExclusive isa w' b =>
    cases List.mem_singleton.mp h
    exact Register.toWord_toRegister _
  | swap isa w' b u =>
    rcases List.mem_cons.mp h with h | h
    · cases h
      rfl
    · cases List.mem_singleton.mp h
  | fetchAdd w' b u =>
    rcases List.mem_cons.mp h with h | h
    · cases h
      rfl
    · cases List.mem_singleton.mp h
  | compareSwap w' b expected desired =>
    rcases List.mem_cons.mp h with h | h
    · cases h
      rfl
    · split at h
      · cases List.mem_singleton.mp h
      · cases h
  | storeExclusive isa w' b u =>
    simp only [accesses] at h
    split at h
    · cases List.mem_singleton.mp h
    · cases h
  | write w' b u => cases List.mem_singleton.mp h
  | endConstruction => cases List.mem_singleton.mp h
  | _ => cases h

/-- A word that is not zero while the context holds the lock is not found zero. -/
theorem Unbroken.exec {a : Addr} {log : List Executed} {s : State} (h : Unbroken a log)
    (hword : (tenure a log).holds = true → s.read .w64 a ≠ 0) (i : Instr) (refused : Bool) :
    Unbroken a (⟨i, (i.exec refused s).1⟩ :: log) :=
  ⟨fun hheld hloaded => hword hheld (Instr.read_of_loaded hloaded).symm, h⟩

namespace Tenure

variable {a : Addr}

theorem holds_see {t : Tenure} {e : Access} (ht : t.holds = true) (he : e ≠ .stored .w64 a 0) :
    (t.see a e).holds = true := by
  cases e with
  | foreign w b v => exact ht
  | loaded w b v =>
    cases w with
    | w64 =>
      simp only [see]
      split <;> exact ht
    | _ => exact ht
  | stored w b v =>
    cases w with
    | w64 =>
      simp only [see]
      split
      · next hb =>
        have hv : v ≠ 0 := fun hv => he (hb ▸ hv ▸ rfl)
        simp only [store, if_neg hv]
        split
        · rfl
        · exact ht
      · exact ht
    | _ => exact ht

/-- **A context that stores no zero goes on holding the lock.** -/
theorem holds_of_not_stored {i : Instr} {r : i.Reply} {log : List Executed}
    (hheld : (tenure a log).holds = true) (h : Access.stored .w64 a 0 ∉ i.accesses r) :
    (tenure a (⟨i, r⟩ :: log)).holds = true :=
  List.foldlRecOn (motive := fun t : Tenure => t.holds = true) _ _ hheld fun _ ht _ he =>
    holds_see ht fun heq => h (heq ▸ he)

end Tenure

end Atomicity
