import Atomicity.Proofs.Leads
import Atomicity.Proofs.Operates

/-!
# What operations consist of

Besides the accesses to its own word, an operation that a backend provides consists of instructions
that access nothing, record nothing and enter no function of the caller; under the global lock, of
construction and of accesses to the word of that lock too. So what holds of all of these holds of
every instruction of the operation (`Backend.all_load` and its siblings).

To swap the word of a lock stores that word and nothing else (`Backend.testSetLock_onWord`). So an
attempt to take a lock, and each round of waiting for it, leave alone what is at other addresses.
-/

namespace Atomicity

open Prog

namespace Instr

/-- The instruction is part of constructing the global lock, or of logging. -/
def records : Instr → Bool
  | startConstruction | endConstruction | log _ => true
  | _ => false

/-- What records nothing leaves construction and the log as they are. -/
theorem recorded_of_not_records {i : Instr} (h : i.records = false) (refused : Bool) (s : State) :
    (i.exec refused s).2.shared.once = s.shared.once ∧
      (i.exec refused s).2.shared.log = s.shared.log := by
  cases i with
  | startConstruction => cases h
  | endConstruction => cases h
  | log r => cases h
  | compareSwap w a expected desired =>
    simp only [exec]
    split <;> exact ⟨rfl, rfl⟩
  | storeExclusive isa w a v =>
    simp only [exec]
    split <;> exact ⟨rfl, rfl⟩
  | claimCore =>
    simp only [exec]
    split <;> exact ⟨rfl, rfl⟩
  | lineRestore b => cases b <;> exact ⟨rfl, rfl⟩
  | _ => exact ⟨rfl, rfl⟩

theorem not_records_of_commands {i : Instr} (h : i.commands = true) : i.records = false := by
  cases i <;> first | rfl | cases h

theorem not_entersUpdate_of_commands {i : Instr} (h : i.commands = true) :
    i.entersUpdate = false := by
  cases i <;> first | rfl | cases h

end Instr

section

variable {P : Instr → Prop} {w : Width}
  (still : ∀ i : Instr, i.target? = none → i.records = false → i.entersUpdate = false → P i)

include still

/-- A program between two fences. -/
theorem Prog.all_fenced {isa : Isa} {α : Type} {p : Prog α} (hp : p.All P) : Prog.All P (do
    perform (.fence isa)
    let r ← p
    perform (.fence isa)
    return r) :=
  .bind (.perform (still _ rfl rfl rfl)) fun _ => .bind hp fun r =>
    .bind (.perform (still _ rfl rfl rfl)) fun _ => .ret r

theorem Prog.all_announced {α : Type} {p : Prog α} (hp : p.All P) (o : Primitive) :
    (Native.announced o p).All P :=
  .bind (.perform (still _ rfl rfl rfl)) fun _ => hp

theorem Controller.all_masking_still (c : Controller) {α : Type} {p : Prog α} (hp : p.All P) :
    (c.masking p).All P :=
  c.all_masking
    (fun _ hi => still _ (Instr.target?_of_commands hi) (Instr.not_records_of_commands hi)
      (Instr.not_entersUpdate_of_commands hi))
    hp

omit still in
theorem Prog.all_writeWhen {v : Word w} (write : P (.write w a v)) (c : Prop) [Decidable c] :
    (when c (perform (.write w a v))).All P := by
  unfold when
  split
  · exact .perform write
  · exact .ret ()

theorem GlobalLock.all_locked (first : P .startConstruction)
    (lock : ∀ i : Instr, i.target? = some .globalLock → P i)
    (c : Controller) (base : Backend) {α : Type} {p : Prog α} (hp : p.All P) :
    (GlobalLock.locked c base p).All P := by
  have swap : ∀ v, (Backend.testSetLock (.globalLock c base) .globalLock v).All P := fun v =>
    c.all_masking_still still (all_swapping (still _ rfl rfl rfl) (lock _ rfl) (lock _ rfl))
  have construct : (GlobalLock.construct (.ret ())).All P := all_construct first (lock _ rfl)
  have acquire : (RawLock.global.acquire (.globalLock c base)).All P :=
    .iterate (fun _ => .bind (.bind (swap 1) fun _ => .ret _) fun _ => .ret _) ()
  have release : (RawLock.global.release (.globalLock c base)).All P :=
    .bind (swap 0) fun _ => .ret _
  have fence : base.fence.All P := .perform (still _ rfl rfl rfl)
  refine .bind (.perform (still _ rfl rfl rfl)) fun _ =>
    .bind (c.all_masking_still still ?_) fun _ =>
    .bind (.perform (still _ rfl rfl rfl)) fun _ => .ret _
  exact .bind construct fun _ => .bind acquire fun _ => .bind fence fun _ => .bind hp fun _ =>
    .bind fence fun _ => .bind release fun _ => .ret _

namespace Backend

variable (b : Backend) (lock : b.strategy = .globalLock →
  P .startConstruction ∧ ∀ i : Instr, i.target? = some .globalLock → P i)

include lock

theorem all_locked {c : Controller} {base : Backend} (hb : b.strategy = .globalLock)
    {α : Type} {p : Prog α} (hp : p.All P) : (GlobalLock.locked c base p).All P :=
  GlobalLock.all_locked still (lock hb).1 (lock hb).2 c base hp

theorem all_load (read : P (.read w a)) : (b.load w a).All P := by
  have load : ∀ isa : Isa, (isa.load w a).All P := fun isa => all_fenced still (.perform read)
  cases b with
  | native => exact load _
  | traced => exact all_announced still (load _) _
  | casOnly => exact all_announced still (load _) _
  | pair isa => exact load _
  | singleCore c isa widths => exact load _
  | globalLock c base => exact all_locked still _ lock rfl (.perform read)

theorem all_store {v : Word w} (write : P (.write w a v)) : (b.store w a v).All P := by
  have store : ∀ isa : Isa, (isa.store w a v).All P := fun isa =>
    .bind (.perform (still _ rfl rfl rfl)) fun _ => .bind (.perform write) fun _ =>
      .perform (still _ rfl rfl rfl)
  cases b with
  | native => exact store _
  | traced => exact all_announced still (store _) _
  | casOnly => exact all_announced still (store _) _
  | pair isa => exact store _
  | singleCore c isa widths => exact store _
  | globalLock c base => exact all_locked still _ lock rfl (.perform write)

theorem all_exchange {v : Word w} (read : P (.read w a)) (write : P (.write w a v))
    (swap : ∀ isa, P (.swap isa w a v)) (load : ∀ isa, P (.loadExclusive isa w a))
    (store : ∀ isa, P (.storeExclusive isa w a (Word.toRegister v))) :
    (b.exchange w a v).All P := by
  have swapped : ∀ isa, (perform (.swap isa w a v)).All P := fun isa => .perform (swap isa)
  cases b with
  | native => exact swapped _
  | traced => exact all_announced still (swapped _) _
  | casOnly => exact all_announced still (swapped _) _
  | pair isa =>
    refine .bind (.perform (still _ rfl rfl rfl)) fun _ =>
      .bind (.iterate (fun _ => ?_) ()) fun _ =>
      .bind (.perform (still _ rfl rfl rfl)) fun _ => .ret _
    exact .bind (.perform (load _)) fun _ => .bind (.perform (store _)) fun _ => .ret _
  | singleCore c isa widths => exact all_fenced still (swapped isa)
  | globalLock c base =>
    exact all_locked still _ lock rfl
      (.bind (.perform read) fun _ => .bind (.perform write) fun _ => .ret _)

theorem all_compareExchange {e d : Word w} (read : P (.read w a)) (write : P (.write w a d))
    (swap : P (.compareSwap w a e d)) (load : ∀ isa, P (.loadExclusive isa w a))
    (store : ∀ isa, P (.storeExclusive isa w a (Word.toRegister d))) :
    (b.compareExchange w a e d).All P := by
  have native : (Native.compareExchange w a e d).All P := .bind (.perform swap) fun _ => .ret _
  cases b with
  | native => exact native
  | traced => exact all_announced still native _
  | casOnly => exact all_announced still native _
  | pair isa =>
    refine .bind (.perform (still _ rfl rfl rfl)) fun _ =>
      .bind (.iterate (fun _ => ?_) ()) fun _ =>
      .bind (.perform (still _ rfl rfl rfl)) fun _ => .ret _
    refine .bind (.perform (load _)) fun found => ?_
    split
    · exact .bind (.perform (store _)) fun _ => .ret _
    · exact .bind (.perform (still _ rfl rfl rfl)) fun _ => .ret _
  | singleCore c isa widths =>
    refine c.all_masking_still still (.bind (.perform (still _ rfl rfl rfl)) fun _ => ?_)
    exact .bind (.perform read) fun _ => .bind (all_writeWhen write _) fun _ =>
      .bind (.perform (still _ rfl rfl rfl)) fun _ => .ret _
  | globalLock c base =>
    exact all_locked still _ lock rfl
      (.bind (.perform read) fun _ => .bind (all_writeWhen write _) fun _ => .ret _)

theorem all_fetchAdd {v : Word w} (hb : b.addsAtOnce = true) (read : P (.read w a))
    (write : ∀ u, P (.write w a u)) (add : P (.fetchAdd w a v)) : (b.fetchAdd w a v).All P := by
  have native : (Native.fetchAdd w a v).All P := .perform add
  cases b with
  | native => exact native
  | traced => exact all_announced still native _
  | globalLock c base =>
    exact all_locked still _ lock rfl
      (.bind (.perform read) fun u => .bind (.perform (write _)) fun _ => .ret _)
  | casOnly => cases hb
  | pair isa => cases hb
  | singleCore c isa widths => cases hb

omit lock in
theorem all_privilegedStore {v : Word .w64} (read : P (.read .w64 a))
    (write : P (.write .w64 a v)) :
    (b.privilegedStore a v).All P := by
  have store : ∀ isa : Isa, (isa.store .w64 a v).All P := fun isa =>
    .bind (.perform (still _ rfl rfl rfl)) fun _ => .bind (.perform write) fun _ =>
      .perform (still _ rfl rfl rfl)
  cases b with
  | native => exact store _
  | traced => exact all_announced still (store _) _
  | casOnly => exact all_announced still (store _) _
  | pair isa => exact store _
  | singleCore c isa widths => exact store _
  | globalLock c base =>
    exact .bind (c.all_masking_still still (all_swapping (still _ rfl rfl rfl) read write)) fun _ =>
      .ret _

end Backend

end

/-- The instructions of a swap of a lock's word. Commands for a controller are among them where
interrupts are masked for it. -/
theorem Backend.all_testSetLock {P : Instr → Prop} {a : Addr} {v : Word .w64} (b : Backend)
    (fence : ∀ isa, P (.fence isa)) (announce : ∀ o, P (.announce o))
    (swap : ∀ isa, P (.swap isa .w64 a v)) (load : ∀ isa, P (.loadExclusive isa .w64 a))
    (store : ∀ isa, P (.storeExclusive isa .w64 a (Word.toRegister v)))
    (masked : b.strategy = .globalLock → P (.read .w64 a) ∧ P (.write .w64 a v) ∧
      ∀ i : Instr, i.commands = true → P i) : (b.testSetLock a v).All P := by
  cases b with
  | native => exact .perform (swap _)
  | traced => exact .bind (.perform (announce _)) fun _ => .perform (swap _)
  | casOnly => exact .bind (.perform (announce _)) fun _ => .perform (swap _)
  | pair isa =>
    refine .bind (.perform (fence _)) fun _ => .bind (.iterate (fun _ => ?_) ()) fun _ =>
      .bind (.perform (fence _)) fun _ => .ret _
    exact .bind (.perform (load _)) fun _ => .bind (.perform (store _)) fun _ => .ret _
  | singleCore c isa widths =>
    exact .bind (.perform (fence _)) fun _ => .bind (.perform (swap _)) fun _ =>
      .bind (.perform (fence _)) fun _ => .ret _
  | globalLock c base =>
    obtain ⟨read, write, commands⟩ := masked rfl
    exact c.all_masking commands (all_swapping (fence _) read write)

/-! ## The word of a lock -/

namespace Instr

/-- The instruction stores nothing but a word at an address, and records nothing. -/
structure OnWord (a : Addr) (v : Word .w64) (i : Instr) : Prop where
  stores : ∀ r, ∀ e ∈ i.accesses r, e.isStored = true → e = .stored .w64 a v
  records : i.records = false

variable {a : Addr} {v : Word .w64} {i : Instr}

theorem OnWord.of_quiet (haccesses : ∀ r, ∀ e ∈ i.accesses r, e.isStored = false)
    (h : i.records = false) : i.OnWord a v :=
  ⟨fun r e he hs => absurd hs (Bool.eq_false_iff.mp (haccesses r e he)), h⟩

theorem OnWord.of_commands (h : i.commands = true) : i.OnWord a v := by
  cases i <;> first | exact .of_quiet (fun _ _ he => absurd he List.not_mem_nil) rfl | cases h

/-- No other word is stored. -/
theorem OnWord.not_stored (hi : i.OnWord a v) {u : Word .w64} (hu : u ≠ v) {r : i.Reply} :
    Access.stored .w64 a u ∉ i.accesses r := by
  intro hmem
  have hstored := hi.stores r _ hmem rfl
  cases hstored
  exact hu rfl

/-- What an access of such an instruction does to memory is nothing, or to write the word. -/
theorem OnWord.apply (hi : i.OnWord a v) {r : i.Reply} {e : Access} (he : e ∈ i.accesses r)
    (m : Memory) : e.apply m = m ∨ e.apply m = m.write .w64 a v := by
  have hforeign : e.isForeign = false := by
    have hnone := List.countP_eq_zero.mp (i.countP_accesses r) e he
    simpa using hnone
  cases e with
  | foreign w b u => cases hforeign
  | loaded w b u => exact .inl rfl
  | stored w b u => exact .inr (by rw [hi.stores r _ he rfl]; rfl)

/-- What is at other addresses stays what it is. -/
theorem OnWord.read_of_ne (hi : i.OnWord a v) {d : Addr} (hd : d ≠ a) (refused : Bool) (s : State)
    (w : Width) : (i.exec refused s).2.read w d = s.read w d := by
  change (i.exec refused s).2.shared.memory.read w d = s.shared.memory.read w d
  rw [← i.accesses_apply refused s]
  refine List.foldlRecOn (motive := fun m : Memory => m.read w d = s.shared.memory.read w d) _ _ rfl
    fun m hm e he => ?_
  rcases hi.apply he m with h | h
  · rw [h, hm]
  · rw [h, Memory.read_write_of_ne m v hd.symm, hm]

end Instr

theorem Backend.testSetLock_onWord (b : Backend) (a : Addr) (v : Word .w64) :
    (b.testSetLock a v).All (Instr.OnWord a v) := by
  have quiet : ∀ {i : Instr}, (∀ r, i.accesses r = []) → i.records = false → i.OnWord a v :=
    fun h => .of_quiet fun r e he => absurd (h r ▸ he) List.not_mem_nil
  have load : ∀ {u : Word .w64} {e : Access}, e ∈ [Access.loaded .w64 a u] → e.isStored = false :=
    fun he => List.mem_singleton.mp he ▸ rfl
  refine b.all_testSetLock (fun _ => quiet (fun _ => rfl) rfl) (fun _ => quiet (fun _ => rfl) rfl)
    (fun isa => ⟨fun r e he hs => ?_, rfl⟩) (fun isa => .of_quiet (fun _ _ he => load he) rfl)
    (fun isa => ⟨fun r e he hs => ?_, rfl⟩) fun _ =>
      ⟨.of_quiet (fun _ _ he => load he) rfl, ⟨fun _ e he _ => List.mem_singleton.mp he, rfl⟩,
        fun i => Instr.OnWord.of_commands⟩
  · rcases List.mem_cons.mp he with rfl | he
    · cases hs
    · exact List.mem_singleton.mp he
  · cases r with
    | false => cases he
    | true => simpa [Instr.accesses] using he

/-- An attempt to take a lock stores nothing but a one to its word. -/
theorem RawLock.tryAcquire_onWord (l : RawLock) (b : Backend) :
    (l.tryAcquire b).All (Instr.OnWord l.word 1) :=
  (b.testSetLock_onWord l.word 1).bind fun _ => .ret _

/-- To wait for a lock stores nothing but ones to its word. -/
theorem RawLock.acquire_onWord (l : RawLock) (b : Backend) :
    (l.acquire b).All (Instr.OnWord l.word 1) :=
  .iterate (fun _ => .bind (l.tryAcquire_onWord b) fun _ => .ret _) ()

theorem SpinLock.tryAcquire_onWord {t : Scalar} (l : SpinLock t) :
    l.tryAcquire.All (Instr.OnWord l.lock.word 1) :=
  (l.lock.tryAcquire_onWord l.backend).bind fun _ => .ret _

theorem SpinLock.acquire_onWord {t : Scalar} (l : SpinLock t) :
    l.acquire.All (Instr.OnWord l.lock.word 1) :=
  (l.lock.acquire_onWord l.backend).bind fun _ => .ret _

end Atomicity
