import Atomicity.Proofs.OneCore.Preemption
import Atomicity.Proofs.Threads.Emulations
import Atomicity.Proofs.Threads.Run
import Mathlib.Data.List.Permutation

/-!
# Operations between threads

What holds of every run of operations of threads, however many, that mask interrupts by owning a
simulated core and are interleaved in any way (`linearizable_between_threads`).

**Under the global lock every operation is atomic**, the ones on the word of a lock included,
whatever else is done to that word. Threads that want the simulated core wait for it, so the lock is
never waited for.

**On a single core that holds word by word.** A compare-and-exchange there masks interrupts around a
read and a write, and a store or a swap of another thread does not wait for that. A word is atomic
that is not used in both ways (`Unmixed`): the operations of a run on it compare, or else they store
and swap. Loads mix with either, and nothing that is done to other words matters. Of a word that is
used in both ways it does not hold (`mixed_word_not_atomic`).
-/

namespace Atomicity

namespace Threads

variable {n : Nat} {b : Backend}

/-- The operation is on one of the targets. -/
def aimsAt (targets : Width → Addr → Bool) (o : b.service.Request) : Bool :=
  targets o.1.width o.1.addr

/-- Threads only compare the word, or they only store to it and swap it. -/
def Unmixed (todo : Fin n → List b.service.Request) (w : Width) (a : Addr) : Prop :=
  (∀ k, ∀ o ∈ todo k, o.1.width = w → o.1.addr = a → o.1.compares = true) ∨
    ∀ k, ∀ o ∈ todo k, o.1.width = w → o.1.addr = a → o.1.swaps = true

/-- All operations of threads on the word compare it. -/
def compared (todo : Fin n → List b.service.Request) (w : Width) (a : Addr) : Bool :=
  decide (∀ k, ∀ o ∈ todo k, o.1.width = w → o.1.addr = a → o.1.compares = true)

/-- Under the global lock, all operations are served. -/
theorem serves_globalLock (base : Backend) (o : (Backend.globalLock .hosted base).service.Request) :
    (world underLock).Serves (fun _ => true) (Backend.globalLock .hosted base).effects o where
  indivisible _ := (provides_globalLock base).operation o.1 o.2
  silent h := Bool.noConfusion h

/-- On a single core, the operations on targets are served that are compared or swapped, and not
both. -/
theorem serves_singleCore {isa : SwapIsa} {widths : WidthSet} {targets : Width → Addr → Bool}
    {todo : Fin n → List (Backend.singleCore .hosted isa widths).service.Request}
    (hunmixed : ∀ w a, targets w a = true → Unmixed todo w a) (k : Fin n) :
    ∀ o ∈ todo k, (world (onSingleCore targets (compared todo))).Serves (aimsAt targets)
      (Backend.singleCore .hosted isa widths).effects o := by
  intro o ho
  constructor
  · intro htarget
    have hshown : targets o.1.width o.1.addr = true := htarget
    cases hcompared : compared todo o.1.width o.1.addr with
    | true =>
      have hcompares := of_decide_eq_true hcompared k o ho rfl rfl
      exact indivisible_of_compares hcompares o.2 hshown
        ((Bool.and_eq_true _ _).mpr ⟨hshown, hcompared⟩)
    | false =>
      have hswaps :=
        (hunmixed _ _ hshown).resolve_left (of_decide_eq_false hcompared) k o ho rfl rfl
      refine indivisible_of_swaps hswaps o.2 hshown ?_
      show (targets o.1.width o.1.addr && compared todo o.1.width o.1.addr) = false
      rw [hcompared, Bool.and_false]
  · intro hother
    have hhidden : targets o.1.width o.1.addr = false := hother
    refine silent_of_hidden o.1 o.2 hhidden ?_
    show (targets o.1.width o.1.addr && compared todo o.1.width o.1.addr) = false
    rw [hhidden, Bool.false_and]

theorem seenOf_all {S : Service} {κ : Type} (history : List (Moment S κ)) :
    seenOf (fun _ => true) history = history :=
  List.filter_eq_self.mpr fun _ _ => rfl

/-- **Operations of threads are atomic**, however many threads there are and however they are
interleaved, where interrupts are masked by owning a simulated core that nobody owns at the start.

Under a global lock that is free and not being constructed, that is so of all operations on any
words. What is seen of a run is what can be seen of operations done one at a time, each at an
instant between its start and its return, with the same answers. Memory is always what these
operations leave, but for the word of the global lock while it is held. Every section finds the lock
free at its first attempt, and held by itself when it gives it up.

On a single core, that is so of the operations on targets that are each used in one way: they are
compared, or else they are stored to and swapped. Other words may be used in any way. -/
theorem linearizable_between_threads (shared : Shared) (core : Fin n → Core)
    (howner : shared.coreOwned = false) (hmasked : ∀ k, (core k).masked = false)
    (choices : List (Fin n × Bool)) :
    (∀ (base : Backend) (todo : Fin n → List (Backend.globalLock .hosted base).service.Request),
      shared.once ≠ .running → shared.memory.read .w64 .globalLock = 0 →
      let x := (ManyCores.start shared core todo).run choices
      (∃ m, Linearizable (Backend.globalLock .hosted base).effects shared.memory x.history m ∧
        (∀ w a, a ≠ .globalLock → m.read w a = x.shared.memory.read w a) ∧
        (x.isDone → m = x.shared.memory)) ∧
      ∀ k found, (x.context k).place = .inside found → found <+: [0, 1]) ∧
    ∀ (isa : SwapIsa) (widths : WidthSet)
      (todo : Fin n → List (Backend.singleCore .hosted isa widths).service.Request)
      (targets : Width → Addr → Bool), (∀ w a, targets w a = true → Unmixed todo w a) →
      let x := (ManyCores.start shared core todo).run choices
      Linearizable (Backend.singleCore .hosted isa widths).effects (shared.memory.restrict targets)
        (seenOf (aimsAt targets) x.history) (x.shared.memory.restrict targets) := by
  constructor
  · intro base todo honce hword x
    have hfree : Free underLock shared := fun _ => ⟨honce, hword⟩
    obtain ⟨hlinear, y, h⟩ :=
      linearizable_run (fun _ r _ => serves_globalLock base r) hmasked howner hfree choices
    refine ⟨⟨_, ?_, fun w a ha => Memory.read_restrict (underLock_shown w ha), fun hdone => ?_⟩,
      fun k found hfound => h.inside rfl hfound⟩
    · rwa [seenOf_all, hfree.restrict_eq] at hlinear
    · exact (h.free_of_isDone hdone).restrict_eq
  · intro isa widths todo targets hunmixed x
    exact (linearizable_run (serves_singleCore hunmixed) hmasked howner
      (fun hguarded => absurd hguarded Bool.false_ne_true) choices).1

/-- Two threads take steps in turns. -/
def inTurns (rounds : Nat) : List (Fin 2 × Bool) :=
  (List.replicate rounds ((List.finRange 2).map fun k => (k, false))).flatten

/-- One thread adds to a word under the global lock, and the other one uses it as the word of a
lock. -/
def addAndLock (k : Fin 2) : List (Backend.globalLock .hosted .native).service.Request :=
  if k.val = 0 then [⟨.fetch .add .w64 (.cell 0) 5, Addr.noConfusion⟩]
  else [⟨.testSetLock (.cell 0) 2, Addr.noConfusion⟩]

/-- Two threads compare one byte of a single core, and use another byte in both ways. -/
def compareAndMix (k : Fin 2) : List (Backend.singleCore .hosted .bench .full).service.Request :=
  if k.val = 0 then
    [⟨.compareExchange .w8 (.cell 0) 0 1, Addr.noConfusion⟩,
      ⟨.store .w8 (.cell 1) 3, Addr.noConfusion⟩]
  else
    [⟨.fetch .add .w8 (.cell 0) 4, Addr.noConfusion⟩,
      ⟨.compareExchange .w8 (.cell 1) 0 9, Addr.noConfusion⟩]

/-- Whoever is first, the word that is locked and added to in between has been both when the threads
are done, and the byte that they compare has been exchanged and added to. -/
theorem contended_words_atomic :
    (let x := (ManyCores.start .start (fun _ => .start true false) addAndLock).run (inTurns 40)
      ∃ m, Linearizable (Backend.globalLock .hosted .native).effects
        Shared.start.memory x.history m ∧
        m.read .w64 (.cell 0) = 7) ∧
    (let targets : Width → Addr → Bool := fun w a => w == .w8 && a == .cell 0
      let x := (ManyCores.start .start (fun _ => .start true false) compareAndMix).run (inTurns 60)
      Linearizable (Backend.singleCore .hosted .bench .full).effects
          (Shared.start.memory.restrict targets)
          (seenOf (aimsAt targets) x.history) (x.shared.memory.restrict targets) ∧
        x.shared.memory.read .w8 (.cell 0) = 5) := by
  constructor
  · obtain ⟨⟨m, hm, -, hdone⟩, -⟩ :=
      (linearizable_between_threads .start (fun _ => .start true false) rfl
        (fun _ => rfl) (inTurns 40)).1 .native addAndLock OnceStatus.noConfusion rfl
    refine ⟨m, hm, ?_⟩
    rw [hdone (by decide +kernel)]
    decide +kernel
  · refine ⟨(linearizable_between_threads .start (fun _ => .start true false) rfl (fun _ => rfl)
      (inTurns 60)).2 .bench .full compareAndMix _ fun w a htarget => ?_, by decide +kernel⟩
    obtain ⟨rfl, rfl⟩ : w = .w8 ∧ a = .cell 0 := by simpa using htarget
    exact .inl (by decide)

/-- One thread compares and exchanges a byte, and another one stores to it. -/
def compareAndStore (k : Fin 2) : List (Backend.singleCore .hosted .x86 .full).service.Request :=
  if k.val = 0 then [⟨.compareExchange .w8 (.cell 0) 0 1, Addr.noConfusion⟩]
  else [⟨.store .w8 (.cell 0) 2, Addr.noConfusion⟩]

/-- What they are answered: the byte was the one expected. -/
def comparedAndStored (k : Fin 2) : Answered (Backend.singleCore .hosted .x86 .full).service :=
  if k.val = 0 then ⟨⟨.compareExchange .w8 (.cell 0) 0 1, Addr.noConfusion⟩, ⟨true, 0⟩⟩
  else ⟨⟨.store .w8 (.cell 0) 2, Addr.noConfusion⟩, ()⟩

/-- **A word that is used in both ways is not atomic on a single core.** The store comes between the
read and the write of the compare-and-exchange, which succeeds and leaves no trace of it. In either
order, one at a time, the store would be seen: by the compare-and-exchange, or in the end. -/
theorem mixed_word_not_atomic :
    let targets : Width → Addr → Bool := fun w a => w == .w8 && a == .cell 0
    let x := (ManyCores.start .start (fun _ => .start true false) compareAndStore).run
      (List.replicate 7 (0, false) ++ List.replicate 5 (1, false) ++ List.replicate 9 (0, false))
    x.isDone ∧
      ¬ Linearizable (Backend.singleCore .hosted .x86 .full).effects
        (Shared.start.memory.restrict targets)
        (seenOf (aimsAt targets) x.history) (x.shared.memory.restrict targets) := by
  intro targets x
  refine ⟨by decide +kernel, fun hlinear => ?_⟩
  obtain ⟨order, hserial, hrecord⟩ := hlinear.serially_of_quiet (by decide +kernel)
  have hanswers : ∀ k, recordOf k ((seenOf (aimsAt targets) x.history).filterMap Moment.finish?) =
      [comparedAndStored k] :=
    Fin.forall_fin_two.mpr ⟨rfl, rfl⟩
  have hperm := flatMap_recordOf_perm (List.nodup_finRange 2) List.mem_finRange order
  rw [funext fun k => (hrecord k).trans (hanswers k)] at hperm
  have hread : (x.shared.memory.restrict targets).read .w8 (.cell 0) = 1 := by decide +kernel
  rcases List.perm_pair.mp hperm.symm with horder | horder
  -- the store is the last to write
  · rw [horder] at hserial
    obtain ⟨-, -, hfinal⟩ := hserial
    rw [hfinal] at hread
    change (Memory.write _ .w8 (.cell 0) 2).read .w8 (.cell 0) = 1 at hread
    rw [Memory.read_write_self] at hread
    exact absurd hread (by decide)
  -- the compare-and-exchange finds what has been stored
  · rw [horder] at hserial
    obtain ⟨-, hfails, -⟩ := hserial
    change ⟨true, 0⟩ =
      (Effect.compareExchange .w8 (.cell 0) 0 1 (Memory.write _ .w8 (.cell 0) 2)).1 at hfails
    rw [Effect.compareExchange, Memory.read_write_self, if_neg (by decide)] at hfails
    cases hfails

end Threads

end Atomicity
