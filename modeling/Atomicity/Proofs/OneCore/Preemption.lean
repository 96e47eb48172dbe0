import Atomicity.Proofs.OneCore.Emulations
import Atomicity.Proofs.OneCore.Run

/-!
# Operations under preemption

What holds of every run of operations on one core, with handlers that interrupt and are interrupted,
on the two backends that mask interrupts instead of having an instruction.

**The global lock is held only with interrupts masked, and never waited for**
(`global_lock_never_spins`): every section finds it free at its first attempt, at every instant of
every run, and where no context is in a section it is free.

**Every operation is atomic** (`linearizable_under_preemption`): what is seen of all contexts is
what can be seen of operations done one at a time, each at one instant between its start and its
return, and memory is as they leave it.

That a thread gets the simulated core in the end is not claimed here: that is up to who else has it.
-/

namespace Atomicity

/-- What the operations on a backend do, each all at once. -/
def Backend.effects (b : Backend) : b.service.Effects := fun o => o.1.effect

/-- Where a context is, going by what it has executed. -/
def Context.place {S : Service} (x : Context S) : Section := x.log.foldr Section.note .outside

namespace OneCore

variable {S : Service} {E : S.Effects} {c : Controller} {guarded : Bool} {n : Nat}

theorem Wait.lawful {stage : Nat → Stage S} {l : List (Context S)} (h : Wait c true E n stage l)
    {x : Context S} (hx : x ∈ l) : ∃ s, Lawful c x.place s := by
  induction l with
  | nil => cases hx
  | cons below rest ih =>
    obtain ⟨⟨flag, hbelow⟩, hrest⟩ := h
    rcases List.mem_cons.mp hx with rfl | hx
    · obtain ⟨s, hs⟩ := exists_calm c true
      exact ⟨s, (hbelow s hs).lawful rfl⟩
    · exact ih hrest hx

/-- Whatever context it is, its section has found the lock as it should. -/
theorem Invariant.inside {x : OneCore S} {y : Reference S Nat} (h : Invariant c true E n x y)
    {k : Context S} (hk : k ∈ x.contexts) {found : List (Word .w64)}
    (hf : k.place = .inside found) :
    found <+: [0, 1] := by
  rcases List.mem_cons.mp hk with rfl | hk
  · obtain ⟨flag, hrun⟩ := h.running
    exact (hrun.lawful rfl).inside found hf
  · obtain ⟨s, hs⟩ := h.interrupted.lawful hk
    exact hs.inside found hf

theorem indivisible_of_provides {b : Backend} (h : ∀ flag, (world c guarded flag).Provides b)
    (flag : Bool) (o : b.service.Request) :
    (world c guarded flag).Indivisible (b.service.prog o) (b.effects o) :=
  (h flag).operation o.1 o.2

/-- **The global lock is never waited for on one core.** It has been constructed and is free at the
start. Then at every instant of every run, it is held only with interrupts masked; every section has
found it free at the first attempt and held by itself when it gave it up; and where no context is in
a section it is free. -/
theorem global_lock_never_spins (c : Controller) (base : Backend) (s : State) (hs : c.Sound s)
    (hlock : s.shared.once = .complete ∧ lockWord s = 0)
    (todo : List (Backend.globalLock c base).service.Request)
    (choices : List (Choice (Backend.globalLock c base).service)) :
    let x := (OneCore.start s todo).run c choices
    (lockWord x.state ≠ 0 → c.enabled x.state.core = false) ∧
      (∀ k ∈ x.contexts, ∀ found, k.place = .inside found → found <+: [0, 1]) ∧
      ((∀ k ∈ x.contexts, k.place = .outside) → lockWord x.state = 0) := by
  intro x
  have hstands : Stands c true (c.enabled s.core) .outside 0 .outside s :=
    .between rfl hs fun _ => hlock
  have hstart := Invariant.start (E := Backend.effects _) (n := choices.length + 0) hstands todo
  obtain ⟨y, -, h⟩ :=
    hstart.run (indivisible_of_provides (provides_globalLock c base)) choices
  obtain ⟨flag, hrun⟩ := h.running
  have hl : Lawful c x.running.place x.state := hrun.lawful rfl
  refine ⟨hl.masked, fun k hk found hf => h.inside hk hf, fun hout => ?_⟩
  exact hl.outside (hout x.running List.mem_cons_self)

/-- Interrupts are enabled, and a global lock has been constructed. -/
def constructed : State := ⟨.start true true, { Shared.start with once := .complete }⟩

def storeOne (b : Backend) : b.service.Request := ⟨.store .w8 (.cell 0) 1, Addr.noConfusion⟩

/-- A store is interrupted by a handler that does the same, and the handler has the lock. -/
theorem global_lock_held_by_handler :
    let b := Backend.globalLock .line .native
    let x := (OneCore.start constructed [storeOne b]).run .line
      ([.go false, .go false, .interrupt true [storeOne b]] ++ List.replicate 12 (.go false))
    x.depth = 1 ∧ lockWord x.state = 1 ∧ Controller.line.enabled x.state.core = false := by
  refine ⟨by decide, by decide, ?_⟩
  have h := global_lock_never_spins .line .native constructed (fun h => nomatch h) ⟨rfl, rfl⟩
    [storeOne (.globalLock .line .native)]
    ([.go false, .go false, .interrupt true [storeOne (.globalLock .line .native)]] ++
      List.replicate 12 (.go false))
  exact h.1 (by decide)

theorem read_of_view {s : State} {w : Width} {a : Addr} {m : Memory} (hm : m = view guarded s)
    (ha : a ≠ .globalLock) : m.read w a = s.read w a :=
  hm ▸ read_view s w ha

/-- All of memory is in view once a context stands outside of any section. -/
theorem Stands.view_eq {flag : Bool} {at' : Section} {s : State}
    (h : Stands c guarded flag .outside 0 at' s) : view guarded s = s.shared.memory := by
  cases guarded with
  | false => rfl
  | true =>
    have hw : s.shared.memory.read .w64 .globalLock = 0 := (h.lock rfl).2
    have h := s.shared.memory.write_read .w64 .globalLock
    rw [hw] at h
    exact h

/-- A run of indivisible requests on one core is linearizable, begun outside of any section. -/
theorem linearizable_from {flag : Bool}
    (serves : ∀ flag r, (world c guarded flag).Indivisible (S.prog r) (E r)) {s : State}
    (hs : Stands c guarded flag .outside 0 .outside s) (todo : List S.Request)
    (choices : List (Choice S)) :
    let x := (OneCore.start s todo).run c choices
    ∃ m, Linearizable E s.shared.memory x.history m ∧
      (∀ w a, a ≠ .globalLock → m.read w a = x.state.read w a) ∧
      (x.isDone = true → m = x.state.shared.memory) := by
  intro x
  have hstart := Invariant.start (E := E) (n := choices.length + 0) hs todo
  rw [hs.view_eq] at hstart
  obtain ⟨y, ⟨ms, hrun, hhist⟩, h⟩ := hstart.run serves choices
  refine ⟨y.memory, ⟨ms, y, hrun, hhist.symm, rfl⟩, fun w a ha => read_of_view h.memory ha,
    fun hd => ?_⟩
  obtain ⟨-, flag, hstands⟩ := h.stands_of_done ((Bool.and_eq_true _ _).mp hd).1
  exact h.memory.trans hstands.view_eq

/-- The same of a lock that has been constructed. -/
theorem linearizable_run (serves : ∀ flag r, (world c guarded flag).Indivisible (S.prog r) (E r))
    {s : State} (hs : c.Sound s)
    (hlock : guarded = true → s.shared.once = .complete ∧ lockWord s = 0)
    (todo : List S.Request) (choices : List (Choice S)) :
    let x := (OneCore.start s todo).run c choices
    ∃ m, Linearizable E s.shared.memory x.history m ∧
      (∀ w a, a ≠ .globalLock → m.read w a = x.state.read w a) ∧
      (x.isDone = true → m = x.state.shared.memory) :=
  linearizable_from serves (.between rfl hs hlock) todo choices

/-- **Every operation is atomic under preemption**, on a single core and under a global lock that
has been constructed and is free. Whatever a main context and handlers do on the same words, and
wherever they are interrupted, what is seen of them is what can be seen of the operations done one
at a time, each at an instant between its start and its return, with the same answers. Memory is
always what these operations leave, but for the word of the global lock while it is held. -/
theorem linearizable_under_preemption (b : Backend)
    (hb : b.strategy = .singleCore ∨ b.strategy = .globalLock) (s : State)
    (hs : b.controller.Sound s)
    (hlock : b.strategy = .globalLock → s.shared.once = .complete ∧ lockWord s = 0)
    (todo : List b.service.Request) (choices : List (Choice b.service)) :
    let x := (OneCore.start s todo).run b.controller choices
    ∃ m, Linearizable b.effects s.shared.memory x.history m ∧
      (∀ w a, a ≠ .globalLock → m.read w a = x.state.read w a) ∧
      (x.isDone = true → m = x.state.shared.memory) := by
  cases b with
  | singleCore c isa widths =>
    exact linearizable_run (indivisible_of_provides (provides_singleCore c isa widths)) hs
      (fun h => nomatch h) todo choices
  | globalLock c base =>
    exact linearizable_run (indivisible_of_provides (provides_globalLock c base)) hs
      (fun _ => hlock rfl) todo choices
  | native => simp [Backend.strategy] at hb
  | traced => simp [Backend.strategy] at hb
  | casOnly => simp [Backend.strategy] at hb
  | pair isa => simp [Backend.strategy] at hb

def countUp (b : Backend) : b.service.Request :=
  ⟨.update .w8 (.cell 0) (· + 1), Addr.noConfusion⟩

/-- A handler stores one between the load and the compare-and-exchange of a main context that adds
one, which tries again. -/
theorem update_interrupted_by_store :
    let b := Backend.singleCore .line .bench .full
    let x := (OneCore.start constructed [countUp b]).run .line
      (List.replicate 5 (.go false) ++ [.interrupt false [storeOne b]] ++
        List.replicate 21 (.go false))
    ∃ m, Linearizable b.effects constructed.shared.memory x.history m ∧
      m.read .w8 (.cell 0) = 2 := by
  intro b x
  obtain ⟨m, hm, hread, -⟩ := linearizable_under_preemption b (.inl rfl) constructed
    (fun h => nomatch h) (fun h => nomatch h) [countUp b]
    (List.replicate 5 (.go false) ++ [.interrupt false [storeOne b]] ++
      List.replicate 21 (.go false))
  refine ⟨m, hm, (hread .w8 (.cell 0) Addr.noConfusion).trans ?_⟩
  decide +kernel

end OneCore

end Atomicity
