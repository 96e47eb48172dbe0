import Atomicity.Proofs.Complying
import Atomicity.Proofs.OneCore.MaskedSections
import Atomicity.Proofs.OneCore.World

/-!
# Locks shared with interrupt handlers

What holds of every run on one core of a main context and of handlers that share locks, if all of
them nest their critical sections and run them with interrupts masked (`Nests`).

One lock at a time is looked at (`Safe`): what the running context has left of it is sealed, and
every context that has been interrupted does not hold it and goes on from wherever interrupts are
enabled and it is free, which is how a handler leaves things. Every step preserves that
(`Safe.step`), and so does every run (`Safe.run`).

**No context ever waits for a lock, and none is interrupted in a critical section**
(`masked_locks_never_spin`), on every backend.
-/

namespace Atomicity

namespace OneCore

variable {S : Service} {c : Controller} {a d : Addr} {n : Nat} {flag : Bool} {log : List Executed}
  {s s' : State}

/-- Where a context stands between two requests, with nothing executed of the next one. -/
theorem At.forget (h : At c a false flag log s) : At c a false flag [] s := by
  refine ⟨⟨?_, fun hheld => absurd hheld Bool.false_ne_true, rfl⟩, rfl, h.flag⟩
  rw [h.sealed.word, h.holds]
  rfl

theorem Quiet.at (h : Quiet c a s) : At c a false true [] s :=
  ⟨⟨h.2, fun hheld => absurd hheld Bool.false_ne_true, rfl⟩, rfl, h.1⟩

theorem Quiet.sealed (h : Quiet c a s) (hfree : (tenure a log).holds = false)
    (hspun : (tenure a log).spun = false) : Sealed c a log s := by
  refine ⟨?_, fun hheld => absurd (hfree.symm.trans hheld) Bool.false_ne_true, hspun⟩
  rw [h.2, hfree]
  rfl

/-- With interrupts enabled, a context does not hold the lock. -/
theorem Sealed.not_held (h : Sealed c a log s) (henabled : c.enabled s.core = true) :
    (tenure a log).holds = false :=
  Bool.eq_false_iff.mpr fun hheld => Bool.false_ne_true ((h.masked hheld).symm.trans henabled)

theorem Sealed.quiet (h : Sealed c a log s) (henabled : c.enabled s.core = true) : Quiet c a s := by
  refine ⟨henabled, ?_⟩
  rw [h.word, h.not_held henabled]
  rfl

theorem read_putEnabled (c : Controller) (b : Bool) (s : State) (w : Width) (a : Addr) :
    (c.putEnabled b s).read w a = s.read w a :=
  congrArg (fun m => Memory.read m w a) (c.memory_putEnabled b s)

/-- What is left of a context's request keeps the lock sealed for so many steps. -/
def Keeping (c : Controller) (a d : Addr) (flag : Bool) (n : Nat) (x : Context S) (s : State) :
    Prop :=
  x.Complies (fun _ => sections c a d) (At c a false flag []) (fun _ => At c a false flag) n s

namespace Keeping

variable {x : Context S}

theorem le {m : Nat} (hmn : m ≤ n) (h : Keeping c a d flag n x s) : Keeping c a d flag m x s :=
  Context.Complies.le hmn h

theorem step (serves : ∀ r flag, (sections c a d).Leads (At c a false flag) (S.prog r)
      fun _ => At c a false flag)
    (h : Keeping c a d flag (n + 1) x s) (refused : Bool) :
    Keeping c a d flag n (x.step refused s).1 (x.step refused s).2 :=
  Context.Complies.step (fun _ => sections_refl c a d) (fun _ _ _ _ _ _ _ hown => And.left hown)
    (fun r s hs => serves r flag [] s hs) (fun _ _ _ hs => At.forget hs) h refused

/-- A step of a context leaves the lock sealed. -/
theorem sealed_step (h : Keeping c a d flag (n + 1) x s) (hs : Sealed c a x.log s)
    (refused : Bool) :
    Sealed c a (x.step refused s).1.log (x.step refused s).2 := by
  have hstep := x.stepped refused s
  generalize x.step refused s = out at hstep ⊢
  obtain ⟨x', s'⟩ := out
  cases hstep with
  | idle answered => exact hs
  | start r todo answered => exact hs
  | finish r y log todo answered =>
    have hat : At c a false flag log _ := h
    exact hat.forget.sealed
  | loop r body y k log todo answered => exact hs
  | exec r i k log todo answered =>
    obtain ⟨g, ⟨rfl, -, hsealed⟩, -⟩ := Context.Complies.own (sections_refl c a d i s) h refused
    exact hsealed

/-- What a lock guards is accessed by whoever holds it. -/
theorem holds_of_target? (h : Keeping c a d flag (n + 1) x s) {i : Instr} (hi : x.next? = some i)
    (hd : i.target? = some d) : (x.tenure a).holds = true := by
  obtain ⟨current, todo, answered⟩ := x
  cases current with
  | none => cases hi
  | some p =>
    obtain ⟨r, rest, log⟩ := p
    cases rest with
    | ret y => cases hi
    | loop body y k => cases hi
    | instr j k =>
      obtain rfl : j = i := Option.some.inj hi
      obtain ⟨g, ⟨-, hheld, -⟩, -⟩ := Context.Complies.own (sections_refl c a d j s) h false
      exact hheld hd

/-- A context that is interrupted goes on from wherever a handler may leave things. -/
theorem of_quiet (h : Keeping c a d flag (n + 1) x s) (hx : x.interruptible = true)
    (henabled : c.enabled s.core = true) (hs' : Quiet c a s') :
    Keeping c a d flag (n + 1) x s' := by
  obtain ⟨current, todo, answered⟩ := x
  cases current with
  | none =>
    have hat : At c a false flag [] s := h
    obtain rfl : flag = true := hat.flag.symm.trans henabled
    exact hs'.at
  | some p =>
    obtain ⟨r, rest, log⟩ := p
    cases rest with
    | ret y => cases hx
    | loop body y k => cases hx
    | instr i k =>
      have hpreemptible : i.preemptible = true := hx
      have hkeeps :
          (sections c a d).Keeps (fun _ => At c a false flag) (n + 1) (.instr i k) log s := h
      intro s'' he refused
      refine hkeeps s'' (.inr ⟨hpreemptible, henabled, ?_⟩) refused
      rcases he with rfl | ⟨-, -, hquiet⟩
      · exact hs'
      · exact hquiet

end Keeping

/-- The lock at `a` is as it should be, and stays so for so many steps. -/
structure Safe (c : Controller) (a d : Addr) (n : Nat) (x : OneCore S) : Prop where
  running : ∃ flag, Keeping c a d flag n x.running x.state
  sealed : Sealed c a x.running.log x.state
  interrupted : ∀ k ∈ x.interrupted, (k.tenure a).holds = false ∧ (k.tenure a).spun = false ∧
    ∃ flag, ∀ s, Quiet c a s → Keeping c a d flag n k s

namespace Safe

variable {x : OneCore S}

theorem le {m : Nat} (hmn : m ≤ n) (h : Safe c a d n x) : Safe c a d m x := by
  obtain ⟨flag, hrun⟩ := h.running
  refine ⟨⟨flag, hrun.le hmn⟩, h.sealed, fun k hk => ?_⟩
  obtain ⟨hfree, hspun, flag, hkeep⟩ := h.interrupted k hk
  exact ⟨hfree, hspun, flag, fun s hs => (hkeep s hs).le hmn⟩

theorem start (hfree : s.read .w64 a = 0) (todo : List S.Request) :
    Safe c a d n (.start s todo) := by
  have hsealed : Sealed c a [] s := ⟨hfree, fun h => absurd h Bool.false_ne_true, rfl⟩
  exact ⟨⟨c.enabled s.core, hsealed, rfl, rfl⟩, hsealed, fun k hk => absurd hk List.not_mem_nil⟩

theorem interrupt (h : Safe c a d (n + 1) x) (masked : Bool) (todo : List S.Request) :
    Safe c a d n (x.interrupt c masked todo) := by
  unfold OneCore.interrupt
  split
  · next hopen =>
    obtain ⟨henabled, hinterruptible⟩ : c.enabled x.state.core = true ∧
      x.running.interruptible = true := by
      simpa using hopen
    have hquiet := h.sealed.quiet henabled
    have hword : (c.putEnabled (!masked) x.state).read .w64 a = 0 :=
      (read_putEnabled c _ x.state .w64 a).trans hquiet.2
    have hsealed : Sealed c a [] (c.putEnabled (!masked) x.state) :=
      ⟨hword, fun hheld => absurd hheld Bool.false_ne_true, rfl⟩
    refine ⟨⟨!masked, hsealed, rfl, c.enabled_putEnabled _ _⟩, hsealed, fun k hk => ?_⟩
    rcases List.mem_cons.mp hk with rfl | hk
    · obtain ⟨flag, hrun⟩ := h.running
      refine ⟨h.sealed.not_held henabled, h.sealed.spun, flag, fun s hs => ?_⟩
      exact (hrun.of_quiet hinterruptible henabled hs).le (Nat.le_succ n)
    · exact (h.le (Nat.le_succ n)).interrupted k hk
  · exact h.le (Nat.le_succ n)

theorem go (serves : ∀ r flag, (sections c a d).Leads (At c a false flag) (S.prog r)
      fun _ => At c a false flag)
    (h : Safe c a d (n + 1) x) (refused : Bool) : Safe c a d n (x.go c refused) := by
  unfold OneCore.go
  split
  · exact h.le (Nat.le_succ n)
  -- a handler is over, and leaves things as the context below has waited for
  · next below rest hdone hinterrupted =>
    obtain ⟨flag, hrun⟩ := h.running
    have hidle : At c a false flag [] x.state := by
      have hnone := (Context.isDone_iff.mp hdone).1
      simpa only [Keeping, Context.Complies, hnone] using hrun
    have hquiet : Quiet c a (c.putEnabled true x.state) := by
      refine ⟨c.enabled_putEnabled true x.state, ?_⟩
      rw [read_putEnabled, hidle.sealed.word]
      rfl
    have hwait := (h.le (Nat.le_succ n)).interrupted
    rw [hinterrupted] at hwait
    obtain ⟨hfree, hspun, flag', hkeep⟩ := hwait below List.mem_cons_self
    exact ⟨⟨flag', hkeep _ hquiet⟩, hquiet.sealed hfree hspun,
      fun k hk => hwait k (List.mem_cons_of_mem below hk)⟩
  · obtain ⟨flag, hrun⟩ := h.running
    exact ⟨⟨flag, hrun.step serves refused⟩, hrun.sealed_step h.sealed refused,
      (h.le (Nat.le_succ n)).interrupted⟩

/-- **Every step leaves the lock as it should be.** -/
theorem step (serves : ∀ r flag, (sections c a d).Leads (At c a false flag) (S.prog r)
      fun _ => At c a false flag)
    (h : Safe c a d (n + 1) x) (choice : Choice S) : Safe c a d n (x.step c choice) := by
  cases choice with
  | go refused => exact h.go serves refused
  | interrupt masked todo => exact h.interrupt masked todo

theorem run (serves : ∀ r flag, (sections c a d).Leads (At c a false flag) (S.prog r)
      fun _ => At c a false flag)
    (choices : List (Choice S)) (h : Safe c a d (choices.length + n) x) :
    Safe c a d n (x.run c choices) := by
  induction choices generalizing x with
  | nil => exact h.le (Nat.le_of_eq (Nat.zero_add n).symm)
  | cons choice choices ih =>
    refine ih (step serves (h.le ?_) choice)
    simp only [List.length_cons]
    omega

end Safe

/-- **Locks that are taken with interrupts masked are safe to share with interrupt handlers on one
core.** Main context and handlers take the locks of a family, on any backend, by `acquireMasked`
only, never one that they hold, and free them last one first; all are free at first. Then at every
instant of every run and for every one of the locks: its word is not zero only while interrupts are
masked; no context has found it taken, so none has ever waited; no context that has been interrupted
holds it; and if the running context is about to access what the lock guards, that context holds
it. -/
theorem masked_locks_never_spin {ι : Type} [DecidableEq ι] {t : ι → Scalar}
    (lock : (i : ι) → SpinLock (t i)) (b : Backend) (hb : ∀ i, (lock i).backend = b)
    (hwords : ∀ i j, (lock i).lock.word = (lock j).lock.word → i = j)
    (hdata : ∀ i j, (lock i).data ≠ (lock j).lock.word) (S : Service)
    (nests : ∀ r, Nests lock b [] (S.prog r) fun _ => []) (s : State)
    (hfree : ∀ i, s.read .w64 (lock i).lock.word = 0) (todo : List S.Request)
    (choices : List (Choice S)) :
    let x := (OneCore.start s todo).run b.controller choices
    ∀ i,
      (x.state.read .w64 (lock i).lock.word ≠ 0 → b.controller.enabled x.state.core = false) ∧
      (∀ k ∈ x.contexts, (k.tenure (lock i).lock.word).spun = false) ∧
      (∀ k ∈ x.interrupted, (k.tenure (lock i).lock.word).holds = false) ∧
      ∀ instr, x.running.next? = some instr → instr.target? = some (lock i).data →
        (x.running.tenure (lock i).lock.word).holds = true := by
  intro x j
  have serves : ∀ r flag, (sections b.controller (lock j).lock.word (lock j).data).Leads
      (At b.controller (lock j).lock.word false flag) (S.prog r)
      fun _ => At b.controller (lock j).lock.word false flag := by
    intro r flag
    refine ((Sections.of_nests hb hwords hdata (nests r) j flag).weaken fun log s hs => ?_).mono
      fun _ log s hs => hs.2
    exact ⟨trivial, hs⟩
  have hsafe : Safe b.controller (lock j).lock.word (lock j).data 1 x :=
    .run serves choices (.start (hfree j) todo)
  refine ⟨fun hword => ?_, fun k hk => ?_, fun k hk => (hsafe.interrupted k hk).1,
    fun i hi hd => ?_⟩
  · refine hsafe.sealed.masked (Bool.of_not_eq_false fun hfree => hword ?_)
    rw [hsafe.sealed.word, hfree]
    rfl
  · rcases List.mem_cons.mp hk with rfl | hk
    · exact hsafe.sealed.spun
    · exact (hsafe.interrupted k hk).2.1
  · obtain ⟨flag, hrun⟩ := hsafe.running
    exact hrun.holds_of_target? hi hd

/-- Two locks on a backend that masks interrupts around their words, and a byte that each guards. -/
def twoLocks (second : Bool) : SpinLock (.int (.unsigned .w8)) :=
  ⟨.globalLock .hosted .native, ⟨.cell second.toNat⟩, .guarded second.toNat⟩

/-- Takes the first lock and then the second, and frees the second and then the first. -/
def nesting : Service where
  Request := Unit
  Answer _ := Unit
  prog _ := do
    let outer ← (twoLocks false).acquireMasked
    let inner ← (twoLocks true).acquireMasked
    (twoLocks true).unlock inner
    (twoLocks false).unlock outer

theorem nests_nesting (r : nesting.Request) :
    Nests twoLocks (.globalLock .hosted .native) [] (nesting.prog r) fun _ => [] := by
  refine .bind (.lock false (by simp)) fun outer => ?_
  refine .bind (.lock true (by simp)) fun inner => ?_
  exact .bind (.unlock true inner [(false, outer)]) fun _ => .unlock false outer []

/-- A handler has both locks, and the context that it has interrupted has none. -/
theorem handler_in_nested_sections :
    let x := (OneCore.start (S := nesting) (.start true true) [()]).run .hosted
      ([.go false, .interrupt false [()]] ++ List.replicate 19 (.go false))
    x.depth = 1 ∧ (∀ i, x.state.read .w64 (twoLocks i).lock.word = 1) ∧
      Controller.hosted.enabled x.state.core = false := by
  refine ⟨by decide, by decide, ?_⟩
  have h :=
    masked_locks_never_spin twoLocks (.globalLock .hosted .native) (fun _ => rfl) (by decide)
      (by decide) nesting nests_nesting (.start true true) (fun _ => rfl) [()]
      ([.go false, .interrupt false [()]] ++ List.replicate 19 (.go false)) false
  exact h.1 (by decide)

end OneCore

end Atomicity
