import Atomicity.Proofs.Following
import Atomicity.Proofs.OneCore.World

/-!
# Runs on one core

What every run on one core preserves, if the requests of its contexts are indivisible there. The
running context follows the reference from where the core is; a context that has been interrupted
follows it from any calm core, and calm is what the core is when a context goes on that has been
interrupted (`Invariant`).

**The reference goes along with every step of the core** (`Invariant.step`), and so with a run
(`Invariant.run`). The invariant is for so many steps, and a run of that many keeps it.
-/

namespace Atomicity.OneCore

variable {S : Service} {E : S.Effects} {c : Controller} {guarded flag : Bool} {n : Nat}

/-! ## Handlers that come and go -/

theorem Calm.put {s : State} (h : Calm c guarded s) (b : Bool) :
    Stands c guarded b .outside 0 .outside (c.putEnabled b s) := by
  refine .outside (c.enabled_putEnabled b s) (c.sound_putEnabled b s) ?_
  intro hg
  rw [c.once_putEnabled, lockWord_of_memory (c.memory_putEnabled b s)]
  exact h.free hg

theorem Stands.put {at' : Section} {s : State} (h : Stands c guarded flag .outside 0 at' s) :
    Calm c guarded (c.putEnabled true s) where
  enabled := c.enabled_putEnabled true s
  sound := c.sound_putEnabled true s
  free hg := by
    rw [c.once_putEnabled, lockWord_of_memory (c.memory_putEnabled true s)]
    exact h.lock hg

theorem exists_calm (c : Controller) (guarded : Bool) : ∃ s, Calm c guarded s := by
  have h : Stands c guarded (c.enabled (Core.start true true)) .outside 0 .outside
      ⟨.start true true, { Shared.start with once := .complete }⟩ :=
    .between rfl (fun _ => rfl) fun _ => ⟨rfl, rfl⟩
  exact ⟨_, h.put⟩

/-- Where a handler may be started, the core is calm. -/
theorem calm_of_interruptible {x : Context S} {stage : Stage S} {s : State}
    (h : (world c guarded flag).Follows E (n + 1) x stage s) (hx : x.interruptible = true)
    (hen : c.enabled s.core = true) : Calm c guarded s := by
  cases hc : x.current with
  | none =>
    obtain ⟨-, hs⟩ := h.rest_of_idle hc
    obtain rfl : flag = true := hs.flag.symm.trans hen
    exact hs.calm
  | some p =>
    cases hi : p.next? with
    | none => simp [Context.interruptible, hc, hi] at hx
    | some i =>
      have hnext : x.next? = some i := by simp [Context.next?, hc, hi]
      have hpre : i.preemptible = true := by simpa [Context.interruptible, hc, hi] using hx
      exact h.ready hnext hpre hen

/-- A context that is interrupted follows from any calm core. -/
theorem follows_of_calm {x : Context S} {stage : Stage S} {s s' : State}
    (h : (world c guarded flag).Follows E (n + 1) x stage s) (hx : x.interruptible = true)
    (hen : c.enabled s.core = true) (hs' : Calm c guarded s') :
    (world c guarded flag).Follows E (n + 1) x stage s' := by
  cases hc : x.current with
  | none =>
    obtain ⟨rfl, hs⟩ := h.rest_of_idle hc
    obtain rfl : flag = true := hs.flag.symm.trans hen
    exact .idle hc hs'.stands
  | some p =>
    cases hi : p.next? with
    | none => simp [Context.interruptible, hc, hi] at hx
    | some i =>
      have hnext : x.next? = some i := by simp [Context.next?, hc, hi]
      have hpre : i.preemptible = true := by simpa [Context.interruptible, hc, hi] using hx
      refine h.disturbed hnext (fun hg => (h.lawful hg).calm (hs'.free hg).2) fun s'' he => ?_
      rcases he with rfl | ⟨-, -, hs''⟩
      · exact .inr ⟨hpre, hen, hs'⟩
      · exact .inr ⟨hpre, hen, hs''⟩

/-! ## The invariant -/

/-- Contexts that have been interrupted, last one first, follow the stages of their depths from any
calm core. -/
def Wait (c : Controller) (guarded : Bool) (E : S.Effects) (n : Nat) (stage : Nat → Stage S) :
    List (Context S) → Prop
  | [] => True
  | below :: rest =>
    (∃ flag, ∀ s, Calm c guarded s →
      (world c guarded flag).Follows E n below (stage rest.length) s) ∧
        Wait c guarded E n stage rest

structure Invariant (c : Controller) (guarded : Bool) (E : S.Effects) (n : Nat) (x : OneCore S)
    (y : Reference S Nat) : Prop where
  memory : y.memory = view guarded x.state
  running : ∃ flag, (world c guarded flag).Follows E n x.running (y.stage x.depth) x.state
  interrupted : Wait c guarded E n y.stage x.interrupted
  above : ∀ k, x.depth < k → y.stage k = none

theorem Wait.mono {m : Nat} {stage stage' : Nat → Stage S} {l : List (Context S)} (hmn : m ≤ n)
    (hstage : ∀ k, k < l.length → stage' k = stage k) (h : Wait c guarded E n stage l) :
    Wait c guarded E m stage' l := by
  induction l with
  | nil => trivial
  | cons below rest ih =>
    obtain ⟨⟨flag, hbelow⟩, hrest⟩ := h
    refine ⟨⟨flag, fun s hs => ?_⟩, ih (fun k hk => hstage k (Nat.lt_succ_of_lt hk)) hrest⟩
    rw [hstage rest.length (Nat.lt_succ_self _)]
    exact (hbelow s hs).le hmn

namespace Invariant

variable {x : OneCore S} {y : Reference S Nat}

theorem le {m : Nat} (hmn : m ≤ n) (h : Invariant c guarded E n x y) :
    Invariant c guarded E m x y := by
  obtain ⟨flag, hrun⟩ := h.running
  exact ⟨h.memory, ⟨flag, hrun.le hmn⟩, h.interrupted.mono hmn fun _ _ => rfl, h.above⟩

theorem start {s : State} (hs : Stands c guarded flag .outside 0 .outside s)
    (todo : List S.Request) :
    Invariant c guarded E n (.start s todo) (.start (view guarded s)) where
  memory := rfl
  running := ⟨flag, .idle rfl hs⟩
  interrupted := trivial
  above _ _ := rfl

/-- A context that is done stands outside of any section. -/
theorem stands_of_done (h : Invariant c guarded E n x y) (hd : x.running.isDone = true) :
    y.stage x.depth = none ∧
      ∃ flag, Stands c guarded flag .outside 0 .outside x.state := by
  obtain ⟨flag, hrun⟩ := h.running
  obtain ⟨hstage, hs⟩ := hrun.rest_of_idle (Context.isDone_iff.mp hd).1
  exact ⟨hstage, flag, hs⟩

theorem interrupt (h : Invariant c guarded E (n + 1) x y) (masked : Bool) (todo : List S.Request) :
    Invariant c guarded E n (x.interrupt c masked todo) y := by
  unfold OneCore.interrupt
  split
  · next hopen =>
    obtain ⟨hen, hint⟩ : c.enabled x.state.core = true ∧ x.running.interruptible = true := by
      simpa using hopen
    obtain ⟨flag, hrun⟩ := h.running
    have hcalm := calm_of_interruptible hrun hint hen
    refine ⟨?_, ⟨!masked, ?_⟩, ⟨⟨flag, fun s hs => ?_⟩, ?_⟩, fun k hk => ?_⟩
    · rw [h.memory]
      exact (view_of_memory (c.memory_putEnabled _ _)).symm
    · have hstage : y.stage (x.interrupted.length + 1) = none := h.above _ (Nat.lt_succ_self _)
      change World.Follows _ E n _ (y.stage (x.interrupted.length + 1)) _
      rw [hstage]
      exact .idle rfl (hcalm.put _)
    · exact (follows_of_calm hrun hint hen hs).le (Nat.le_succ n)
    · exact h.interrupted.mono (Nat.le_succ n) fun _ _ => rfl
    · exact h.above k (Nat.lt_of_succ_lt hk)
  · exact h.le (Nat.le_succ n)

/-- The running context goes on, or the one that it interrupted does. -/
theorem go (serves : ∀ flag r, (world c guarded flag).Indivisible (S.prog r) (E r))
    (h : Invariant c guarded E (n + 1) x y) (refused : Bool) :
    ∃ z, Reference.Extends E y z x.history (x.go c refused).history ∧
      Invariant c guarded E n (x.go c refused) z := by
  unfold OneCore.go
  split
  -- nothing is left to do
  · next hd hi => exact ⟨y, .refl y _, h.le (Nat.le_succ n)⟩
  -- a handler is over: the core is calm, and the context below has waited for that
  · next below rest hd hi =>
    obtain ⟨hstage, flag, hs⟩ := h.stands_of_done hd
    have hwait := h.interrupted
    rw [hi] at hwait
    obtain ⟨⟨flag', hbelow⟩, hrest⟩ := hwait
    refine ⟨y, .refl y _, ?_, ⟨flag', ?_⟩, ?_, fun k hk => ?_⟩
    · rw [h.memory]
      exact (view_of_memory (c.memory_putEnabled _ _)).symm
    · exact (hbelow _ hs.put).le (Nat.le_succ n)
    · exact hrest.mono (Nat.le_succ n) fun _ _ => rfl
    · rcases Nat.lt_or_ge x.depth k with hlt | hge
      · exact h.above k hlt
      · have hk' : rest.length < k := hk
        have hdepth : x.depth = rest.length + 1 := by simp [OneCore.depth, hi]
        obtain rfl : k = x.depth := by omega
        exact hstage
  -- a step of the running context, which concerns the stage of its own depth only
  · obtain ⟨flag, hrun⟩ := h.running
    obtain ⟨z, ⟨ms, hmoments, hseen⟩, hmem, hothers, hfollows⟩ :=
      hrun.step (serves flag) h.memory refused
    refine ⟨z, ⟨ms, hmoments, by rw [hseen]⟩, hmem, ⟨flag, hfollows⟩, ?_, fun k hk => ?_⟩
    · exact h.interrupted.mono (Nat.le_succ n) fun k hk => hothers k (Nat.ne_of_lt hk)
    · rw [hothers k (Nat.ne_of_gt hk)]
      exact h.above k hk

/-- **The reference goes along with a step of the core.** -/
theorem step (serves : ∀ flag r, (world c guarded flag).Indivisible (S.prog r) (E r))
    (h : Invariant c guarded E (n + 1) x y) (choice : Choice S) :
    ∃ z, Reference.Extends E y z x.history (x.step c choice).history ∧
      Invariant c guarded E n (x.step c choice) z := by
  cases choice with
  | go refused => exact h.go serves refused
  | interrupt masked todo =>
    have hhistory : (x.interrupt c masked todo).history = x.history := by
      unfold OneCore.interrupt
      split <;> rfl
    refine ⟨y, ?_, h.interrupt masked todo⟩
    rw [OneCore.step, hhistory]
    exact .refl y _

/-- **The reference goes along with a run on one core.** -/
theorem run (serves : ∀ flag r, (world c guarded flag).Indivisible (S.prog r) (E r))
    (choices : List (Choice S)) (h : Invariant c guarded E (choices.length + n) x y) :
    ∃ z, Reference.Extends E y z x.history (x.run c choices).history ∧
      Invariant c guarded E n (x.run c choices) z :=
  Reference.Extends.run (OneCore.step c) OneCore.history (Invariant c guarded E)
    (fun _ _ _ h => h.step serves) choices h

end Invariant

end Atomicity.OneCore
