import Atomicity.Proofs.Reference
import Atomicity.Proofs.World

/-!
# Contexts that follow the reference

A context **follows** a stage (`World.Follows`) if it is at rest where the stage has no request, and
otherwise goes on with the request of the stage in such a way that it takes effect once: it still
owes the effect if the stage has no answer, and it owes the return of that answer if it has one.
What it owes is said for so many steps, as all of a discipline is.

**A step of a context is some moments of the reference** (`Follows.step`), in every world in which
the programs of its service are indivisible: what can be seen of the step can be seen of those
moments, the view of memory goes with the memory of the reference, and the context follows its stage
again. This is all that a machine needs to know of the contexts in it.
-/

namespace Atomicity

/-- The ghost of a request that takes effect once: its answer, from that instant on. -/
def Protocol.once {α : Type} (E : Effect α) : Protocol (Option α) where
  move g m g' m' := (g' = g ∧ m' = m) ∨ (g = none ∧ g' = some (E m).1 ∧ m' = (E m).2)
  stay _ _ := .inl ⟨rfl, rfl⟩

namespace World

variable {Γ κ : Type} {S : Service}

/-- The track after what is on a log. -/
def track (W : World Γ) (log : List Executed) : Γ := log.foldr W.note W.start

/-- Where a request that takes effect once may answer. -/
def Returned (W : World Γ) {α : Type} (a : α) (g : Γ × Option α) (s : State) : Prop :=
  W.rest g.1 s ∧ g.2 = some a

/-- The context is where the stage says, and complies for so many steps. -/
def Follows (W : World Γ) (E : S.Effects) (n : Nat) (c : Context S) (stage : Stage S) (s : State) :
    Prop :=
  match c.current with
  | none => stage = none ∧ W.rest W.start s
  | some p => ∃ g, stage = some ⟨p.request, g⟩ ∧ W.lawful (W.track p.log) s ∧
      (W.discipline (.once (E p.request))).Keeps W.Returned n p.rest (W.track p.log, g) s

variable {W : World Γ} {E : S.Effects} {n : Nat} {c : Context S} {stage : Stage S} {s : State}

theorem Indivisible.once {α : Type} {p : Prog α} {E : Effect α} (h : W.Indivisible p E) {t : Γ}
    (hs : W.rest t s) : (W.discipline (.once E)).Always W.Returned p (t, none) s :=
  h _ (.once E) none (fun a g => g = some a)
    (fun m _ => ⟨some (E m).1, .inr ⟨rfl, rfl, rfl⟩, rfl⟩) t s hs

namespace Follows

theorem idle (hc : c.current = none) (hs : W.rest W.start s) : W.Follows E n c none s := by
  simp [Follows, hc, hs]

/-- A context follows elsewhere, or for fewer steps, if what holds of it still does there: between
two requests it is at rest, and in the middle of one nothing unlawful has happened and the program
complies. -/
theorem moved {m : Nat} {s' : State} (h : W.Follows E n c stage s)
    (hrest : c.current = none → W.rest W.start s → W.rest W.start s')
    (hlawful : W.lawful (W.track c.log) s → W.lawful (W.track c.log) s')
    (hkeeps : ∀ p ∈ c.current, ∀ g,
      (W.discipline (.once (E p.request))).Keeps W.Returned n p.rest (W.track c.log, g) s →
        (W.discipline (.once (E p.request))).Keeps W.Returned m p.rest (W.track c.log, g) s') :
    W.Follows E m c stage s' := by
  obtain ⟨current, todo, answered⟩ := c
  cases current with
  | none => exact ⟨h.1, hrest rfl h.2⟩
  | some p =>
    obtain ⟨g, hstage, hl, hk⟩ := h
    exact ⟨g, hstage, hlawful hl, hkeeps p rfl g hk⟩

theorem le {m : Nat} (hmn : m ≤ n) (h : W.Follows E n c stage s) : W.Follows E m c stage s :=
  h.moved (fun _ h => h) (fun h => h) fun _ _ _ hk => hk.le hmn

theorem rest_of_idle (h : W.Follows E n c stage s) (hc : c.current = none) :
    stage = none ∧ W.rest W.start s := by
  simpa [Follows, hc] using h

/-- Nothing unlawful has happened so far. -/
theorem lawful (h : W.Follows E n c stage s) : W.lawful (W.track c.log) s := by
  unfold Follows at h
  unfold Context.log
  cases hc : c.current with
  | none =>
    simp only [hc] at h
    exact W.rest_lawful h.2
  | some p =>
    simp only [hc] at h
    obtain ⟨g, hg, hl, -⟩ := h
    exact hl

/-- An instruction that is next is ready for what may happen before it. -/
theorem ready {i : Instr} (h : W.Follows E (n + 1) c stage s) (hi : c.next? = some i) :
    W.ready i s := by
  obtain ⟨p, hp, k, hk⟩ := Context.exists_of_next? hi
  simp only [Follows, hp] at h
  obtain ⟨g, -, -, hp⟩ := h
  rw [hk] at hp
  obtain ⟨g', ho, -⟩ := hp s (W.env_refl i s) false
  exact ho.1

/-- What others do before an instruction leaves its context following, if it is all that may have
been done before it. -/
theorem disturbed {i : Instr} {s' : State} (h : W.Follows E n c stage s) (hi : c.next? = some i)
    (hl : W.lawful (W.track c.log) s') (hs : ∀ s'', W.env i s' s'' → W.env i s s'') :
    W.Follows E n c stage s' := by
  obtain ⟨p, hp, k, hk⟩ := Context.exists_of_next? hi
  refine h.moved (fun hidle => ?_) (fun _ => hl) fun q hq g hkeeps => ?_
  · rw [hidle] at hp
    cases hp
  · obtain rfl : p = q := Option.some.inj (hp.symm.trans hq)
    cases n with
    | zero => trivial
    | succ n =>
      rw [hk] at hkeeps ⊢
      exact fun s'' he refused => hkeeps s'' (hs s'' he) refused

end Follows

/-! ## A step -/

variable [DecidableEq κ]

/-- What a step of the context that goes by `k` amounts to: some moments of the reference, after
which the context follows again. -/
structure Advances (W : World Γ) (E : S.Effects) (n : Nat) (k : κ) (visible : List (Moment S κ))
    (x : Reference S κ) (c : Context S) (s : State) (y : Reference S κ) : Prop where
  run : ∃ moments, Reference.Run E x moments y ∧ moments.filter Moment.visible = visible
  memory : y.memory = W.view s
  others : ∀ j, j ≠ k → y.stage j = x.stage j
  follows : W.Follows E n c (y.stage k) s

/-- A context that follows starts its next request, if it has one. -/
theorem Follows.step_idle (serves : ∀ r ∈ c.todo.head?, W.Indivisible (S.prog r) (E r)) {k : κ}
    {x : Reference S κ} (hm : x.memory = W.view s) (h : W.Follows E (n + 1) c (x.stage k) s)
    (hc : c.current = none) (refused : Bool) :
    ∃ y, W.Advances E n k (c.moment? k).toList x (c.step refused s).1 (c.step refused s).2 y := by
  obtain ⟨hstage, hs⟩ := h.rest_of_idle hc
  cases ht : c.todo with
  | nil =>
    have hstep : c.step refused s = (c, s) := by simp [Context.step, hc, ht]
    rw [hstep]
    refine ⟨x, ⟨[], .nil x, by simp [Context.moment?, hc, ht]⟩, hm, fun _ _ => rfl, ?_⟩
    exact h.le (Nat.le_succ n)
  | cons r rs =>
    refine ⟨_, ⟨[.start k r], .one (.start r hstage), ?_⟩, ?_, fun j hj => ?_, ?_⟩
    · simp [Context.moment?, hc, ht, Moment.visible]
    · simpa [Context.step, hc, ht] using hm
    · exact Function.update_of_ne hj _ _
    · simp only [Context.step, hc, ht, Function.update_self, Follows]
      have hr : W.Indivisible (S.prog r) (E r) := serves r (by rw [ht]; rfl)
      exact ⟨none, rfl, W.rest_lawful hs, hr.once hs n⟩

/-- A context that follows returns the answer that it owes. -/
theorem Follows.step_return {k : κ} {x : Reference S κ} (hm : x.memory = W.view s)
    (h : W.Follows E (n + 1) c (x.stage k) s) {p : Pending S} (hc : c.current = some p)
    {a : S.Answer p.request} (ha : p.rest = .ret a) (refused : Bool) :
    ∃ y, W.Advances E n k (c.moment? k).toList x (c.step refused s).1 (c.step refused s).2 y := by
  simp only [Follows, hc, ha] at h
  obtain ⟨g, hstage, -, hs, rfl⟩ := h
  refine ⟨_, ⟨[.finish k p.request a], .one (.finish hstage), ?_⟩, ?_, fun j hj => ?_, ?_⟩
  · simp [Context.moment?, hc, ha, Prog.result?, Moment.visible]
  · simpa [Context.step, hc, ha, Prog.result?] using hm
  · exact Function.update_of_ne hj _ _
  · simp only [Context.step, hc, ha, Prog.result?, Function.update_self]
    exact .idle rfl (W.rest_start hs)

/-- A context that follows opens a loop once more. -/
theorem Follows.step_loop {k : κ} {x : Reference S κ} (hm : x.memory = W.view s)
    (h : W.Follows E (n + 1) c (x.stage k) s) {p : Pending S} (hc : c.current = some p) {σ β : Type}
    {body : σ → Prog (σ ⊕ β)} {t : σ} {f : β → Prog (S.Answer p.request)}
    (hp : p.rest = .loop body t f) (refused : Bool) :
    ∃ y, W.Advances E n k (c.moment? k).toList x (c.step refused s).1 (c.step refused s).2 y := by
  have hstep : c.step refused s =
      ({ c with current := some { p with rest := Prog.unroll body t f } }, s) := by
    simp [Context.step, hc, hp, Prog.result?, Pending.step]
  rw [hstep]
  refine ⟨x, ⟨[], .nil x, ?_⟩, hm, fun _ _ => rfl, ?_⟩
  · simp [Context.moment?, hc, hp, Prog.result?]
  · simp only [Follows, hc, hp] at h ⊢
    obtain ⟨g, hg, hl, hk⟩ := h
    exact ⟨g, hg, hl, hk⟩

/-- A context that follows executes an instruction, and its request takes effect then or not. -/
theorem Follows.step_instr {k : κ} {x : Reference S κ} (hm : x.memory = W.view s)
    (h : W.Follows E (n + 1) c (x.stage k) s) {p : Pending S} (hc : c.current = some p) {i : Instr}
    {f : i.Reply → Prog (S.Answer p.request)} (hp : p.rest = .instr i f) (refused : Bool) :
    ∃ y, W.Advances E n k (c.moment? k).toList x (c.step refused s).1 (c.step refused s).2 y := by
  have hstep : c.step refused s = ({ c with current := some { p with
      rest := f (i.exec refused s).1, log := ⟨i, (i.exec refused s).1⟩ :: p.log } },
      (i.exec refused s).2) := by
    simp [Context.step, hc, hp, Prog.result?, Pending.step]
  have hseen : (c.moment? k).toList = [] := by simp [Context.moment?, hc, hp, Prog.result?]
  rw [hstep, hseen]
  simp only [Follows, hc, hp] at h
  obtain ⟨g, hg, -, hinstr⟩ := h
  obtain ⟨⟨t', g'⟩, ⟨-, ht, hl, hmove⟩, hk⟩ := hinstr s (W.env_refl i s) refused
  change t' = W.track (⟨i, (i.exec refused s).1⟩ :: p.log) at ht
  subst ht
  rcases hmove with ⟨hsame, hmem⟩ | ⟨hnone, hsome, hmem⟩
  -- not the instant: the reference stays where it is
  · change g' = g at hsame
    subst hsame
    refine ⟨x, ⟨[], .nil x, rfl⟩, hm.trans hmem.symm, fun _ _ => rfl, ?_⟩
    exact ⟨g', hg, hl, hk⟩
  -- the instant: the request takes effect in the reference
  · change g = none at hnone
    change g' = _ at hsome
    subst hnone hsome
    refine ⟨_, ⟨_, .one (.effect hg), rfl⟩, ?_, fun j hj => Function.update_of_ne hj _ _, ?_⟩
    · rw [hmem, ← hm]
    · simp only [Function.update_self, hm]
      exact ⟨_, rfl, hl, hk⟩

/-- A context that follows goes on with its request. -/
theorem Follows.step_busy {k : κ} {x : Reference S κ} (hm : x.memory = W.view s)
    (h : W.Follows E (n + 1) c (x.stage k) s) {p : Pending S} (hc : c.current = some p)
    (refused : Bool) :
    ∃ y, W.Advances E n k (c.moment? k).toList x (c.step refused s).1 (c.step refused s).2 y := by
  cases hp : p.rest with
  | ret a => exact h.step_return hm hc hp refused
  | loop body t f => exact h.step_loop hm hc hp refused
  | instr i f => exact h.step_instr hm hc hp refused

/-- **A step of a context is some moments of the reference.** -/
theorem Follows.step (serves : ∀ r, W.Indivisible (S.prog r) (E r)) {k : κ} {x : Reference S κ}
    (hm : x.memory = W.view s) (h : W.Follows E (n + 1) c (x.stage k) s) (refused : Bool) :
    ∃ y, W.Advances E n k (c.moment? k).toList x (c.step refused s).1 (c.step refused s).2 y := by
  cases hc : c.current with
  | none => exact h.step_idle (fun r _ => serves r) hm hc refused
  | some p => exact h.step_busy hm hc refused

end World

end Atomicity
