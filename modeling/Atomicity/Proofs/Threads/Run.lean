import Atomicity.Proofs.Attending
import Atomicity.Proofs.ManyCores.Machine
import Atomicity.Proofs.Threads.World

/-!
# Runs of threads

Threads that share a simulated core, each with a context of its own. Any of them can take the next
step, one instruction at a time, whoever owns the core: what the owner counts on is only that nobody
else does what is the owner's.

What every run preserves (`Invariant`), if every request is served: every thread attends, the memory
of the reference is what is asked about of memory, and the core is owned if and only if some thread
holds it, which no two do.

**What a step does to who owns the core** (`Turn`) is all that the other threads have to know of it.
A thread that does not hold the core and does not claim it leaves alone what is the owner's. One
that claims it has found it free, so nobody held it. One that gives it up leaves it free. So whoever
holds the core finds what is its own as it was (`Invariant.elsewhere`), and a thread that does not
hold it minds nothing.
-/

namespace Atomicity

/-- How far a context is in owning the core, going by what it has executed. -/
def Context.hold {S : Service} (c : Context S) : Hold := c.log.foldr Hold.note .without

namespace Threads

open ManyCores (context_step_self context_step_of_ne state_step_self masked_step_of_ne)

variable {g : Regime} {i : Instr} {hold hold' : Hold} {place : Section}
  {word : Word .w64} {t : Track}
  {s s' : State} {S : Service} {asked : S.Request → Bool} {E : S.Effects} {n m : Nat}
  {c : Context S} {stage stage' : Stage S}

/-! ## What others do -/

/-- A thread that does not own the core stands where it stood, whatever others have done. -/
theorem At.elsewhere (h : At g true place word t s) (he : Elsewhere g t s s') :
    At g true place word t s' :=
  ⟨⟨h.stands.track, h.lawful.disturbed he, fun hhold => absurd rfl hhold⟩, h.zero⟩

/-- What others have done adds nothing to what they may do before the next instruction: that one
hands the core over only if it is owned, and then they have left alone what is the owner's. -/
theorem Elsewhere.meanwhile {s'' s₁ : State} {r : i.Reply} (hl : Lawful g t s)
    (he : Elsewhere g t s s') (hnext : Lawful g ((world g).note ⟨i, r⟩ t) s₁)
    (h : Meanwhile g i s' s'') : Meanwhile g i s s'' where
  masked := h.masked.trans he.masked
  tidy _ := h.tidy he.tidy
  kept := by
    intro hi
    have hholds : t.hold ≠ .without := by
      intro hwithout
      rcases hi with hmasked | hhands
      · exact hl.agrees.holds hmasked hwithout
      · have hastray : t.hold.note ⟨i, r⟩ = .astray := by
          rw [hwithout]
          cases i with
          | setMasked b => cases b <;> rfl
          | disownCore => rfl
          | _ => cases hhands
        have hagrees : Agrees (t.hold.note ⟨i, r⟩) s₁ := hnext.agrees
        rw [hastray] at hagrees
        exact hagrees
    rw [← he.masked] at hi
    exact (he.kept hholds).trans (h.kept hi)

/-- What others have done leaves a program complying. -/
theorem keeps_elsewhere {γ α : Type} {T : Protocol γ} {u : γ}
    {Q : α → Track × γ → State → Prop} {p : Prog α}
    (hQ : ∀ a, Q a (t, u) s → Q a (t, u) s') (hl : Lawful g t s) (he : Elsewhere g t s s')
    (h : ((world g).discipline T).Keeps Q n p (t, u) s) :
    ((world g).discipline T).Keeps Q n p (t, u) s' := by
  refine h.moved (fun i s'' howns hmeanwhile => ?_) hQ
  obtain ⟨r, ⟨t', u'⟩, s₂, -, ht, hlawful, -⟩ := howns s ((world g).env_refl i s)
  change t' = (world g).note ⟨i, r⟩ t at ht
  subst ht
  exact he.meanwhile hl hlawful hmeanwhile

theorem attends_elsewhere (h : (world g).Attends asked E n c stage s)
    (he : Elsewhere g ((world g).track c.log) s s') : (world g).Attends asked E n c stage s' := by
  have hl : Lawful g ((world g).track c.log) s := h.lawful
  obtain ⟨htodo, ⟨hfollows, hasked⟩ | ⟨hstage, p, hp, hasked, -, hkeeps⟩⟩ := h
  · refine ⟨htodo,
      .inl ⟨hfollows.moved (fun hidle hrest => ?_) (fun _ => hl.disturbed he) ?_, hasked⟩⟩
    · have hlog : c.log = [] := by simp [Context.log, hidle]
      rw [hlog] at he
      exact hrest.elsewhere he
    · intro p _ u hkeeps
      exact keeps_elsewhere (fun a h => ⟨h.1.elsewhere he, h.2⟩) hl he hkeeps
  · have hlog : c.log = p.log := by simp [Context.log, hp]
    rw [hlog] at he hl
    exact ⟨htodo, .inr ⟨hstage, p, hp, hasked, hl.disturbed he,
      keeps_elsewhere (fun _ h => h.elsewhere he) hl he hkeeps⟩⟩

/-! ## Whose turn it is -/

theorem track_eq (log : List Executed) :
    (world g).track log = ⟨log.foldr Hold.note .without, log.foldr Section.note .outside⟩ := by
  induction log with
  | nil => rfl
  | cons e log ih =>
    show (world g).note e ((world g).track log) = _
    rw [ih]
    rfl

theorem hold_track (c : Context S) : ((world g).track c.log).hold = c.hold := by
  rw [track_eq]
  rfl

/-- What the step of a thread does to who owns the core, and to what is the owner's. -/
structure Turn (g : Regime) (hold hold' : Hold) (s s' : State) : Prop where
  away : hold = .without → hold' = .without → Kept g s s'
  /-- A core that is owned is not taken. -/
  untaken : s.shared.coreOwned = true → hold = .without → hold' = .without
  /-- A core that is given up is left free. -/
  held : s'.shared.coreOwned = true → hold' = .without → hold = .without

theorem Turn.still (s : State) : Turn g hold hold s s where
  away _ _ := ⟨rfl, rfl, fun _ _ _ => rfl⟩
  untaken _ h := h
  held _ h := h

/-- The turn of a thread that executes an instruction. -/
theorem Turn.exec (refused : Bool) (h : Agrees hold s) (hready : (world g).ready i s)
    (hnext : Agrees (hold.note ⟨i, (i.exec refused s).1⟩) (i.exec refused s).2) :
    Turn g hold (hold.note ⟨i, (i.exec refused s).1⟩) s (i.exec refused s).2 := by
  cases hi : i.concernsCore with
  | false =>
    rw [Instr.note_of_not_concernsCore hi]
    refine ⟨fun hwithout _ => ?_, fun _ h => h, fun _ h => h⟩
    subst hwithout
    obtain ⟨honce, hwords⟩ := hready h refused s
    exact ⟨(Instr.owner_of_not_concernsCore hi refused s).2, honce, hwords⟩
  | true =>
    cases i with
    | claimCore =>
      by_cases hclaim : s.shared.coreOwned = false ∧ refused = false
      · have hexec : Instr.claimCore.exec refused s =
            (true, { s with shared := { s.shared with coreOwned := true } }) := if_pos hclaim
        rw [hexec] at hnext ⊢
        cases hold with
        | without =>
          refine ⟨fun _ h => Hold.noConfusion h, fun howned _ => ?_, fun _ _ => rfl⟩
          rw [hclaim.1] at howned
          cases howned
        | _ => exact hnext.elim
      · have hexec : Instr.claimCore.exec refused s = (false, s) := if_neg hclaim
        rw [hexec]
        exact .still s
    | setMasked b =>
      cases b <;> cases hold <;> first
        | exact hnext.elim
        | exact ⟨fun h =>
          Hold.noConfusion h, fun _ h => Hold.noConfusion h, fun _ h => Hold.noConfusion h⟩
    | disownCore =>
      cases hold with
      | leaving =>
        exact ⟨fun h => Hold.noConfusion h, fun _ h => Hold.noConfusion h, fun h =>
          Bool.noConfusion h⟩
      | _ => exact hnext.elim
    | _ => cases hi

/-- The turn of a thread that attends. -/
theorem turn_of_attends {refused : Bool} (h : (world g).Attends asked E (n + 1) c stage s)
    (hnext : (world g).Attends asked E n (c.step refused s).1 stage' (c.step refused s).2) :
    Turn g c.hold (c.step refused s).1.hold s (c.step refused s).2 := by
  have hagrees : Agrees c.hold s := hold_track (g := g) c ▸ h.lawful.agrees
  have hagrees' : Agrees (c.step refused s).1.hold (c.step refused s).2 :=
    hold_track (g := g) (c.step refused s).1 ▸ hnext.lawful.agrees
  have hstep := c.stepped refused s
  generalize c.step refused s = out at hstep hagrees' ⊢
  obtain ⟨c', s'⟩ := out
  cases hstep with
  | idle answered => exact .still _
  | start r todo answered => exact .still _
  | finish r a log todo answered =>
    have hrest : (world g).rest ((world g).track log) _ := h.rest_of_result rfl rfl
    have hhold : log.foldr Hold.note .without = .without := by
      have htrack := hrest.stands.track
      rw [track_eq] at htrack
      exact congrArg Track.hold htrack
    show Turn g (log.foldr Hold.note .without) .without _ _
    rw [hhold]
    exact .still _
  | loop r body y k log todo answered => exact .still _
  | exec r i k log todo answered => exact .exec refused hagrees (h.ready rfl) hagrees'

/-! ## What a run preserves -/

structure Invariant (g : Regime) (asked : S.Request → Bool) (E : S.Effects) (m : Nat)
    (x : ManyCores S n) (y : Reference S (Fin n)) : Prop where
  memory : y.memory = x.shared.memory.restrict g.shown
  attends : ∀ k, (world g).Attends asked E m (x.context k) (y.stage k) (x.state k)
  tidy : Tidy g x.shared
  owned : x.shared.coreOwned = true → ∃ k, (x.context k).hold ≠ .without
  single : ∀ j k, (x.context j).hold ≠ .without → (x.context k).hold ≠ .without → j = k

namespace Invariant

variable {x : ManyCores S n} {y : Reference S (Fin n)}

theorem start {shared : Shared} {core : Fin n → Core} {todo : Fin n → List S.Request}
    (hserves : ∀ k, ∀ r ∈ todo k, (world g).Serves asked E r)
    (hmasked : ∀ k, (core k).masked = false)
    (howner : shared.coreOwned = false) (hfree : Free g shared) :
    Invariant g asked E m (.start shared core todo) (.start (shared.memory.restrict g.shown)) where
  memory := rfl
  attends k := by
    have hlawful : Lawful g ⟨.without, .outside⟩ ⟨core k, shared⟩ :=
      ⟨hmasked k, fun _ => hfree, fun _ _ hfound => nomatch hfound⟩
    exact .start (hserves k) ⟨⟨rfl, hlawful, fun hhold => absurd rfl hhold⟩, fun _ _ => rfl⟩
  tidy _ := hfree
  owned h := by
    rw [show shared.coreOwned = true from h] at howner
    cases howner
  single j k h _ := absurd rfl h

theorem agrees (h : Invariant g asked E m x y) (k : Fin n) :
    Agrees (x.context k).hold (x.state k) :=
  hold_track (g := g) (x.context k) ▸ (h.attends k).lawful.agrees

section

variable {choice : Fin n × Bool} (h : Invariant g asked E m x y)
  (hturn : Turn g (x.context choice.1).hold ((x.step choice).context choice.1).hold
    (x.state choice.1) ((x.step choice).state choice.1))

include h hturn

/-- While another thread holds the core, the one that has taken the step does not hold it. -/
theorem without_of_held {j : Fin n} (hj : j ≠ choice.1) (hheld : (x.context j).hold ≠ .without) :
    ((x.step choice).context choice.1).hold = .without := by
  apply hturn.untaken ((h.agrees j).owned hheld)
  exact Decidable.not_not.mp fun hk => hj (h.single j choice.1 hheld hk)

/-- What a step of one thread is to another. -/
theorem elsewhere (htidy : Tidy g (x.step choice).shared) {j : Fin n} (hj : j ≠ choice.1) :
    Elsewhere g ((world g).track (x.context j).log) (x.state j) ((x.step choice).state j) where
  masked := masked_step_of_ne hj
  tidy := htidy
  kept := by
    intro hheld
    rw [hold_track] at hheld
    have hwithout : (x.context choice.1).hold = .without :=
      Decidable.not_not.mp fun hk => hj (h.single j choice.1 hheld hk)
    have hkept := hturn.away hwithout (h.without_of_held hturn hj hheld)
    exact ⟨hkept.owner, hkept.once, hkept.words⟩

/-- No two threads hold the core after a step. -/
theorem single_step (j k : Fin n) (hj : ((x.step choice).context j).hold ≠ .without)
    (hk : ((x.step choice).context k).hold ≠ .without) : j = k := by
  by_cases hjc : j = choice.1
  · by_cases hkc : k = choice.1
    · rw [hjc, hkc]
    · rw [context_step_of_ne hkc] at hk
      subst hjc
      exact absurd (h.without_of_held hturn hkc hk) hj
  · rw [context_step_of_ne hjc] at hj
    by_cases hkc : k = choice.1
    · subst hkc
      exact absurd (h.without_of_held hturn hjc hj) hk
    · rw [context_step_of_ne hkc] at hk
      exact h.single j k hj hk

/-- If the core is owned after a step, some thread holds it. -/
theorem owned_step (howned : (x.step choice).shared.coreOwned = true) :
    ∃ k, ((x.step choice).context k).hold ≠ .without := by
  by_cases hwithout' : ((x.step choice).context choice.1).hold = .without
  · have hwithout := hturn.held howned hwithout'
    have hkept := hturn.away hwithout hwithout'
    obtain ⟨k, hk⟩ := h.owned (hkept.owner.symm.trans howned)
    have hkc : k ≠ choice.1 := by
      rintro rfl
      exact hk hwithout
    exact ⟨k, by rwa [context_step_of_ne hkc]⟩
  · exact ⟨choice.1, hwithout'⟩

end

/-- **The reference goes along with a step of one thread.** -/
theorem step (h : Invariant g asked E (m + 1) x y) (choice : Fin n × Bool) :
    ∃ z, Reference.Extends E y z (seenOf asked x.history) (seenOf asked (x.step choice).history) ∧
      Invariant g asked E m (x.step choice) z := by
  obtain ⟨z, ⟨moments, hrun, hseen⟩, hmem, hothers, hattends⟩ :=
    (h.attends choice.1).step h.memory choice.2
  have hturn := turn_of_attends (h.attends choice.1) hattends
  rw [← context_step_self, ← state_step_self] at hturn hattends
  have htidy : Tidy g (x.step choice).shared := hattends.lawful.tidy
  refine ⟨z, ⟨moments, hrun, ?_⟩, hmem, fun j => ?_, htidy, h.owned_step hturn, h.single_step hturn⟩
  · rw [hseen]
    exact List.filter_append _ _
  · by_cases hj : j = choice.1
    · subst hj
      exact hattends
    · rw [hothers j hj, context_step_of_ne hj]
      exact attends_elsewhere ((h.attends j).le (Nat.le_succ m)) (h.elsewhere hturn htidy hj)

/-- **The reference goes along with a run of threads.** -/
theorem run (choices : List (Fin n × Bool)) (h : Invariant g asked E (choices.length + m) x y) :
    ∃ z, Reference.Extends E y z (seenOf asked x.history) (seenOf asked (x.run choices).history) ∧
      Invariant g asked E m (x.run choices) z :=
  Reference.Extends.run ManyCores.step (fun x => seenOf asked x.history) (Invariant g asked E)
    (fun _ _ _ h => h.step) choices h

/-- A section has found the lock as it should. -/
theorem inside (h : Invariant g asked E m x y) (hg : g.guarded = true) {k : Fin n}
    {found : List (Word .w64)}
    (hfound : (x.context k).log.foldr Section.note .outside = .inside found) :
    found <+: [0, 1] := by
  apply (h.attends k).lawful.found hg
  rw [track_eq]
  exact hfound

/-- Where all threads are done, nobody owns the core, and the global lock is free. -/
theorem free_of_isDone (h : Invariant g asked E m x y) (hdone : x.isDone) : Free g x.shared := by
  apply h.tidy
  cases howned : x.shared.coreOwned with
  | false => rfl
  | true =>
    obtain ⟨k, hk⟩ := h.owned howned
    have hcurrent : (x.context k).current = none := (Context.isDone_iff.mp (hdone k)).1
    have hlog : (x.context k).log = [] := by simp [Context.log, hcurrent]
    exact absurd (by rw [Context.hold, hlog]; rfl) hk

end Invariant

/-- **Of a run of threads, what is asked about is linearizable**, if every request is served, nobody
owns the core at the start, and the global lock is free. -/
theorem linearizable_run {shared : Shared} {core : Fin n → Core} {todo : Fin n → List S.Request}
    (hserves : ∀ k, ∀ r ∈ todo k, (world g).Serves asked E r)
    (hmasked : ∀ k, (core k).masked = false)
    (howner : shared.coreOwned = false) (hfree : Free g shared)
    (choices : List (Fin n × Bool)) :
    let x := (ManyCores.start shared core todo).run choices
    Linearizable E (shared.memory.restrict g.shown) (seenOf asked x.history)
        (x.shared.memory.restrict g.shown) ∧
      ∃ y, Invariant g asked E 0 x y := by
  intro x
  obtain ⟨y, ⟨moments, hrun, hseen⟩, h⟩ :=
    Invariant.run choices (Invariant.start (m := choices.length + 0) hserves hmasked howner hfree)
  exact ⟨⟨moments, y, hrun, hseen.symm, h.memory⟩, y, h⟩

end Threads

end Atomicity
