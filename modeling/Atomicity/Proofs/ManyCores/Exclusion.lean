import Atomicity.Proofs.Complying
import Atomicity.Proofs.Consists
import Atomicity.Proofs.ManyCores.Run
import Atomicity.Proofs.ManyCores.Turns

/-!
# Exclusion by a lock

Any number of contexts that use one lock properly. They run as on many cores, or they share one
core: then no context takes a step while another one has its interrupts masked (`ManyCores.admits`),
and a choice that is not open is passed over.

**The word of the lock tells whether anybody holds it, and at most one context does**
(`Consistent`). A turn of one context preserves that (`Consistent.turn`), and so does every step of
contexts that take turns (`Turning.step`) and every run (`Turning.run`). So nobody finds the word
zero while holding the lock, which is the condition on which a program takes turns (`Unbroken`).
-/

namespace Atomicity

/-- The word of a lock is one while somebody holds it and zero while nobody does, and at most one
does. -/
structure Consistent {κ : Type} (holders : κ → Bool) (word : Word .w64) : Prop where
  held : ∀ k, holders k = true → word = 1
  free : (∀ k, holders k = false) → word = 0
  unique : ∀ j k, holders j = true → holders k = true → j = k

namespace Consistent

variable {κ : Type} {holders : κ → Bool} {word word' : Word .w64}

theorem zero_or_one (h : Consistent holders word) : word = 0 ∨ word = 1 := by
  by_cases hsome : ∃ k, holders k = true
  · obtain ⟨k, hk⟩ := hsome
    exact .inr (h.held k hk)
  · exact .inl (h.free fun k => Bool.eq_false_iff.mpr fun hk => hsome ⟨k, hk⟩)

theorem one_iff (h : Consistent holders word) : word = 1 ↔ ∃ k, holders k = true := by
  refine ⟨fun hw => ?_, fun ⟨k, hk⟩ => h.held k hk⟩
  by_contra hnone
  have hzero := h.free fun k => Bool.eq_false_iff.mpr fun hk => hnone ⟨k, hk⟩
  rw [hw] at hzero
  exact absurd hzero (by decide)

theorem legible (h : Consistent holders word) (k : κ) : Legible (holders k) word :=
  ⟨h.held k, h.zero_or_one⟩

theorem ne_zero (h : Consistent holders word) {k : κ} (hk : holders k = true) : word ≠ 0 := by
  rw [h.held k hk]
  decide

/-- **A turn of one context keeps the word telling who holds the lock.** -/
theorem turn [DecidableEq κ] (h : Consistent holders word) (k : κ) {held : Bool}
    (hturn : Turn (holders k) held word word') :
    Consistent (Function.update holders k held) word' := by
  have hothers : ∀ j, j ≠ k → Function.update holders k held j = holders j := fun j hj =>
    Function.update_of_ne hj _ _
  have hself : Function.update holders k held k = held := Function.update_self _ _ _
  generalize hk : holders k = before at hturn
  cases hturn with
  | stay _ _ =>
    rw [← hk, Function.update_eq_self]
    exact h
  | take =>
    -- with the word zero, nobody has held the lock before
    have hnone : ∀ j, holders j = false := fun j =>
      Bool.eq_false_iff.mpr fun hj => absurd (h.held j hj) (by decide)
    have honly : ∀ j, Function.update holders k true j = true → j = k := by
      intro j hj
      by_contra hne
      rw [hothers j hne, hnone j] at hj
      cases hj
    refine ⟨fun _ _ => rfl, fun hfree => ?_, fun i j hi hj => (honly i hi).trans (honly j hj).symm⟩
    have hheld := hfree k
    rw [hself] at hheld
    cases hheld
  | free _ =>
    have hnone : ∀ j, Function.update holders k false j = false := by
      intro j
      by_cases hj : j = k
      · subst hj
        exact hself
      · rw [hothers j hj]
        exact Bool.eq_false_iff.mpr fun hheld => hj (h.unique j k hheld hk)
    refine ⟨fun j hj => ?_, fun _ => rfl, fun i j hi _ => ?_⟩
    · rw [hnone j] at hj
      cases hj
    · rw [hnone i] at hi
      cases hi

end Consistent

namespace ManyCores

variable {S : Service} {n m : Nat}

/-! ## Runs of contexts that may share a core -/

/-- A context may take a step: if all share a core, no other one has its interrupts masked. -/
def admits (x : ManyCores S n) (sharing : Option Controller) (k : Fin n) : Bool :=
  sharing.all fun c => decide (∀ j, j ≠ k → c.enabled (x.core j) = true)

/-- A context takes a step, if it may. -/
def stepOn (sharing : Option Controller) (x : ManyCores S n) (choice : Fin n × Bool) :
    ManyCores S n :=
  if x.admits sharing choice.1 then x.step choice else x

def runOn (sharing : Option Controller) (x : ManyCores S n) (choices : List (Fin n × Bool)) :
    ManyCores S n :=
  choices.foldl (stepOn sharing) x

/-- The word at an address. -/
def word (x : ManyCores S n) (w : Width) (a : Addr) : Word w := x.shared.memory.read w a

/-- Whether a context holds the lock at `a`. -/
def holds (x : ManyCores S n) (a : Addr) (k : Fin n) : Bool := ((x.context k).tenure a).holds

variable {x : ManyCores S n} {sharing : Option Controller} {choice : Fin n × Bool} {a d : Addr}

/-- What a step of one context is for another one. -/
theorem rely_of_step (hk : x.admits sharing choice.1 = true) {j : Fin n} (hj : j ≠ choice.1) :
    Rely sharing (x.state j) ((x.step choice).state j) := by
  have hcore : (x.step choice).core j =
      disturbed ((x.context choice.1).stores choice.2 (x.state choice.1)) (x.core j) :=
    core_step_of_ne hj
  refine ⟨drift_of_step x hj, fun c _ => ?_, fun c hc hmasked => ?_⟩
  · change c.enabled ((x.step choice).core j) = c.enabled (x.core j)
    rw [hcore]
    cases (x.context choice.1).stores choice.2 (x.state choice.1) with
    | true => cases c <;> rfl
    | false => rfl
  · have henabled : c.enabled (x.core j) = true := by
      have hall : ∀ j, j ≠ choice.1 → c.enabled (x.core j) = true := by simpa [admits, hc] using hk
      exact hall j hj
    exact absurd (hmasked.symm.trans henabled) Bool.false_ne_true

theorem word_step (w : Width) (b : Addr) : (x.step choice).word w b =
    ((x.context choice.1).step choice.2 (x.state choice.1)).2.read w b := rfl

end ManyCores

/-! ## Contexts that take turns -/

open ManyCores

variable {S : Service} {n m : Nat} {sharing : Option Controller} {a d : Addr}
  {law : S.Request → Bool → List Executed → Prop} {full : S.Request → List Executed → Prop}

/-- The programs of a service take turns at the lock at `a`: what they do is as the law of their
request says, and in the end they do not hold the lock and have done all that they should. -/
def Service.TakesTurns (S : Service) (sharing : Option Controller) (a d : Addr)
    (law : S.Request → Bool → List Executed → Prop) (full : S.Request → List Executed → Prop) :
    Prop :=
  ∀ r, (unbrokenTurns sharing a d (law r)).Leads (fun log _ => log = []) (S.prog r)
    fun _ log _ => Unbroken a log → (tenure a log).holds = false ∧ full r (touched d log)

/-- A context takes turns at the lock at `a` for so many steps. -/
def Context.TakesTurns (sharing : Option Controller) (a d : Addr)
    (law : S.Request → Bool → List Executed → Prop)
    (full : S.Request → List Executed → Prop) (m : Nat) (c : Context S) (s : State) : Prop :=
  c.Complies (fun r => unbrokenTurns sharing a d (law r)) (fun _ => True)
    (fun r log _ => Unbroken a log → (Atomicity.tenure a log).holds = false ∧
      full r (touched d log)) m s

/-- A context finds the word of the lock as it left it while it holds the lock. -/
structure Context.Undeceived (a : Addr) (c : Context S) (s : State) : Prop where
  unbroken : Unbroken a c.log
  word : (c.tenure a).holds = true → s.read .w64 a ≠ 0

/-- A step leaves an address alone if the instruction does. -/
theorem Context.read_step {refused : Bool} {s : State} {w : Width} (c : Context S)
    (h : ∀ i, c.next? = some i → (i.exec refused s).2.read w d = s.read w d) :
    (c.step refused s).2.read w d = s.read w d := by
  have hstep := c.stepped refused s
  generalize c.step refused s = out at hstep ⊢
  obtain ⟨c', s'⟩ := out
  cases hstep with
  | exec r i k log todo answered => exact h i rfl
  | _ => rfl

namespace Context.Undeceived

variable {c : Context S} {s : State}

/-- What a context executes, it has not found the word zero while it held the lock. -/
theorem step (h : c.Undeceived a s) (refused : Bool) : Unbroken a (c.step refused s).1.log := by
  have hstep := c.stepped refused s
  generalize c.step refused s = out at hstep ⊢
  obtain ⟨c', s'⟩ := out
  cases hstep with
  | idle answered => exact trivial
  | start r todo answered => exact trivial
  | finish r x log todo answered => exact trivial
  | loop r body y k log todo answered => exact h.unbroken
  | exec r i k log todo answered => exact Unbroken.exec h.unbroken h.word i refused

end Context.Undeceived

namespace Context.TakesTurns

variable {c : Context S} {s : State}

theorem le {m' : Nat} (hm : m ≤ m') (h : c.TakesTurns sharing a d law full m' s) :
    c.TakesTurns sharing a d law full m s :=
  Complies.le hm h

/-- What an instruction of the context is. -/
theorem own {r : S.Request} {i : Instr} {k : i.Reply → Prog (S.Answer r)} {log : List Executed}
    {todo : List S.Request} {answered : List (Answered S)}
    (h : (⟨some ⟨r, .instr i k, log⟩, todo, answered⟩ : Context S).TakesTurns sharing a d law full
      (m + 1) s)
    (hu : (⟨some ⟨r, .instr i k, log⟩, todo, answered⟩ : Context S).Undeceived a s)
    (refused : Bool) :
    (turnTaking sharing a d (law r)).own i (i.exec refused s).1 log s
      (⟨i, (i.exec refused s).1⟩ :: log) (i.exec refused s).2 := by
  obtain ⟨g, ⟨rfl, hown⟩, -⟩ := Complies.own (Rely.refl sharing s) h refused
  exact hown (Unbroken.exec hu.unbroken hu.word i refused)

/-- A step of a context is a turn, if the word tells whether the lock is held. -/
theorem turn (h : c.TakesTurns sharing a d law full (m + 1) s) (hu : c.Undeceived a s)
    (hl : Legible (c.tenure a).holds (s.read .w64 a)) (refused : Bool) :
    Turn (c.tenure a).holds ((c.step refused s).1.tenure a).holds (s.read .w64 a)
      ((c.step refused s).2.read .w64 a) := by
  have hstep := c.stepped refused s
  generalize c.step refused s = out at hstep ⊢
  obtain ⟨c', s'⟩ := out
  cases hstep with
  | idle answered => exact .stay _ _
  | start r todo answered => exact .stay _ _
  | finish r x log todo answered =>
    have hheld : (Atomicity.tenure a log).holds = false := (h hu.unbroken).1
    change Turn (Atomicity.tenure a log).holds false _ _
    rw [hheld]
    exact .stay _ _
  | loop r body y k log todo answered => exact .stay _ _
  | exec r i k log todo answered =>
    obtain ⟨-, -, -, hturn⟩ := h.own hu refused
    exact hturn hl

/-- What the lock guards is accessed by whoever holds it. -/
theorem holds_of_target? (h : c.TakesTurns sharing a d law full (m + 1) s) (hu : c.Undeceived a s)
    {i : Instr} (hi : c.next? = some i) (hd : i.target? = some d) : (c.tenure a).holds = true := by
  obtain ⟨current, todo, answered⟩ := c
  cases current with
  | none => cases hi
  | some p =>
    obtain ⟨r, rest, log⟩ := p
    cases rest with
    | ret x => cases hi
    | loop body y k => cases hi
    | instr j k =>
      obtain rfl : j = i := Option.some.inj hi
      obtain ⟨-, hheld, -⟩ := h.own hu false
      exact hheld hd

/-- Whoever does not hold the lock leaves alone what it guards. -/
theorem read_step_of_free (h : c.TakesTurns sharing a d law full (m + 1) s) (hu : c.Undeceived a s)
    (hfree : (c.tenure a).holds = false) (refused : Bool) (w : Width) :
    (c.step refused s).2.read w d = s.read w d := by
  refine c.read_step fun i hi => Instr.read_of_target? (fun hd => ?_) refused s w
  have hheld := h.holds_of_target? hu hi hd
  rw [hfree] at hheld
  cases hheld

/-- **Whoever holds the lock and asks for it again goes on holding it.** -/
theorem holds_step (h : c.TakesTurns sharing a d law full (m + 1) s) (hu : c.Undeceived a s)
    (hheld : (c.tenure a).holds = true) (hi : ∀ i, c.next? = some i → i.OnWord a 1)
    (refused : Bool) :
    ((c.step refused s).1.tenure a).holds = true := by
  have hstep := c.stepped refused s
  generalize c.step refused s = out at hstep ⊢
  obtain ⟨c', s'⟩ := out
  cases hstep with
  | idle answered => exact hheld
  | start r todo answered => exact hheld
  | finish r x log todo answered =>
    -- a request does not return while the lock is held
    exact absurd ((h hu.unbroken).1.symm.trans hheld) Bool.false_ne_true
  | loop r body y k log todo answered => exact hheld
  | exec r i k log todo answered =>
    exact Tenure.holds_of_not_stored hheld ((hi i rfl).not_stored (by decide))

/-- What others do leaves a context taking turns. -/
theorem rely {s' : State} (h : c.TakesTurns sharing a d law full m s) (hs : Rely sharing s s') :
    c.TakesTurns sharing a d law full m s' := by
  obtain ⟨current, todo, answered⟩ := c
  cases current with
  | none => trivial
  | some p =>
    exact Discipline.Keeps.drift (fun _ _ _ _ h h' => h.trans h') (fun _ _ _ _ _ h => h) hs h

theorem step (serves : S.TakesTurns sharing a d law full)
    (h : c.TakesTurns sharing a d law full (m + 1) s) (refused : Bool) :
    (c.step refused s).1.TakesTurns sharing a d law full m (c.step refused s).2 :=
  Complies.step (fun _ _ => Rely.refl sharing) (fun _ _ _ _ _ _ _ hown => And.left hown)
    (fun r s _ => serves r [] s rfl) (fun _ _ _ _ => trivial) h refused

end Context.TakesTurns

namespace ManyCores

/-- All contexts take turns, and the word of the lock tells who holds it. -/
structure Turning (sharing : Option Controller) (a d : Addr)
    (law : S.Request → Bool → List Executed → Prop)
    (full : S.Request → List Executed → Prop) (m : Nat) (x : ManyCores S n) : Prop where
  turns : ∀ k, (x.context k).TakesTurns sharing a d law full m (x.state k)
  consistent : Consistent (x.holds a) (x.word .w64 a)
  unbroken : ∀ k, Unbroken a (x.context k).log

namespace Turning

variable {x : ManyCores S n} {choice : Fin n × Bool}

theorem start {shared : Shared} (hfree : shared.memory.read .w64 a = 0) (core : Fin n → Core)
    (todo : Fin n → List S.Request) : Turning sharing a d law full m (.start shared core todo) where
  turns _ := trivial
  consistent :=
    ⟨fun _ h => absurd h Bool.false_ne_true, fun _ => hfree, fun _ _ h =>
      absurd h Bool.false_ne_true⟩
  unbroken _ := trivial

theorem le {m' : Nat} (hm : m ≤ m') (h : Turning sharing a d law full m' x) :
    Turning sharing a d law full m x :=
  ⟨fun k => (h.turns k).le hm, h.consistent, h.unbroken⟩

theorem undeceived (h : Turning sharing a d law full m x) (k : Fin n) :
    (x.context k).Undeceived a (x.state k) :=
  ⟨h.unbroken k, h.consistent.ne_zero⟩

theorem turn (h : Turning sharing a d law full (m + 1) x) (choice : Fin n × Bool) :
    Turn (x.holds a choice.1) ((x.step choice).holds a choice.1) (x.word .w64 a)
      ((x.step choice).word .w64 a) := by
  have hturn :=
    (h.turns choice.1).turn (h.undeceived choice.1) (h.consistent.legible choice.1) choice.2
  unfold holds
  rw [context_step_self]
  exact hturn

theorem holds_step_of_ne {j : Fin n} (hj : j ≠ choice.1) :
    (x.step choice).holds a j = x.holds a j := by
  unfold holds
  rw [context_step_of_ne hj]

theorem step (serves : S.TakesTurns sharing a d law full)
    (h : Turning sharing a d law full (m + 1) x) (hk : x.admits sharing choice.1 = true) :
    Turning sharing a d law full m (x.step choice) := by
  refine ⟨fun j => ?_, ?_, fun j => ?_⟩
  · by_cases hj : j = choice.1
    · subst hj
      rw [context_step_self, state_step_self]
      exact (h.turns choice.1).step serves choice.2
    · rw [context_step_of_ne hj]
      exact ((h.turns j).le (Nat.le_succ m)).rely (rely_of_step hk hj)
  · have hholds : (x.step choice).holds a =
        Function.update (x.holds a) choice.1 ((x.step choice).holds a choice.1) := by
      funext j
      by_cases hj : j = choice.1
      · subst hj
        rw [Function.update_self]
      · rw [Function.update_of_ne hj, holds_step_of_ne hj]
    rw [hholds]
    exact h.consistent.turn choice.1 (h.turn choice)
  · by_cases hj : j = choice.1
    · subst hj
      rw [context_step_self]
      exact (h.undeceived choice.1).step choice.2
    · rw [context_step_of_ne hj]
      exact h.unbroken j

theorem stepOn (serves : S.TakesTurns sharing a d law full)
    (h : Turning sharing a d law full (m + 1) x) (choice : Fin n × Bool) :
    Turning sharing a d law full m (x.stepOn sharing choice) := by
  unfold ManyCores.stepOn
  split
  · next hk => exact h.step serves hk
  · exact h.le (Nat.le_succ m)

/-- **Contexts that take turns keep the word telling who holds the lock**, in every run. -/
theorem run (serves : S.TakesTurns sharing a d law full)
    (choices : List (Fin n × Bool)) (h : Turning sharing a d law full (choices.length + m) x) :
    Turning sharing a d law full m (x.runOn sharing choices) := by
  induction choices generalizing x with
  | nil => exact h.le (Nat.le_of_eq (Nat.zero_add m).symm)
  | cons choice choices ih =>
    refine ih (stepOn serves (h.le ?_) choice)
    simp only [List.length_cons]
    omega

end Turning

end ManyCores

end Atomicity
