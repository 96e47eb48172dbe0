import Atomicity.Proofs.ManyCores.Sections

/-!
# Mutual exclusion

What holds of every run of contexts that use one spin lock, or its raw lock, properly: each context
runs any programs, and they access the lock by its operations only, free it only while they hold it,
and access what it guards only while they hold it (`SpinLock.Uses`). They run on cores of their own,
interleaved in any way, or they share one core; on the backend that masks interrupts around the word
of the lock, they share one.

**The lock excludes** (`spin_lock_excludes`): its word is zero or one and tells whether a context
holds it, at most one does, to ask for the lock disturbs nobody, whether one holds it already or
not, and the data of a lock that nobody holds stays what the last section left. **So sections add
up**: sections that each add one add their number.
-/

namespace Atomicity

open Prog

namespace ManyCores

variable {S : Service} {n m : Nat} {t : Scalar} {l : SpinLock t} {x : ManyCores S n}
  {sharing : Option Controller} {choice : Fin n × Bool}

/-- The word of a lock is zero or one, and it is one exactly while one context holds the lock, and
that context is the only one that is ever about to access what the lock guards. -/
structure Excludes (l : SpinLock t) (x : ManyCores S n) : Prop where
  word : x.word .w64 l.lock.word = 0 ∨ x.word .w64 l.lock.word = 1
  held : x.word .w64 l.lock.word = 1 ↔ ∃ k, x.holds l.lock.word k = true
  unique : ∀ j k, x.holds l.lock.word j = true → x.holds l.lock.word k = true → j = k
  access : ∀ k i, (x.context k).next? = some i → i.target? = some l.data →
    x.holds l.lock.word k = true

/-- Nothing has happened to what the lock guards, and whoever held the lock holds it. Unless the
context itself has taken the lock or freed it, nothing has happened to its word. -/
structure Undisturbed (l : SpinLock t) (k : Fin n) (x y : ManyCores S n) : Prop where
  data : ∀ w, y.word w l.data = x.word w l.data
  others : ∀ j, j ≠ k → y.holds l.lock.word j = x.holds l.lock.word j
  own : x.holds l.lock.word k = true → y.holds l.lock.word k = true
  word : y.holds l.lock.word k = x.holds l.lock.word k →
    y.word .w64 l.lock.word = x.word .w64 l.lock.word

/-- Whatever the context is about to store is a one to the word of the lock. An attempt to take the
lock and every round of waiting for it consist of such instructions (`SpinLock.acquire_onWord`). -/
def Asks (l : SpinLock t) (x : ManyCores S n) (k : Fin n) : Prop :=
  ∀ i, (x.context k).next? = some i → i.OnWord l.lock.word 1

section

variable {law : S.Request → Bool → List Executed → Prop} {full : S.Request → List Executed → Prop}

theorem Turning.excludes (h : Turning sharing l.lock.word l.data law full (m + 1) x) :
    Excludes l x where
  word := h.consistent.zero_or_one
  held := h.consistent.one_iff
  unique := h.consistent.unique
  access k _ hi hd := (h.turns k).holds_of_target? (h.undeceived k) hi hd

/-- A step of a context leaves alone what the lock guards if the context does not hold the lock, or
asks for it again. -/
theorem Turning.data_step (hdata : l.data ≠ l.lock.word)
    (h : Turning sharing l.lock.word l.data law full (m + 1) x)
    (hasks : x.holds l.lock.word choice.1 = true → Asks l x choice.1) (w : Width) :
    (x.step choice).word w l.data = x.word w l.data := by
  cases hheld : x.holds l.lock.word choice.1 with
  | false =>
    exact (h.turns choice.1).read_step_of_free (h.undeceived choice.1) hheld choice.2 w
  | true =>
    exact (x.context choice.1).read_step fun i hi =>
      (hasks hheld i hi).read_of_ne hdata choice.2 _ w

/-- **A step of a context that does not hold the lock, or asks for it again, disturbs nobody.** -/
theorem Turning.undisturbed (hdata : l.data ≠ l.lock.word)
    (h : Turning sharing l.lock.word l.data law full (m + 1) x)
    (hasks : x.holds l.lock.word choice.1 = true → Asks l x choice.1) :
    Undisturbed l choice.1 x (x.stepOn sharing choice) := by
  unfold ManyCores.stepOn
  split
  · refine ⟨h.data_step hdata hasks, fun j hj => Turning.holds_step_of_ne hj, fun hheld => ?_,
      fun hsame => ?_⟩
    · unfold holds
      rw [context_step_self]
      exact (h.turns choice.1).holds_step (h.undeceived choice.1) hheld (hasks hheld) choice.2
    -- a turn by which nobody takes the lock or frees it leaves the word as it is
    · have hturn := h.turn choice
      rw [hsame] at hturn
      generalize x.holds l.lock.word choice.1 = held at hturn
      generalize x.word .w64 l.lock.word = before, (x.step choice).word .w64 l.lock.word = after
        at hturn ⊢
      cases hturn
      rfl
  · exact ⟨fun _ => rfl, fun _ _ => rfl, id, fun _ => rfl⟩

/-- What a lock guards does not change while nobody holds the lock. -/
theorem Turning.data_of_free (hdata : l.data ≠ l.lock.word)
    (serves : S.TakesTurns sharing l.lock.word l.data law full) (later : List (Fin n × Bool))
    (h : Turning sharing l.lock.word l.data law full (later.length + m) x)
    (hfree : ∀ earlier, earlier <+: later → earlier ≠ later →
      ∀ k, (x.runOn sharing earlier).holds l.lock.word k = false) (w : Width) :
    (x.runOn sharing later).word w l.data = x.word w l.data := by
  induction later generalizing x with
  | nil => rfl
  | cons choice later ih =>
    have h' : Turning sharing l.lock.word l.data law full (later.length + m + 1) x :=
      h.le (by rw [List.length_cons]; omega)
    have hnobody := hfree [] List.nil_prefix (List.cons_ne_nil _ _).symm choice.1
    have hasks : x.holds l.lock.word choice.1 = true → Asks l x choice.1 := fun hheld =>
      absurd (hnobody.symm.trans hheld) Bool.false_ne_true
    have hnow := (h'.undisturbed hdata hasks).data w
    refine (ih (Turning.stepOn serves h' choice) fun earlier hprefix hne => ?_).trans hnow
    exact hfree (choice :: earlier) (List.cons_prefix_cons.mpr ⟨rfl, hprefix⟩)
      fun heq => hne (List.cons.inj heq).2

end

/-- A program that uses the lock properly takes turns at it. -/
theorem takesTurns_of_uses (hdata : l.data ≠ l.lock.word)
    (hshare : ∀ c base, l.backend = .globalLock c base → sharing = some c)
    (uses : ∀ r, l.Uses false (S.prog r) fun _ now => now = false) :
    S.TakesTurns sharing l.lock.word l.data (fun _ _ _ => True) fun _ _ => True := by
  intro r log s hlog
  have hstart : Unbroken l.lock.word log → (tenure l.lock.word log).holds = false := by
    rw [hlog]
    exact fun _ => rfl
  exact (Turns.of_uses hdata hshare (uses r) log s hstart).mono fun _ _ _ h hlog =>
    ⟨h hlog, trivial⟩

/-- Critical sections take turns, each as its law says. -/
theorem takesTurns_of_sections {f : S.Request → Word t.width → Word t.width}
    (hdata : l.data ≠ l.lock.word)
    (hshare : ∀ c base, l.backend = .globalLock c base → sharing = some c)
    (hsections : ∀ r, ∃ y, S.prog r = (l.modify (f r)).bind fun _ => .ret y) :
    S.TakesTurns sharing l.lock.word l.data (fun r => l.SectionLaw (f r))
      fun r => l.SectionDone (f r) := by
  intro r log s hlog
  have hstart : Unbroken l.lock.word log → Holding l.lock.word l.data false [] True log s := by
    rw [hlog]
    exact fun _ => ⟨rfl, rfl, fun _ => trivial⟩
  obtain ⟨y, hy⟩ := hsections r
  rw [hy]
  have hmodify := Turns.leads_unbroken (Turns.modify hdata hshare (f r))
  exact .bind ((hmodify log s hstart).mono fun _ _ _ h => .ret h)

/-- When all critical sections are over, there is an order of all of them, in which each was given
what the one before left. -/
theorem sections_in_order {f : S.Request → Word t.width → Word t.width}
    (hdata : l.data ≠ l.lock.word)
    (hshare : ∀ c base, l.backend = .globalLock c base → sharing = some c)
    (hsections : ∀ r, ∃ y, S.prog r = (l.modify (f r)).bind fun _ => .ret y) {shared : Shared}
    (hfree : shared.memory.read .w64 l.lock.word = 0) (core : Fin n → Core)
    (todo : Fin n → List S.Request) (choices : List (Fin n × Bool))
    (hdone : ((ManyCores.start shared core todo).runOn sharing choices).isDone) :
    ∃ order : List (Fin n × S.Request), (∀ k, requestsOf k order = todo k) ∧
      ((ManyCores.start shared core todo).runOn sharing choices).word t.width l.data =
        order.foldl (fun v e => f e.2 v) (shared.memory.read t.width l.data) := by
  have serves := takesTurns_of_sections hdata hshare hsections
  obtain ⟨order, h⟩ := (Ledger.start (l := l) (f := f) shared core todo).run serves choices
    (Turning.start (m := choices.length + 0) hfree core todo)
  refine ⟨order, fun k => ?_, h.value⟩
  have hcontext := Context.isDone_iff.mp (hdone k)
  have hrequests : (((ManyCores.start shared core todo).runOn sharing choices).context k).requests =
      ((ManyCores.start shared core todo).context k).requests := requests_runOn choices k
  rw [Context.requests, hcontext.1, hcontext.2] at hrequests
  rw [h.recorded k, Context.written, hcontext.1, Option.map_none, Option.toList_none, ite_self,
    List.append_nil]
  simpa [ManyCores.start, Context.start, Context.requests] using hrequests

/-- **A spin lock excludes.** Contexts use it properly, one after another or all at once, and it is
free at first. Then at every instant of every run its word is zero or one, and it is one exactly
while one context holds the lock, that is, from its store of a test-and-set that read zero to its
store that frees the lock; at most one context holds it, and whoever is about to access the data
does. A step of a context that does not hold it disturbs nobody, and neither does a step of the
holder that asks for it again, which is what a failed attempt and every round of waiting consist of.
From where a context has freed the lock to where the next one has taken it, the data stays what it
is. And when critical sections are all that contexts do, and all are over, they have replaced the
data one after another, each what the one before had left; those that add one have added their
number. -/
theorem spin_lock_excludes (l : SpinLock t) (hdata : l.data ≠ l.lock.word)
    (sharing : Option Controller)
    (hshare : ∀ c base, l.backend = .globalLock c base → sharing = some c) (S : Service)
    (uses : ∀ r, l.Uses false (S.prog r) fun _ now => now = false) (shared : Shared)
    (hfree : shared.memory.read .w64 l.lock.word = 0) (core : Fin n → Core)
    (todo : Fin n → List S.Request) (choices : List (Fin n × Bool)) :
    let x := (ManyCores.start shared core todo).runOn sharing choices
    Excludes l x ∧
      (l.tryAcquire.All (Instr.OnWord l.lock.word 1) ∧ l.acquire.All (Instr.OnWord l.lock.word 1)) ∧
      (∀ choice, (x.holds l.lock.word choice.1 = true → Asks l x choice.1) →
        Undisturbed l choice.1 x (x.stepOn sharing choice)) ∧
      (∀ later, (∀ earlier, earlier <+: later → earlier ≠ later →
          ∀ k, (x.runOn sharing earlier).holds l.lock.word k = false) →
        ∀ w, (x.runOn sharing later).word w l.data = x.word w l.data) ∧
      ∀ f : S.Request → Word t.width → Word t.width,
        (∀ r, ∃ y, S.prog r = (l.modify (f r)).bind fun _ => .ret y) → x.isDone →
        (∃ order : List (Fin n × S.Request), (∀ k, requestsOf k order = todo k) ∧
          x.word t.width l.data =
            order.foldl (fun v e => f e.2 v) (shared.memory.read t.width l.data)) ∧
        ((∀ r, f r = (· + 1)) → x.word t.width l.data =
          shared.memory.read t.width l.data + BitVec.ofNat _ (∑ k, (todo k).length)) := by
  intro x
  have serves := takesTurns_of_uses hdata hshare uses
  have hturning : ∀ m,
      Turning sharing l.lock.word l.data (fun _ _ _ => True) (fun _ _ => True) m x :=
    fun m => .run serves choices (.start hfree core todo)
  refine ⟨(hturning 1).excludes, ⟨l.tryAcquire_onWord, l.acquire_onWord⟩,
    fun choice hasks => (hturning 1).undisturbed hdata hasks, fun later hlater w => ?_,
    fun f hsections hdone => ?_⟩
  · exact Turning.data_of_free hdata serves later (hturning (later.length + 0)) hlater w
  · obtain ⟨order, horder, hvalue⟩ :=
      sections_in_order hdata hshare hsections hfree core todo choices hdone
    refine ⟨⟨order, horder, hvalue⟩, fun hf => hvalue.trans ?_⟩
    have hlength : order.length = ∑ k, (todo k).length := by
      rw [← sum_length_requestsOf]
      exact Finset.sum_congr rfl fun k _ => congrArg List.length (horder k)
    simp only [hf]
    rw [foldl_add_one, hlength]

/-- A lock on a backend that masks interrupts around its word, and a byte that it guards. -/
def sharedLock : SpinLock (.int (.unsigned .w8)) :=
  ⟨.globalLock .line .native, ⟨.cell 0⟩, .guarded 0⟩

/-- Critical sections that add one to the byte. -/
def counting : Service := ⟨Unit, fun _ => Unit, fun _ => sharedLock.modify (· + 1)⟩

/-- Three contexts that share a core add one each, and wait for one another. -/
theorem three_sections_add_three :
    let x := (ManyCores.start (S := counting) Shared.start (fun _ => .start true true)
      fun _ : Fin 3 => [()]).runOn (some .line)
        (List.replicate 80 [((0 : Fin 3), false), (1, false), (2, false)]).flatten
    x.word .w8 (.guarded 0) = 3 := by
  have h := spin_lock_excludes sharedLock (by decide) (some .line) (fun c base h => by cases h; rfl)
    counting (fun _ => SpinLock.Uses.modify (by decide) (· + 1)) Shared.start rfl
    (fun _ : Fin 3 => .start true true) (fun _ => [()])
    (List.replicate 80 [((0 : Fin 3), false), (1, false), (2, false)]).flatten
  exact ((h.2.2.2.2 (fun _ => (· + 1)) (fun _ => ⟨(), (Prog.bind_ret _).symm⟩)
    (by decide +kernel)).2 fun _ => rfl).trans rfl

end ManyCores

end Atomicity
