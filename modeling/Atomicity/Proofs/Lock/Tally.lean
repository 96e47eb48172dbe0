import Atomicity.Proofs.Interrupts.Guards
import Mathlib.Data.List.Count

/-!
# Guards dropped in any order

A guard of a lock taken with interrupts masked remembers whether they were enabled, and whoever
drops it gives them back. Guards are values: they can be dropped in any order, or forgotten, so what
they remember is no stack. A `Tally` is a session together with the guards of this kind that it
owes: those taken and not dropped, last one first. One that has been forgotten is owed for ever.

`Tally.run` follows any list of steps, each under an interference of its own, as long as each is
performed and answers. Interrupt controllers are left alone but for the locks taken with interrupts
masked, which share one controller, and a name is given to one live guard of a lock at a time
(`Tally.permits`).

**The invariant** (`Accounted`) is an equation: the guards owed that remember enabled interrupts,
and one more if interrupts are enabled, are as many as at the start, which is one or none. So at
most one guard may unmask, and exactly while it is owed are interrupts masked that were enabled at
the start.

`Moved` has the three ways in which a step can move a tally, and each keeps the equation.
**`guards_account_for_masking`** draws the conclusions for every run. If guards are dropped in the
reverse order of taking, they are a stack after all (`Stacked`), and the one that may unmask is at
its bottom.
-/

namespace Atomicity

open Prog Discipline

/-- A session, and the guards taken with interrupts masked that have not been dropped, last one
first. -/
structure Tally where
  session : Session
  owed : LiveGuards

namespace Tally

def start (s : State) : Tally := ⟨.start s, []⟩

abbrev core (t : Tally) : Core := t.session.state.core

/-- The state at an instant of a step under interference. -/
def during (t : Tally) (st : Step) (x : Interference) (n : Nat) : State :=
  ((Solo.start (st.prog t.session.guards) t.session.state).run x n).state

/-- The guard that a step drops, if it drops one. -/
def drops? (t : Tally) : Step → Option LiveGuard
  | .spin l (.unlock name) => (t.session.guards.find? l.lock name).map (⟨l.lock, name, ·⟩)
  | _ => none

/-- The guard that a step takes with interrupts masked, if it leaves these guards live. -/
def takes? (after : LiveGuards) : Step → Option LiveGuard
  | .spin l (.acquireMasked name) => (after.find? l.lock name).map (⟨l.lock, name, ·⟩)
  | _ => none

/-- What is owed after a step that leaves these guards live. -/
def owedAfter (t : Tally) (after : LiveGuards) (st : Step) : LiveGuards :=
  (takes? after st).toList ++ (t.drops? st).elim t.owed t.owed.erase

/-- The step leaves interrupt controllers alone, but for guards that belong to `c`, and gives no
guard the name of a live one. -/
def permits (c : Controller) (t : Tally) : Step → Bool
  | .disable _ | .enableIf .. => false
  | .spin l (.acquireMasked name) =>
    l.backend.controller = c && (t.session.guards.find? l.lock name).isNone
  | .spin l (.acquire name) | .spin l (.tryAcquire name) =>
    (t.session.guards.find? l.lock name).isNone
  | .spin l (.unlock name) =>
    l.backend.controller = c || t.session.guards.find? l.lock name = some ⟨none⟩
  | _ => true

/-- One step, if it is permitted, performed and answered. -/
def step (c : Controller) (t : Tally) (st : Step) (x : Interference) : Option Tally :=
  match t.permits c st, t.session.perform x st with
  | true, .ok o =>
    if o.answer.isSome then some ⟨o.session, t.owedAfter o.session.guards st⟩ else none
  | _, _ => none

def run (c : Controller) (t : Tally) : List (Step × Interference) → Option Tally
  | [] => some t
  | (st, x) :: rest => (t.step c st x).bind fun t => t.run c rest

/-- If the step drops a guard that is owed, it is the last one taken. -/
def lastFirst (t : Tally) (st : Step) : Bool :=
  (t.drops? st).all fun e => e.guard.restore.isNone || t.owed.head? = some e

/-- Guards are dropped in the reverse order of taking. -/
def nests (c : Controller) (t : Tally) : List (Step × Interference) → Bool
  | [] => true
  | (st, x) :: rest => t.lastFirst st && (t.step c st x).all (·.nests c rest)

end Tally

/-! ## What a step does -/

theorem Session.perform_of_answer {σ : Session} {x : Interference} {st : Step} {o : Outcome}
    (h : σ.perform x st = .ok o) (ha : o.answer.isSome = true) :
    st.refusal? σ.guards = none ∧
      ∃ r, ((Solo.start (st.prog σ.guards) σ.state).run x x.fuel).result? = some r ∧
        o.answer = r.1 ∧
        o.session = ⟨((Solo.start (st.prog σ.guards) σ.state).run x x.fuel).state, r.2⟩ := by
  unfold perform at h
  split at h
  · cases h
  · next hrefusal =>
    refine ⟨hrefusal, ?_⟩
    split at h
    · obtain rfl := Except.ok.inj h
      cases ha
    · simp only [Prog.solo] at h
      split at h
      · obtain rfl := Except.ok.inj h
        cases ha
      · next answer guards hr =>
        obtain rfl := Except.ok.inj h
        exact ⟨(answer, guards), hr, rfl, rfl⟩

namespace LiveGuards

variable {gs : LiveGuards} {l : RawLock} {name : String} {g : Guard}

theorem find?_insert : (gs.insert l name g).find? l name = some g := by
  simp [find?, insert]

theorem mem_of_find? (h : gs.find? l name = some g) : ⟨l, name, g⟩ ∈ gs := by
  obtain ⟨e, he, rfl⟩ := Option.map_eq_some_iff.mp h
  have hkey : e.lock = l ∧ e.name = name := by simpa using List.find?_some he
  obtain ⟨rfl, rfl⟩ := hkey
  exact List.mem_of_find?_eq_some he

end LiveGuards

namespace Step

variable {gs : LiveGuards} {k : Scalar} {l : SpinLock k} {name : String}

theorem prog_unlock {g : Guard} (hg : gs.find? l.lock name = some g) :
    (spin l (.unlock name)).prog gs =
      (l.unlock g).bind fun _ => .ret (some Answer.done, gs.remove l.lock name) := by
  simp [prog, SpinOp.prog, hg]

theorem prog_unlock_of_none (hg : gs.find? l.lock name = none) :
    (spin l (.unlock name)).prog gs = .ret (none, gs) := by
  simp [prog, SpinOp.prog, hg]

end Step

namespace Tally

variable {c : Controller} {t t' : Tally} {st : Step} {x : Interference}

theorem drops?_unlock {k : Scalar} {l : SpinLock k} {name : String} {g : Guard}
    (hg : t.session.guards.find? l.lock name = some g) :
    t.drops? (.spin l (.unlock name)) = some ⟨l.lock, name, g⟩ := by
  simp [drops?, hg]

theorem mem_of_drops? {e : LiveGuard} (h : t.drops? st = some e) : e ∈ t.session.guards := by
  unfold drops? at h
  split at h
  · obtain ⟨g, hg, rfl⟩ := Option.map_eq_some_iff.mp h
    exact LiveGuards.mem_of_find? hg
  · cases h

theorem step_eq_some (h : t.step c st x = some t') : t.permits c st = true ∧
    st.refusal? t.session.guards = none ∧
    ∃ r, ((Solo.start (st.prog t.session.guards) t.session.state).run x x.fuel).result? = some r ∧
      t'.session = ⟨t.during st x x.fuel, r.2⟩ ∧ t'.owed = t.owedAfter r.2 st := by
  unfold step at h
  split at h
  · next o hpermits hperform =>
    split at h
    · next hanswer =>
      obtain rfl := Option.some.inj h
      obtain ⟨hrefusal, r, hr, -, hsession⟩ := Session.perform_of_answer hperform hanswer
      refine ⟨hpermits, hrefusal, r, hr, hsession, ?_⟩
      rw [hsession]
    · cases h
  · cases h

/-- The ways in which a step can move a tally. -/
inductive Moved (c : Controller) (t : Tally) (st : Step) (t' : Tally) : Prop where
  /-- A lock has been taken with interrupts masked, and the guard remembers what they were. -/
  | took (e : LiveGuard) (remembers : e.guard.restore = some (c.enabled t.core))
      (owed : t'.owed = e :: t.owed) (masked : c.enabled t'.core = false)
      (live : ∀ k ∈ t'.session.guards, k.guard.restore.isSome = true →
        k = e ∨ k ∈ t.session.guards)
  /-- A guard has been dropped, and interrupts are given back if it remembers them. -/
  | dropped (e : LiveGuard) (drops : t.drops? st = some e) (mem : e ∈ t.session.guards)
      (owed : t'.owed = t.owed.erase e)
      (given : e.guard.restore = some true → c.enabled t'.core = true)
      (kept : e.guard.restore ≠ some true → c.enabled t'.core = c.enabled t.core)
      (live : ∀ k ∈ t'.session.guards, k ∈ t.session.guards ∧ k ≠ e)
  /-- Nothing that matters has changed. -/
  | kept (owed : t'.owed = t.owed) (flag : c.enabled t'.core = c.enabled t.core)
      (live : t.session.guards.AddsNone t'.session.guards)

/-- To end a guard enables interrupts if it remembers that they were, and otherwise leaves them as
they are, also in the sense of another controller. -/
theorem unlocked {s : State} {t : Scalar} (l : SpinLock t) {g : Guard} {α : Type} {k : α}
    (n : Nat) {r : α}
    (hr : ((Solo.start ((l.unlock g).bind fun _ => .ret k) s).run x n).result? = some r) :
    r = k ∧
      (g.restore = some true → l.backend.controller.enabled
        ((Solo.start ((l.unlock g).bind fun _ => .ret k) s).run x n).state.core = true) ∧
      (g.restore ≠ some true →
        ((Solo.start ((l.unlock g).bind fun _ => .ret k) s).run x n).state.core.unreserved =
          s.core.unreserved) := by
  by_cases hg : g = ⟨some true⟩
  · subst hg
    have hcore := l.backend.controller.enabled_put true s.core
    have hstart : InterruptState.Flag l.backend.controller (l.backend.controller.put true s.core)
        (l.backend.controller.enabled s.core) () s := by
      unfold InterruptState.Flag
      rw [Controller.put_put, Controller.put_self]
    obtain ⟨rfl, hflag⟩ := InterruptState.result
      ((InterruptState.unlock_enabling l hcore).bind fun _ => .ret (a := k)
        (M := fun a u s' => a = k ∧ InterruptState.Flag l.backend.controller _ true u s')
        fun _ _ hs => ⟨rfl, hs⟩) hstart x n hr
    exact ⟨rfl, fun _ => hflag.enabled, fun h => absurd rfl h⟩
  · have hrestore : g.restore ≠ some true := fun h => hg (congrArg Guard.mk h)
    obtain ⟨rfl, hflag⟩ := InterruptState.result
      ((InterruptState.unlock l hrestore id).bind fun _ => .ret (a := k)
        (M := fun a u s' => a = k ∧ InterruptState.Flag l.backend.controller _ _ u s')
        fun _ _ hs => ⟨rfl, hs⟩) (.start _ s) x n hr
    exact ⟨rfl, fun h => absurd h hrestore, fun _ => hflag.unreserved⟩

section

variable {r : Option Answer × LiveGuards} {k : Scalar} {name : String}
  (hr : ((Solo.start (st.prog t.session.guards) t.session.state).run x x.fuel).result? = some r)
  (hsession : t'.session = ⟨t.during st x x.fuel, r.2⟩)
  (howed : t'.owed = t.owedAfter r.2 st)

include hr hsession howed

theorem moved_of_indifferent (hst : st.indifferent = true) (hnone : t.owedAfter r.2 st = t.owed) :
    Moved c t st t' := by
  obtain ⟨hadds, hcore⟩ := (Step.keeps_core hst t.session.guards).result t.session.state x x.fuel hr
  refine .kept (howed.trans hnone) ?_ ?_
  · simp only [core, hsession]
    exact c.enabled_of_unreserved_eq hcore
  · rw [hsession]
    exact hadds

theorem moved_of_acquireMasked {l : SpinLock k} (hst : st = .spin l (.acquireMasked name))
    (hc : l.backend.controller = c) : Moved c t st t' := by
  subst hst hc
  have htaken := InterruptState.result
    ((InterruptState.acquireMasked l id).bind fun g => .given fun hg =>
      .ret (a := (some Answer.done, t.session.guards.insert l.lock name g))
        (M := fun r u s => r.2 = t.session.guards.insert l.lock name
            ⟨some (l.backend.controller.enabled t.core)⟩ ∧
          InterruptState.Flag l.backend.controller t.core false u s)
        fun _ _ hs => ⟨by rw [hg], hs⟩)
    (.start _ t.session.state) x x.fuel hr
  refine .took ⟨l.lock, name, ⟨some (l.backend.controller.enabled t.core)⟩⟩ rfl ?_ ?_ ?_
  · rw [howed, htaken.1]
    simp [owedAfter, takes?, drops?, LiveGuards.find?_insert]
  · simp only [core, hsession]
    exact htaken.2.enabled
  · rw [hsession]
    simp only
    rw [htaken.1]
    intro e he _
    obtain rfl | he := LiveGuards.mem_insert.mp he
    · exact .inl rfl
    · exact .inr (LiveGuards.mem_remove.mp he).1

theorem moved_of_unlock {l : SpinLock k} {g : Guard} (hst : st = .spin l (.unlock name))
    (hg : t.session.guards.find? l.lock name = some g)
    (hc : g.restore = some true → l.backend.controller = c) : Moved c t st t' := by
  subst hst
  have hdrops := drops?_unlock hg
  rw [during] at hsession
  rw [Step.prog_unlock hg] at hr hsession
  obtain ⟨hremoved, hgiven, hleft⟩ := unlocked l x.fuel hr
  refine .dropped _ hdrops (LiveGuards.mem_of_find? hg) ?_ ?_ ?_ ?_
  · rw [howed, owedAfter, hdrops]
    rfl
  · intro hrestore
    simp only [core, hsession]
    rw [← hc hrestore]
    exact hgiven hrestore
  · intro hrestore
    simp only [core, hsession]
    exact c.enabled_of_unreserved_eq (hleft hrestore)
  · rw [hsession, hremoved]
    intro e he
    obtain ⟨he, hne⟩ := LiveGuards.mem_remove.mp he
    refine ⟨he, ?_⟩
    rintro rfl
    exact hne ⟨rfl, rfl⟩

end

theorem step_moves (h : t.step c st x = some t') : Moved c t st t' := by
  obtain ⟨hpermits, hrefusal, r, hr, hsession, howed⟩ := step_eq_some h
  cases st with
  | disable c' => cases hpermits
  | enableIf c' b => cases hpermits
  | cell _ _ | fetch _ _ _ | fetchNew _ _ _ | testSetLock _ _ | word _ _ _ | swapLockWord _ _ _
  | storeLockWord _ _ _ | flag _ _ | raw _ _ _ | fence _ =>
    exact moved_of_indifferent hr hsession howed rfl rfl
  | spin l op =>
    cases op with
    | acquire _ | tryAcquire _ | forget _ | value _ | setValue _ _ | isLocked | replace _ | renew
    | brief _ _ => exact moved_of_indifferent hr hsession howed rfl rfl
    | acquireMasked name =>
      exact moved_of_acquireMasked hr hsession howed rfl
        (of_decide_eq_true ((Bool.and_eq_true _ _).mp hpermits).1)
    | unlock name =>
      cases hg : t.session.guards.find? l.lock name with
      | none => simp [Step.refusal?, SpinOp.refusal?, hg] at hrefusal
      | some g =>
        refine moved_of_unlock hr hsession howed rfl hg fun hrestore => ?_
        obtain hc | hnone := (Bool.or_eq_true _ _).mp hpermits
        · exact of_decide_eq_true hc
        · rw [hg] at hnone
          cases of_decide_eq_true hnone
          cases hrestore

end Tally

/-! ## The account -/

/-- Whoever ends the guard enables interrupts. -/
def LiveGuard.unmasks (e : LiveGuard) : Bool := e.guard.restore = some true

theorem LiveGuard.unmasks_eq_true {e : LiveGuard} :
    e.unmasks = true ↔ e.guard.restore = some true :=
  decide_eq_true_iff

namespace Tally

variable {c : Controller} {s : State} {t t' : Tally} {st : Step} {x : Interference}

/-- What holds of a tally in a run from `s`. -/
structure Accounted (c : Controller) (s : State) (t : Tally) : Prop where
  balance : t.owed.countP LiveGuard.unmasks + (c.enabled t.core).toNat = (c.enabled s.core).toNat
  live : ∀ e ∈ t.session.guards, e.guard.restore.isSome = true → e ∈ t.owed

namespace Accounted

theorem start (c : Controller) (s : State) : Accounted c s (start s) :=
  ⟨Nat.zero_add _, fun _ he => absurd he List.not_mem_nil⟩

theorem step (ht : Accounted c s t) (h : t.step c st x = some t') : Accounted c s t' := by
  obtain ⟨e, hremembers, howed, hmasked, hlive⟩ | ⟨e, -, he, howed, hgiven, hkept, hlive⟩ |
    ⟨howed, hflag, hadds⟩ := step_moves h
  · constructor
    · have hunmasks : e.unmasks = c.enabled t.core := by
        simp [LiveGuard.unmasks, hremembers]
      rw [howed, List.countP_cons, hunmasks, hmasked, ← ht.balance]
      cases c.enabled t.core <;> rfl
    · intro k hk hsome
      rw [howed]
      obtain rfl | hk := hlive k hk hsome
      · exact List.mem_cons_self
      · exact List.mem_cons_of_mem _ (ht.live k hk hsome)
  · constructor
    · rw [howed, List.countP_erase, ← ht.balance]
      by_cases hrestore : e.guard.restore = some true
      · have hunmasks := LiveGuard.unmasks_eq_true.mpr hrestore
        have howes := ht.live e he (by rw [hrestore]; rfl)
        have hpos := List.countP_pos_iff.mpr ⟨e, howes, hunmasks⟩
        have hone : _ ≤ 1 := ht.balance ▸ Bool.toNat_le _
        rw [if_pos ⟨howes, hunmasks⟩, hgiven hrestore, Bool.toNat_true]
        omega
      · rw [hkept hrestore, if_neg fun h =>
          hrestore (LiveGuard.unmasks_eq_true.mp h.2), Nat.sub_zero]
    · intro k hk hsome
      rw [howed]
      obtain ⟨hk, hne⟩ := hlive k hk
      exact (List.mem_erase_of_ne hne).mpr (ht.live k hk hsome)
  · constructor
    · rw [howed, hflag, ht.balance]
    · intro k hk hsome
      rw [howed]
      exact ht.live k (hadds k hk hsome) hsome

/-- Every run keeps the account. -/
theorem run {steps : List (Step × Interference)} (ht : Accounted c s t)
    (h : t.run c steps = some t') :
    Accounted c s t' := by
  induction steps generalizing t with
  | nil =>
    obtain rfl := Option.some.inj h
    exact ht
  | cons e steps ih =>
    obtain ⟨u, hu, h⟩ := Option.bind_eq_some_iff.mp h
    exact ih (ht.step hu) h

theorem countP_le_one (ht : Accounted c s t) : t.owed.countP LiveGuard.unmasks ≤ 1 :=
  Nat.le_trans (Nat.le_add_right _ _) (ht.balance ▸ Bool.toNat_le _)

/-- Where no guard is owed, interrupts are as they were at the start. -/
theorem settled (ht : Accounted c s t) (howed : t.owed = []) :
    c.enabled t.core = c.enabled s.core := by
  have hbalance := ht.balance
  rw [howed, List.countP_nil, Nat.zero_add] at hbalance
  refine Bool.eq_iff_iff.mpr ?_
  rw [← Bool.toNat_eq_one, ← Bool.toNat_eq_one, hbalance]

/-- If interrupts were enabled at the start, they are masked where a guard is owed that unmasks. -/
theorem masked_iff (ht : Accounted c s t) (hs : c.enabled s.core = true) :
    c.enabled t.core = false ↔ ∃ e ∈ t.owed, e.guard.restore = some true := by
  have hbalance := ht.balance
  rw [hs, Bool.toNat_true] at hbalance
  simp only [← LiveGuard.unmasks_eq_true]
  rw [← Bool.toNat_eq_zero, ← List.countP_pos_iff]
  omega

/-- If interrupts were masked at the start, they are masked, and no guard is owed that unmasks. -/
theorem masked_of_start (ht : Accounted c s t) (hs : c.enabled s.core = false) :
    c.enabled t.core = false ∧ ∀ e ∈ t.owed, e.guard.restore ≠ some true := by
  have hbalance := ht.balance
  rw [hs, Bool.toNat_false] at hbalance
  obtain ⟨hcount, hflag⟩ := Nat.add_eq_zero_iff.mp hbalance
  refine ⟨Bool.toNat_eq_zero.mp hflag, fun e he h => ?_⟩
  exact List.countP_eq_zero.mp hcount e he (LiveGuard.unmasks_eq_true.mpr h)

end Accounted

/-- The guards owed are a stack: only the one taken first may remember the interrupts as they
were. -/
def Stacked (enabled : Bool) : LiveGuards → Prop
  | [] => True
  | e :: owed => e.guard.restore = some (owed.isEmpty && enabled) ∧ Stacked enabled owed

namespace Stacked

variable {enabled : Bool} {owed : LiveGuards} {e : LiveGuard}

theorem remembers (h : Stacked enabled owed) (he : e ∈ owed) : e.guard.restore.isSome = true := by
  induction owed with
  | nil => cases he
  | cons k owed ih =>
    obtain rfl | he := List.mem_cons.mp he
    · rw [h.1]
      rfl
    · exact ih h.2 he

/-- The guard at the bottom of the stack unmasks. -/
theorem exists_unmasks (h : Stacked true owed) (howed : owed ≠ []) :
    ∃ e ∈ owed, e.guard.restore = some true := by
  induction owed with
  | nil => exact absurd rfl howed
  | cons k owed ih =>
    cases owed with
    | nil => exact ⟨k, List.mem_cons_self, h.1⟩
    | cons k' owed =>
      obtain ⟨e, he, hrestore⟩ := ih h.2 (List.cons_ne_nil _ _)
      exact ⟨e, List.mem_cons_of_mem _ he, hrestore⟩

end Stacked

/-- Where the guards owed are a stack, interrupts are masked as long as any is. -/
theorem Accounted.masked_of_stacked (ht : Accounted c s t)
    (hstacked : Stacked (c.enabled s.core) t.owed)
    (howed : t.owed ≠ []) : c.enabled t.core = false := by
  cases hs : c.enabled s.core with
  | false => exact (ht.masked_of_start hs).1
  | true =>
    rw [hs] at hstacked
    exact (ht.masked_iff hs).mpr (hstacked.exists_unmasks howed)

theorem Stacked.step (ht : Accounted c s t) (hstacked : Stacked (c.enabled s.core) t.owed)
    (hlast : t.lastFirst st = true) (h : t.step c st x = some t') :
    Stacked (c.enabled s.core) t'.owed := by
  obtain ⟨e, hremembers, howed, -, -⟩ | ⟨e, hdrops, -, howed, -, -, -⟩ | ⟨howed, -, -⟩ :=
    step_moves h
  · rw [howed]
    refine ⟨hremembers.trans (congrArg some ?_), hstacked⟩
    cases hempty : t.owed.isEmpty with
    | true => exact ht.settled (List.isEmpty_iff.mp hempty)
    | false => exact ht.masked_of_stacked hstacked (by simpa using hempty)
  · rw [howed]
    rw [lastFirst, hdrops] at hlast
    obtain hnone | hhead := (Bool.or_eq_true _ _).mp hlast
    · rw [List.erase_of_not_mem fun he => ?_]
      · exact hstacked
      · have := hstacked.remembers he
        simp_all
    · obtain ⟨owed, hcons⟩ := List.head?_eq_some_iff.mp (of_decide_eq_true hhead)
      rw [hcons, List.erase_cons_head]
      rw [hcons] at hstacked
      exact hstacked.2
  · rw [howed]
    exact hstacked

/-- Guards that are dropped in the reverse order of taking are a stack. -/
theorem Stacked.run {steps : List (Step × Interference)} (ht : Accounted c s t)
    (hstacked : Stacked (c.enabled s.core) t.owed) (hnests : t.nests c steps = true)
    (h : t.run c steps = some t') : Stacked (c.enabled s.core) t'.owed := by
  induction steps generalizing t with
  | nil =>
    obtain rfl := Option.some.inj h
    exact hstacked
  | cons e steps ih =>
    obtain ⟨u, hu, h⟩ := Option.bind_eq_some_iff.mp h
    obtain ⟨hlast, hrest⟩ := (Bool.and_eq_true _ _).mp hnests
    rw [hu] at hrest
    exact ih (ht.step hu) (hstacked.step ht hlast hu) hrest h

/-- While interrupts are masked, no permitted step enables them but one that drops the guard that
remembers them. -/
theorem masked_during (hpermits : t.permits c st = true)
    (hdrops : ∀ e, t.drops? st = some e → e.guard.restore ≠ some true)
    (hmasked : c.enabled t.core = false) (n : Nat) : c.enabled (t.during st x n).core = false := by
  have indifferent (hst : st.indifferent = true) :=
    (Step.keeps_core hst t.session.guards).masked t.session.state x n hmasked
  cases st with
  | disable c' => cases hpermits
  | enableIf c' b => cases hpermits
  | cell _ _ | fetch _ _ _ | fetchNew _ _ _ | testSetLock _ _ | word _ _ _ | swapLockWord _ _ _
  | storeLockWord _ _ _ | flag _ _ | raw _ _ _ | fence _ => exact indifferent rfl
  | spin l op =>
    cases op with
    | acquire _ | tryAcquire _ | forget _ | value _ | setValue _ _ | isLocked | replace _ | renew
    | brief _ _ => exact indifferent rfl
    | acquireMasked name =>
      exact InterruptState.masked ((InterruptState.acquireMasked l id).bind fun _ =>
        .ret (M := fun _ _ _ => True) fun _ _ _ => trivial) (.start _ _) x n id hmasked
    | unlock name =>
      cases hg : t.session.guards.find? l.lock name with
      | none =>
        rw [during, Step.prog_unlock_of_none hg]
        exact InterruptState.masked (c := .line)
          (.ret (M := fun _ _ _ => True) fun _ _ _ => trivial) (.start _ _) x n id hmasked
      | some g =>
        rw [during, Step.prog_unlock hg]
        exact InterruptState.masked
          ((InterruptState.unlock l (hdrops _ (drops?_unlock hg)) id).bind fun _ =>
          .ret (M := fun _ _ _ => True) fun _ _ _ => trivial) (.start _ _) x n id hmasked

theorem Stacked.masked_during (ht : Accounted c s t) (hstacked : Stacked (c.enabled s.core) t.owed)
    (hpermits : t.permits c st = true) (hlast : t.lastFirst st = true)
    (howed : ∀ e, t.drops? st = some e → t.owed ≠ [e]) (hne : t.owed ≠ [])
    (x : Interference) (n : Nat) :
    c.enabled (t.during st x n).core = false := by
  refine Tally.masked_during hpermits (fun e hdrops hrestore => ?_)
    (ht.masked_of_stacked hstacked hne) n
  rw [lastFirst, hdrops] at hlast
  obtain hnone | hhead := (Bool.or_eq_true _ _).mp hlast
  · simp only [hrestore] at hnone
    cases hnone
  · obtain ⟨owed, hcons⟩ := List.head?_eq_some_iff.mp (of_decide_eq_true hhead)
    rw [hcons] at hstacked
    have hempty : owed.isEmpty = true := by
      have hboth := Option.some.inj (hrestore.symm.trans hstacked.1)
      exact ((Bool.and_eq_true _ _).mp hboth.symm).1
    exact howed e hdrops (by rw [hcons, List.isEmpty_iff.mp hempty])

end Tally

/-- **The guards owed account for the interrupts.** After any run of steps, with locks taken with
interrupts masked and guards dropped in any order: * if interrupts were enabled at the start, they
are masked exactly while a guard is owed that remembers that they were, there is at most one, and
when all have been dropped interrupts are enabled; * if they were masked at the start, no guard
remembers them as enabled, and they are masked, also at every instant of the next step; * if guards
have been dropped in the reverse order of taking, interrupts are masked while any is owed, also at
every instant of a next step that keeps that order and does not drop the only guard owed; * every
live guard that remembers the interrupts is owed. -/
theorem guards_account_for_masking {c : Controller} {s : State} {steps : List (Step × Interference)}
    {t : Tally} (h : (Tally.start s).run c steps = some t) :
    (c.enabled s.core = true →
      (c.enabled t.core = false ↔ ∃ e ∈ t.owed, e.guard.restore = some true) ∧
      t.owed.countP LiveGuard.unmasks ≤ 1 ∧
      (t.owed = [] → c.enabled t.core = true)) ∧
    (c.enabled s.core = false →
      (∀ e ∈ t.owed, e.guard.restore ≠ some true) ∧ c.enabled t.core = false ∧
      ∀ st x n, t.permits c st = true → c.enabled (t.during st x n).core = false) ∧
    ((Tally.start s).nests c steps = true → t.owed ≠ [] →
      c.enabled t.core = false ∧
      ∀ st x n, t.permits c st = true → t.lastFirst st = true →
        (∀ e, t.drops? st = some e → t.owed ≠ [e]) → c.enabled (t.during st x n).core = false) ∧
    ∀ e ∈ t.session.guards, e.guard.restore.isSome = true → e ∈ t.owed := by
  have ht := (Tally.Accounted.start c s).run h
  refine ⟨fun hs => ⟨ht.masked_iff hs, ht.countP_le_one, fun howed => (ht.settled howed).trans hs⟩,
    fun hs => ?_, fun hnests howed => ?_, ht.live⟩
  · obtain ⟨hmasked, hnone⟩ := ht.masked_of_start hs
    refine ⟨hnone, hmasked, fun st x n hpermits => ?_⟩
    refine Tally.masked_during hpermits (fun e hdrops hrestore => ?_) hmasked n
    exact hnone e (ht.live e (Tally.mem_of_drops? hdrops) (by rw [hrestore]; rfl)) hrestore
  · have hstacked := Tally.Stacked.run (.start c s) trivial hnests h
    exact ⟨ht.masked_of_stacked hstacked howed, fun st x n hpermits hlast hlastOne =>
      hstacked.masked_during ht hpermits hlast hlastOne howed x n⟩

/-- Two locks that mask the interrupts of one core, on backends of their own. -/
def firstLock : SpinLock (.int (.unsigned .w8)) := ⟨.pair .armv7, ⟨.cell 0⟩, .guarded 0⟩

@[inherit_doc firstLock]
def secondLock : SpinLock (.int (.unsigned .w8)) :=
  ⟨.globalLock .arm .native, ⟨.cell 1⟩, .guarded 1⟩

/-- Both locks are taken, and then one guard is dropped. -/
def overlapping (dropsFirst : Bool) : List (Step × Interference) :=
  [(.spin firstLock (.acquireMasked "outer"), .none),
    (.spin secondLock (.acquireMasked "inner"), .none),
    (if dropsFirst then .spin firstLock (.unlock "outer") else .spin secondLock
      (.unlock "inner"), .none)]

/-- Where the guard taken first is dropped first, interrupts are enabled while the other one is
owed; in the reverse order they stay masked. -/
theorem overlapping_guards : ∃ t u,
    (Tally.start (.start true true)).run .arm (overlapping true) = some t ∧
    t.owed = [⟨secondLock.lock, "inner", ⟨some false⟩⟩] ∧ Controller.arm.enabled t.core = true ∧
    (Tally.start (.start true true)).run .arm (overlapping false) = some u ∧
    u.owed = [⟨firstLock.lock, "outer", ⟨some true⟩⟩] ∧ Controller.arm.enabled u.core = false := by
  have hfirst : ((Tally.start (.start true true)).run .arm (overlapping true)).map Tally.owed =
      some [⟨secondLock.lock, "inner", ⟨some false⟩⟩] := by decide +kernel
  have hreverse : ((Tally.start (.start true true)).run .arm (overlapping false)).map Tally.owed =
      some [⟨firstLock.lock, "outer", ⟨some true⟩⟩] := by decide +kernel
  obtain ⟨t, ht, howed⟩ := Option.map_eq_some_iff.mp hfirst
  obtain ⟨u, hu, howed'⟩ := Option.map_eq_some_iff.mp hreverse
  have henabled := (guards_account_for_masking ht).1 (by decide)
  have hmasked := (guards_account_for_masking hu).2.2.1 (by decide +kernel) (by simp [howed'])
  refine ⟨t, u, ht, howed, Bool.of_not_eq_false fun h => ?_, hu, howed', hmasked.1⟩
  simpa [howed] using henabled.1.mp h

end Atomicity
