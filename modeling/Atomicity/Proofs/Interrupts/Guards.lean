import Atomicity.Proofs.Interrupts.GivenBack

/-!
# The interrupt flag and the guards of spin locks

What the operations on a spin lock do to the core. To take a lock with interrupts masked leaves them
masked, with a guard that remembers what they were (`acquireMasked`); to end a guard puts them to
what it remembers, if that is enabled, and otherwise leaves them as they are (`unlock_enabling`,
`unlock`).

Every other step gives the core back as it was, and leaves no guard behind that remembers anything
(`Step.keeps_core`).
-/

namespace Atomicity

open Prog Discipline

namespace InterruptState

variable {core : Core} {f : Bool} {t : Scalar} (l : SpinLock t)

/-- To wait for a lock leaves the flag as it is. -/
theorem acquire (l : RawLock) {b : Backend} (hf : f = true → b.controller.enabled core = true) :
    (preserving b.controller core).Leads (Flag b.controller core f) (l.acquire b)
      fun _ => Flag b.controller core f :=
  (Operates.untilTrue (Operates.tryAcquire l)).balanced.flag hf

theorem release (l : RawLock) {b : Backend} (hf : f = true → b.controller.enabled core = true) :
    (preserving b.controller core).Leads (Flag b.controller core f) (l.release b)
      fun _ => Flag b.controller core f :=
  (Operates.privilegedStore (a := l.word) 0).balanced.flag hf

/-- **The guard of a lock taken with interrupts masked remembers what they were.** -/
theorem acquireMasked (hf : f = true → l.backend.controller.enabled core = true) :
    (preserving l.backend.controller core).Leads (Flag l.backend.controller core f) l.acquireMasked
      fun g u s => g = ⟨some f⟩ ∧ Flag l.backend.controller core false u s := by
  refine (disable core _ hf).bind fun b => .given fun hb => ?_
  subst hb
  exact (acquire l.lock fun h => absurd h Bool.false_ne_true).bind fun _ =>
    .ret fun _ _ hs => ⟨rfl, hs⟩

/-- To end a guard that does not remember that interrupts were enabled leaves them as they are. -/
theorem unlock {g : Guard} (hg : g.restore ≠ some true)
    (hf : f = true → l.backend.controller.enabled core = true) :
    (preserving l.backend.controller core).Leads (Flag l.backend.controller core f) (l.unlock g)
      fun _ => Flag l.backend.controller core f := by
  obtain ⟨restore⟩ := g
  refine (release l.lock hf).bind fun _ => ?_
  cases restore with
  | none => exact .ret fun _ _ hs => hs
  | some b =>
    cases b with
    | false => exact enableIf_false core _ hf
    | true => exact absurd rfl hg

/-- To end a guard that remembers that interrupts were enabled enables them. -/
theorem unlock_enabling (hcore : l.backend.controller.enabled core = true) :
    (preserving l.backend.controller core).Leads (Flag l.backend.controller core f)
      (l.unlock ⟨some true⟩) fun _ => Flag l.backend.controller core true :=
  (release l.lock fun _ => hcore).bind fun _ => enableIf_true core _ hcore

/-- To end a guard where interrupts are masked puts them to what it remembers. -/
theorem unlock_restoring {b : Bool} (hb : b = true → l.backend.controller.enabled core = true) :
    (preserving l.backend.controller core).Leads (Flag l.backend.controller core false)
      (l.unlock ⟨some b⟩) fun _ => Flag l.backend.controller core b := by
  cases b with
  | false =>
    exact unlock l (fun h => absurd (Option.some.inj h) Bool.false_ne_true)
      (fun h => absurd h Bool.false_ne_true)
  | true => exact unlock_enabling l (hb rfl)

/-- A section that is left early gives the flag back. -/
theorem brief (masked : Bool) (v : t.Value)
    (hf : f = true → l.backend.controller.enabled core = true) :
    (preserving l.backend.controller core).Leads (Flag l.backend.controller core f)
      (l.brief masked v) fun _ => Flag l.backend.controller core f := by
  have hmasked : false = true → l.backend.controller.enabled core = true :=
    fun h => absurd h Bool.false_ne_true
  cases masked with
  | false =>
    refine ((acquire l.lock hf).bind (N := fun g u s => g = (⟨none⟩ : Guard) ∧
      Flag l.backend.controller core f u s) fun _ => .ret fun _ _ hs => ⟨rfl, hs⟩).bind fun g =>
        .given fun hg => ?_
    subst hg
    exact (uncontrolled hf (.perform rfl)).bind fun _ => unlock l (Option.some_ne_none true).symm hf
  | true =>
    refine (acquireMasked l hf).bind fun g => .given fun hg => ?_
    subst hg
    exact (uncontrolled hmasked (.perform rfl)).bind fun _ => unlock_restoring l hf

end InterruptState

/-! ## Steps -/

/-- The operation is not about a guard that remembers the interrupts. -/
def SpinOp.indifferent {t : Scalar} : SpinOp t → Bool
  | acquireMasked _ | unlock _ => false
  | _ => true

namespace Step

/-- The step neither controls interrupts, nor is it about a guard that remembers them. -/
def indifferent : Step → Bool
  | spin _ op => op.indifferent
  | disable _ | enableIf .. => false
  | _ => true

end Step

/-- On some controller, the program gives the core back as it was; and `P` holds of its answer. -/
def KeepsCore {α : Type} (p : Prog α) (P : α → Prop) : Prop :=
  ∃ c : Controller, ∀ core f, (f = true → c.enabled core = true) →
    (InterruptState.preserving c core).Leads (InterruptState.Flag c core f) p
      fun r u s => P r ∧ InterruptState.Flag c core f u s

namespace KeepsCore

variable {α β : Type} {p : Prog α} {P : α → Prop} {P' : β → Prop}

theorem operates {b : Backend} {a : Addr} (h : Operates b a p) : KeepsCore p fun _ => True :=
  ⟨b.controller, fun _ _ hf => (h.balanced.flag hf).mono fun _ _ _ hs => ⟨trivial, hs⟩⟩

theorem uncontrolled (h : p.All fun i => i.controls = false) : KeepsCore p fun _ => True :=
  ⟨.line, fun _ _ hf => (InterruptState.uncontrolled hf h).mono fun _ _ _ hs => ⟨trivial, hs⟩⟩

theorem map (h : KeepsCore p P) {k : α → β} (hk : ∀ r, P r → P' (k r)) :
    KeepsCore (p.bind fun r => .ret (k r)) P' := by
  obtain ⟨c, hc⟩ := h
  exact ⟨c, fun core f hf => (hc core f hf).bind fun r => .ret fun _ _ hs => ⟨hk r hs.1, hs.2⟩⟩

section

variable (h : KeepsCore p P) (s : State) (x : Interference) (n : Nat)

include h

theorem result {r : α} (hr : ((Solo.start p s).run x n).result? = some r) :
    P r ∧ ((Solo.start p s).run x n).state.core.unreserved = s.core.unreserved := by
  obtain ⟨c, hc⟩ := h
  obtain ⟨hP, hflag⟩ := InterruptState.result (hc s.core (c.enabled s.core) id) (.start c s) x n hr
  exact ⟨hP, hflag.unreserved⟩

/-- What is masked at first, in the sense of any controller, is so at every instant. -/
theorem masked {c : Controller} (hs : c.enabled s.core = false) :
    c.enabled ((Solo.start p s).run x n).state.core = false := by
  obtain ⟨c', hc⟩ := h
  exact InterruptState.masked (hc s.core _ id) (.start c' s) x n id hs

end

end KeepsCore

namespace LiveGuards

variable {gs : LiveGuards} {l : RawLock} {name : String} {g : Guard} {e : LiveGuard}

theorem mem_remove : e ∈ gs.remove l name ↔ e ∈ gs ∧ ¬(e.lock = l ∧ e.name = name) := by
  simp [remove, Decidable.imp_iff_not_or]

theorem mem_insert : e ∈ gs.insert l name g ↔ e = ⟨l, name, g⟩ ∨ e ∈ gs.remove l name :=
  List.mem_cons

end LiveGuards

/-- Every live guard that remembers the interrupts was live before. -/
def LiveGuards.AddsNone (gs after : LiveGuards) : Prop :=
  ∀ e ∈ after, e.guard.restore.isSome = true → e ∈ gs

namespace LiveGuards.AddsNone

variable {gs : LiveGuards} {l : RawLock} {name : String}

theorem refl : AddsNone gs gs := fun _ he _ => he

theorem remove : AddsNone gs (gs.remove l name) := fun _ he _ => (mem_remove.mp he).1

theorem insert : AddsNone gs (gs.insert l name ⟨none⟩) := by
  intro e he hsome
  obtain rfl | he := mem_insert.mp he
  · cases hsome
  · exact (mem_remove.mp he).1

end LiveGuards.AddsNone

namespace Step

theorem answering_keeps {st : Step} (h : st.indifferent = true) :
    KeepsCore st.answering fun _ => True := by
  cases hplace : st.place? with
  | some e => exact .operates (operates hplace)
  | none =>
    cases st with
    | cell c op =>
      cases op with
      | replace v =>
        exact .uncontrolled
          (.bind (.bind (.perform rfl) fun _ => .bind (.perform rfl) fun _ => .ret _)
          fun _ => .ret _)
      | inner => exact .uncontrolled (.bind (.bind (.perform rfl) fun _ => .ret _) fun _ => .ret _)
      | _ => cases hplace
    | fence b => exact .uncontrolled (.bind (.perform rfl) fun _ => .ret _)
    | spin l op => exact .uncontrolled (.ret _)
    | disable c => cases h
    | enableIf c b => cases h
    | _ => cases hplace

open LiveGuards in
theorem spin_keeps {t : Scalar} (l : SpinLock t) (gs : LiveGuards) {op : SpinOp t}
    (h : op.indifferent = true) : KeepsCore (op.prog l gs) fun r => gs.AddsNone r.2 := by
  have attempt : KeepsCore l.tryAcquire fun r => ∀ g, r = some g → g = ⟨none⟩ :=
    (KeepsCore.operates (Operates.tryAcquire (b := l.backend) l.lock)).map fun taken _ g hg => by
      cases taken with
      | true => exact (Option.some.inj hg).symm
      | false => cases hg
  have held : KeepsCore l.isLocked fun _ => True :=
    .operates (Operates.map (Operates.snapshot (b := l.backend) (a := l.lock.word)) _)
  cases op with
  | acquire name =>
    have acquired : KeepsCore l.acquire fun g => g = (⟨none⟩ : Guard) :=
      (KeepsCore.operates (Operates.untilTrue (Operates.tryAcquire (b := l.backend) l.lock))).map
        fun _ _ => rfl
    exact acquired.map fun g hg => hg ▸ .insert
  | tryAcquire name =>
    obtain ⟨c, hc⟩ := attempt
    refine ⟨c, fun core f hf => (hc core f hf).bind fun r => .given fun hr => ?_⟩
    cases r with
    | none => exact .ret fun _ _ hs => ⟨.refl, hs⟩
    | some g => exact .ret fun _ _ hs => ⟨hr g rfl ▸ .insert, hs⟩
  | acquireMasked name => cases h
  | unlock name => cases h
  | forget name => exact ⟨.line, fun _ _ _ => .ret fun _ _ hs => ⟨.remove, hs⟩⟩
  | value name =>
    exact (KeepsCore.uncontrolled (.bind (.perform rfl) fun _ => .ret _)).map fun _ _ => .refl
  | setValue name v => exact (KeepsCore.uncontrolled (.perform rfl)).map fun _ _ => .refl
  | isLocked => exact held.map fun _ _ => .refl
  | replace v =>
    exact (KeepsCore.uncontrolled (.bind (.bind (.perform rfl) fun _ => .ret _) fun _ =>
      .bind (.perform rfl) fun _ => .ret _)).map fun _ _ => .refl
  | renew =>
    exact (KeepsCore.uncontrolled (.bind (.bind (.perform rfl) fun _ => .ret _) fun _ =>
      .bind (.perform rfl) fun _ => .ret _)).map fun _ _ => .refl
  | brief masked v =>
    refine ⟨l.backend.controller, fun core f hf => ?_⟩
    have look := (Operates.map (Operates.snapshot (b := l.backend) (a := l.lock.word))
      (· != 0)).balanced.flag hf
    refine look.bind fun held => ?_
    cases held with
    | true => exact .ret fun _ _ hs => ⟨.refl, hs⟩
    | false =>
      exact (InterruptState.brief l masked v hf).bind fun _ => .ret fun _ _ hs => ⟨.refl, hs⟩

/-- **Every step but those on interrupts gives the core back as it was**, and adds no live guard
that remembers the interrupts. -/
theorem keeps_core {st : Step} (h : st.indifferent = true) (gs : LiveGuards) :
    KeepsCore (st.prog gs) fun r => gs.AddsNone r.2 := by
  cases st with
  | spin l op => exact spin_keeps l gs h
  | disable c => cases h
  | enableIf c b => cases h
  | cell _ _ | fetch _ _ _ | fetchNew _ _ _ | testSetLock _ _ | word _ _ _ | swapLockWord _ _ _
  | storeLockWord _ _ _ | flag _ _ | raw _ _ _ | fence _ =>
    exact (answering_keeps h).map fun _ _ => .refl

end Step

end Atomicity
