import Atomicity.Proofs.Evaluation
import Atomicity.Proofs.Setup.Construction
import Atomicity.Proofs.Uniform.Primitives

/-!
# What has been constructed and logged is not seen

Two machines are `Twins` if they differ in their records only, which are how far construction of the
global lock has come and what has been logged; and if the lock is constructed in both, or free and
nobody is constructing it.

No instruction but those that record anything looks at the records (`Instr.exec_recorded`), and a
section under the global lock constructs it as it is. So **what is put together of sections does the
same in both of two twins** and leaves twins (`Mirrors.sectioned`). To set a backend up changes
records only (`Backend.setUp_evaluates`), and leaves of twins twins.
-/

namespace Atomicity

open Prog

namespace State

/-- The state with other records. -/
def recorded (s : State) (once : OnceStatus) (log : List Record) : State :=
  { s with shared := { s.shared with once := once, log := log } }

/-- The global lock is constructed, or it is free and nobody is constructing it. -/
def Constructible (s : State) : Prop :=
  s.shared.once = .complete ∨ s.shared.once ≠ .running ∧ s.shared.memory.Unlocked

end State

/-- What records nothing does not look at the records. -/
theorem Instr.exec_recorded {i : Instr} (h : i.records = false) (refused : Bool) (s : State)
    (once : OnceStatus) (log : List Record) : i.exec refused (s.recorded once log) =
      ((i.exec refused s).1, (i.exec refused s).2.recorded once log) := by
  cases i with
  | compareSwap w a expected desired =>
    have hread : (s.recorded once log).read w a = s.read w a := rfl
    simp only [exec, hread]
    by_cases hfound : s.read w a = expected
    · rw [if_pos hfound, if_pos hfound]
      rfl
    · rw [if_neg hfound, if_neg hfound]
  | storeExclusive isa w a v =>
    have hcore : (s.recorded once log).core = s.core := rfl
    simp only [exec, hcore]
    by_cases hopen : s.core.monitor = some ⟨w, a⟩ ∧ refused = false
    · rw [if_pos hopen, if_pos hopen]
      rfl
    · rw [if_neg hopen, if_neg hopen]
      rfl
  | claimCore =>
    have howned : (s.recorded once log).shared.coreOwned = s.shared.coreOwned := rfl
    simp only [exec, howned]
    by_cases hfree : s.shared.coreOwned = false ∧ refused = false
    · rw [if_pos hfree, if_pos hfree]
      rfl
    · rw [if_neg hfree, if_neg hfree]
  | lineRestore b => cases b <;> rfl
  | startConstruction => cases h
  | endConstruction => cases h
  | log r => cases h
  | _ => rfl

/-- The machines differ in their records only, and the global lock is constructed in both, or free
and nobody is constructing it. -/
structure Twins (s s' : State) : Prop where
  alike : ∃ once log, s' = s.recorded once log
  lock : s.shared.once = .complete ∧ s'.shared.once = .complete ∨
    s.shared.once ≠ .running ∧ s'.shared.once ≠ .running ∧ s.shared.memory.Unlocked

/-- Twins in which the global lock has been constructed. -/
structure Constructed (s s' : State) : Prop where
  alike : ∃ once log, s' = s.recorded once log
  first : s.shared.once = .complete
  second : s'.shared.once = .complete

theorem Constructed.twins {s s' : State} (h : Constructed s s') : Twins s s' :=
  ⟨h.alike, .inl ⟨h.first, h.second⟩⟩

/-- What the program does in the one machine it does in the other. -/
def Prog.Mirrors {α : Type} (R : State → State → Prop) (p : Prog α) (R' : State → State → Prop) :
    Prop :=
  ∀ ⦃s s' t : State⦄ ⦃n : Nat⦄ ⦃r : α⦄, R s s' → p.Evaluates s n r t →
    ∃ m t', p.Evaluates s' m r t' ∧ R' t t'

namespace Prog.Mirrors

variable {α β σ : Type} {R S T : State → State → Prop} {p : Prog α}

theorem mono (h : p.Mirrors R S) (hS : ∀ s s', S s s' → T s s') : p.Mirrors R T := by
  intro s s' t n r hs he
  obtain ⟨m, t', he', ht⟩ := h hs he
  exact ⟨m, t', he', hS _ _ ht⟩

theorem ret (r : α) : (Prog.ret r).Mirrors R R := by
  intro s s' t n r hs he
  cases he
  exact ⟨0, s', .ret _ s', hs⟩

theorem bind {f : α → Prog β} (h : p.Mirrors R S) (next : ∀ r, (f r).Mirrors S T) :
    (p.bind f).Mirrors R T := by
  intro s s' t n r hs he
  obtain ⟨i, j, a, u, hp, hf, -⟩ := he.of_bind
  obtain ⟨i', u', hp', hu⟩ := h hs hp
  obtain ⟨j', t', hf', ht⟩ := next a hu hf
  exact ⟨i' + j', t', hp'.bind hf', ht⟩

/-- A loop does the same for as many rounds as it takes. -/
theorem iterate {body : σ → Prog (σ ⊕ β)} (round : ∀ x, (body x).Mirrors R R) (x : σ) :
    (Prog.iterate body x).Mirrors R R := by
  intro s s' t n r hs he
  induction n using Nat.strongRecOn generalizing s s' x with
  | ind n ih =>
    obtain _ | _ | he := he
    obtain ⟨i, j, a, u, hround, hrest, hn⟩ := he.of_bind
    obtain ⟨i', u', hround', hu⟩ := round x hs hround
    cases a with
    | inl y =>
      obtain ⟨j', t', hrest', ht⟩ := ih j (by omega) y hu hrest
      exact ⟨i' + j' + 1, t', .loop (hround'.bind hrest'), ht⟩
    | inr b =>
      cases hrest
      exact ⟨i' + 0 + 1, u', .loop (hround'.bind (.ret _ u')), hu⟩

/-- What every instruction of a program does in both machines the program does. -/
theorem all {P : Instr → Prop} (instr : ∀ i, P i → ∀ s s', R s s' →
      (i.exec false s').1 = (i.exec false s).1 ∧ R (i.exec false s).2 (i.exec false s').2)
        (hp : p.All P) :
    p.Mirrors R R := by
  intro s s' t n r hs he
  induction he generalizing s' with
  | ret r s => exact ⟨0, s', .ret r s', hs⟩
  | @instr i k s t n r he ih =>
    obtain ⟨hreply, hs'⟩ := instr i hp.1 s s' hs
    obtain ⟨m, t', he', ht⟩ := ih (hp.2 _) hs'
    rw [← hreply] at he'
    exact ⟨m + 1, t', .instr he', ht⟩
  | loop he ih =>
    obtain ⟨m, t', he', ht⟩ := ih hp.unroll hs
    exact ⟨m + 1, t', .loop he', ht⟩

end Prog.Mirrors

/-! ## Construction -/

namespace GlobalLock

variable {s : State} {announcement : Prog Unit} {more : List Record} {n : Nat}

/-- Whoever sees to it that the lock is constructed changes records only. -/
theorem construct_evaluates (hs : s.Constructible)
    (h : announcement.Evaluates (s.recorded .running s.shared.log) n ()
      (s.recorded .running (s.shared.log ++ more))) :
    ∃ m ≤ n + 3, (construct announcement).Evaluates s m ()
      (s.recorded .complete
        (s.shared.log ++ if s.shared.once = .incomplete then more else [])) := by
  cases honce : s.shared.once with
  | incomplete =>
    have hfree : s.shared.memory.Unlocked := by
      obtain hcomplete | ⟨-, hfree⟩ := hs
      · rw [honce] at hcomplete
        cases hcomplete
      · exact hfree
    have hstart : Instr.startConstruction.exec false s =
        (.incomplete, s.recorded .running s.shared.log) := by
      simp only [Instr.exec, honce]
      rfl
    have hend : Instr.endConstruction.exec false (s.recorded .running (s.shared.log ++ more)) =
        ((), s.recorded .complete (s.shared.log ++ more)) := by
      have hmemory : s.shared.memory.write .w64 .globalLock 0 = s.shared.memory := by
        rw [← hfree, Memory.write_read]
      simp only [Instr.exec, State.write, State.recorded, hmemory]
    have round : Evaluates (announcement.bind fun _ => (perform .endConstruction).bind fun _ =>
        .ret (.inr () : Unit ⊕ Unit)) (s.recorded .running s.shared.log) (n + 1) (.inr ())
          (s.recorded .complete (s.shared.log ++ more)) := by
      refine h.bind (.instr ?_)
      rw [hend]
      exact .ret _ _
    refine ⟨n + 1 + 0 + 1 + 1, by omega, .loop (.instr ?_)⟩
    rw [hstart, if_pos rfl]
    refine Evaluates.bind round ?_
    exact .ret () _
  | running =>
    obtain hcomplete | ⟨hnot, -⟩ := hs
    · rw [honce] at hcomplete
      cases hcomplete
    · exact absurd honce hnot
  | complete =>
    have hstart : Instr.startConstruction.exec false s = (.complete, s) := by
      simp only [Instr.exec, honce]
    have hsame : s.recorded .complete s.shared.log = s := by
      rw [← honce]
      rfl
    refine ⟨2, by omega, .loop (.instr ?_)⟩
    rw [hstart, if_neg OnceStatus.noConfusion, List.append_nil, hsame]
    exact .ret _ _

end GlobalLock

/-- To log something changes records only. -/
theorem Build.emit_evaluates (b : Build) (level : Level) (message : String) (s : State) :
    ∃ n ≤ 1, (b.emit level message).Evaluates s n ()
      (s.recorded s.shared.once (s.shared.log ++ b.records ⟨level, message⟩)) := by
  unfold Build.emit Build.records
  cases b.logging with
  | true => exact ⟨1, Nat.le_refl 1, .instr (.ret () _)⟩
  | false =>
    have hsame : s.recorded s.shared.once s.shared.log = s := rfl
    rw [if_neg Bool.false_ne_true, if_neg Bool.false_ne_true, List.append_nil, hsame]
    exact ⟨0, Nat.zero_le 1, .ret () s⟩

/-- **To set a global-lock backend up changes records only.** -/
theorem Backend.setUp_evaluates (b : Build) (c : Controller) (base : Backend) {s : State}
    (hs : s.Constructible) :
    ∃ n ≤ 5, ((Backend.globalLock c base).setUp b).Evaluates s n ()
      (s.recorded .complete (s.shared.log ++ b.setUpRecords s.shared.once)) := by
  obtain ⟨i, hi, hannounce⟩ := b.emit_evaluates .debug "atomics: constructing global atomic lock"
    (s.recorded .running s.shared.log)
  obtain ⟨j, hj, hconstruct⟩ := GlobalLock.construct_evaluates hs hannounce
  obtain ⟨k, hk, hwarn⟩ := b.emit_evaluates .warn
    "atomics: global atomic lock backend is only correct on a single core" (s.recorded .complete
      (s.shared.log ++ if s.shared.once = .incomplete then b.records .construction else []))
  have hboth := hconstruct.bind (f := fun _ => b.emit .warn _) hwarn
  refine ⟨j + k, by omega, ?_⟩
  have hrecords : s.shared.log ++ b.setUpRecords s.shared.once =
      (s.shared.log ++ if s.shared.once = .incomplete then b.records .construction else []) ++
        b.records .singleCore := (List.append_assoc ..).symm
  rw [hrecords]
  exact hboth

/-- To set a global-lock backend up alone takes few steps. -/
theorem Backend.setUp_alone (b : Build) (c : Controller) (base : Backend) {s : State}
    (hs : s.Constructible) :
    (((Backend.globalLock c base).setUp b).alone s).result? = some () ∧
      (((Backend.globalLock c base).setUp b).alone s).state =
        s.recorded .complete (s.shared.log ++ b.setUpRecords s.shared.once) := by
  obtain ⟨n, hn, he⟩ := setUp_evaluates b c base hs
  exact he.alone (Nat.le_trans hn (by decide))

/-! ## Twins -/

namespace Twins

variable {s s' : State}

/-- An instruction that records nothing does the same in both. -/
theorem exec {i : Instr} (hi : i.records = false) (h : ∃ once log, s' = s.recorded once log) :
    (i.exec false s').1 = (i.exec false s).1 ∧
      ∃ once log, (i.exec false s').2 = (i.exec false s).2.recorded once log := by
  obtain ⟨once, log, rfl⟩ := h
  rw [Instr.exec_recorded hi]
  exact ⟨rfl, once, log, rfl⟩

theorem memory (h : Twins s s') : s'.shared.memory = s.shared.memory := by
  obtain ⟨⟨once, log, rfl⟩, -⟩ := h
  rfl

theorem settled (h : Twins s s') (hs : s.Settled) : s'.Settled := by
  obtain ⟨⟨once, log, rfl⟩, hlock⟩ := h
  refine ⟨hs.owner, ?_⟩
  obtain ⟨-, hcomplete⟩ | ⟨-, hnot, -⟩ := hlock
  · exact hcomplete ▸ OnceStatus.noConfusion
  · exact hnot

/-- While the lock is free, one machine may have constructed it and the other not. -/
theorem constructed (h : Twins s s') (hs' : s'.shared.once ≠ .running)
    (hm : s.shared.memory.Unlocked) (log : List Record) : Twins (s.recorded .complete log) s' := by
  obtain ⟨⟨once, log', rfl⟩, -⟩ := h
  exact ⟨⟨once, log', rfl⟩, .inr ⟨OnceStatus.noConfusion, hs', hm⟩⟩

theorem constructible (h : Twins s s') : s.Constructible ∧ s'.Constructible := by
  obtain ⟨⟨once, log, rfl⟩, hlock⟩ := h
  obtain ⟨hfirst, hsecond⟩ | ⟨hfirst, hsecond, hfree⟩ := hlock
  · exact ⟨.inl hfirst, .inl hsecond⟩
  · exact ⟨.inr ⟨hfirst, hfree⟩, .inr ⟨hsecond, hfree⟩⟩

end Twins

namespace Prog.Mirrors

variable {α : Type} {p : Prog α}

/-- Where the lock is constructed, what records nothing does the same in both. -/
theorem apart (hp : p.All fun i => i.records = false) : p.Mirrors Constructed Constructed := by
  refine .all (fun i hi s s' hs => ?_) hp
  obtain ⟨hreply, halike⟩ := Twins.exec hi hs.alike
  exact ⟨hreply, halike, (i.recorded_of_not_records hi false s).1.trans hs.first,
    (i.recorded_of_not_records hi false s').1.trans hs.second⟩

/-- What leaves the lock alone does the same in both of two twins. -/
theorem aside (hp : p.All Instr.Aside) : p.Mirrors Twins Twins := by
  refine .all (fun i hi s s' hs => ?_) hp
  obtain ⟨hreply, halike⟩ := Twins.exec hi.2 hs.alike
  have hfirst := (i.recorded_of_not_records hi.2 false s).1
  have hsecond := (i.recorded_of_not_records hi.2 false s').1
  refine ⟨hreply, halike, ?_⟩
  rw [hfirst, hsecond]
  obtain hboth | ⟨hone, hother, hfree⟩ := hs.lock
  · exact .inl hboth
  · exact .inr ⟨hone, hother, (Instr.read_of_target? hi.1 false s .w64).trans hfree⟩

/-- To see to it that the lock is constructed leaves it constructed in both. -/
theorem construct : (GlobalLock.construct (.ret ())).Mirrors Twins Constructed := by
  have silent : ∀ s : State, (Prog.ret ()).Evaluates (s.recorded .running s.shared.log) 0 ()
      (s.recorded .running (s.shared.log ++ [])) := by
    intro s
    rw [List.append_nil]
    exact .ret () _
  intro s s' t n r hs he
  obtain ⟨hfirst, hsecond⟩ := hs.constructible
  obtain ⟨i, -, hi⟩ := GlobalLock.construct_evaluates hfirst (silent s)
  obtain ⟨j, -, hj⟩ := GlobalLock.construct_evaluates hsecond (silent s')
  obtain ⟨-, rfl, rfl⟩ := he.unique hi
  refine ⟨j, _, hj, ?_, rfl, rfl⟩
  obtain ⟨once, log, rfl⟩ := hs.alike
  exact ⟨_, _, rfl⟩

/-- A section under the global lock does the same in both of two twins. -/
theorem locked (c : Controller) (base : Backend) (hp : p.All Instr.Aside) :
    (GlobalLock.locked c base p).Mirrors Twins Twins := by
  have enable : ∀ b, (c.enableIf b).Mirrors Constructed Constructed :=
    fun b => apart ((Controller.aside_enableIf c b).mono fun _ hi => hi.2)
  have body := construct.bind fun _ => apart (GlobalLock.apart_held c base hp)
  refine Mirrors.mono (S := Constructed) ?_ fun _ _ => Constructed.twins
  refine (aside (.perform (.still rfl rfl))).bind fun _ =>
    Mirrors.bind (S := Constructed) ?_ fun r =>
    (apart (.perform rfl)).bind fun _ => .ret r
  exact (aside (Controller.aside_disable c)).bind fun b => body.bind fun r =>
    (enable b).bind fun _ => .ret r

/-- **What is put together of sections does the same in both of two twins.** -/
theorem sectioned (h : Sectioned p) : p.Mirrors Twins Twins := by
  induction h with
  | aside h => exact aside h
  | locked c base h => exact locked c base h
  | bind first next ihfirst ihnext => exact ihfirst.bind ihnext
  | iterate round t ih => exact .iterate ih t

end Prog.Mirrors

end Atomicity
