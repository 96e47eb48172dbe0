import Atomicity.Backend.GlobalLock
import Atomicity.Proofs.Access
import Atomicity.Proofs.Discipline

/-!
# From one assertion to another

`Leads D R p R'` says that `p`, begun where `R` holds, complies with `D` for as long as it runs and
answers where `R'` does. The rules follow the program, as those of `Always` do.

`Prog.All` is for programs of which no more is known than what instructions they consist of: one
that only has instructions that keep `R` keeps `R` (`Leads.all`), however it loops.

**The programs of the controllers** (`Commands.disable`, `Commands.enableIf`) need one thing of a
discipline: that an instruction that does not touch memory does to the interrupt flag what it does.
`allowed` says whether interrupts may be enabled at all.

The shapes of the programs on the word of a lock come last: a swap between fences, an exclusive pair
in a loop, and a read and a write with interrupts masked.
-/

namespace Atomicity

/-- The address that an instruction reads or writes, if it does. -/
def Instr.target? : Instr → Option Addr
  | read _ a => some a
  | write _ a _ => some a
  | swap _ _ a _ => some a
  | compareSwap _ a _ _ => some a
  | fetchAdd _ a _ => some a
  | loadExclusive _ _ a => some a
  | storeExclusive _ _ a _ => some a
  | endConstruction => some .globalLock
  | _ => none

theorem Instr.target?_ne_of_eq_none {i : Instr} (h : i.target? = none) (a : Addr) :
    i.target? ≠ some a := by
  rw [h]
  exact (Option.some_ne_none a).symm

theorem Instr.read_of_target? {i : Instr} {a : Addr} (h : i.target? ≠ some a)
    (refused : Bool) (s : State) (w : Width) : (i.exec refused s).2.read w a = s.read w a := by
  have hwrite : ∀ {w' b} (v : Word w'), b ≠ a → (s.write w' b v).read w a = s.read w a :=
    fun v hb => Memory.read_write_of_ne _ v hb
  cases i with
  | write w' b v => exact hwrite v fun hb => h (congrArg some hb)
  | swap isa w' b v => exact hwrite v fun hb => h (congrArg some hb)
  | fetchAdd w' b v => exact hwrite _ fun hb => h (congrArg some hb)
  | compareSwap w' b expected desired =>
    simp only [exec]
    split
    · exact hwrite desired fun hb => h (congrArg some hb)
    · rfl
  | storeExclusive isa w' b v =>
    simp only [exec]
    split
    · exact hwrite _ fun hb => h (congrArg some hb)
    · rfl
  | endConstruction => exact hwrite _ fun hb => h (congrArg some hb)
  | claimCore =>
    simp only [exec]
    split <;> rfl
  | lineRestore b => cases b <;> rfl
  | startConstruction =>
    simp only [exec]
    split <;> rfl
  | _ => rfl

theorem Core.and_maskBit (v : BitVec 32) : (v &&& maskBit == 0) = !v.getLsbD 7 := by
  have h : maskBit = BitVec.twoPow 32 7 := by decide
  rw [h, BitVec.and_twoPow]
  cases v.getLsbD 7 <;> decide

/-- The instruction is one of those that the programs of controllers are made of. -/
def Instr.commands : Instr → Bool
  | lineMask | lineRestore _ => true
  | isMasked | setMasked _ | claimCore | disownCore => true
  | readCpsr | writeCpsr _ => true
  | readDaif | setDaif | clearDaif => true
  | readFlagIF | cli | sti => true
  | _ => false

theorem Instr.target?_of_commands {i : Instr} (h : i.commands = true) : i.target? = none := by
  cases i <;> first | rfl | cases h

theorem Instr.target?_ne_of_commands {i : Instr} (h : i.commands = true) (a : Addr) :
    i.target? ≠ some a :=
  target?_ne_of_eq_none (target?_of_commands h) a

namespace Prog

variable {P : Instr → Prop}

/-- Every instruction of a program satisfies `P`. -/
def All {α : Type} (P : Instr → Prop) : Prog α → Prop
  | .ret _ => True
  | .instr i k => P i ∧ ∀ r, (k r).All P
  | .loop body _ k => (∀ t, (body t).All P) ∧ ∀ b, (k b).All P

theorem All.ret {α : Type} (a : α) : (Prog.ret a).All P := trivial

theorem All.perform {i : Instr} (h : P i) : (Prog.perform i).All P :=
  ⟨h, fun r => All.ret r⟩

theorem All.bind {α β : Type} {p : Prog α} {f : α → Prog β} (h : p.All P)
    (next : ∀ a, (f a).All P) :
    (p.bind f).All P := by
  induction p with
  | ret a => exact next a
  | instr i k ih => exact ⟨h.1, fun r => ih r (h.2 r) next⟩
  | loop body t k _ ih => exact ⟨h.1, fun b => ih b (h.2 b) next⟩

theorem All.iterate {σ β : Type} {body : σ → Prog (σ ⊕ β)} (h : ∀ t, (body t).All P) (t : σ) :
    (Prog.iterate body t).All P :=
  ⟨h, fun b => All.ret b⟩

theorem All.unroll {α β σ : Type} {body : σ → Prog (σ ⊕ β)} {t : σ} {k : β → Prog α}
    (h : (Prog.loop body t k).All P) : (Prog.unroll body t k).All P := by
  refine .bind (h.1 t) fun r => ?_
  cases r with
  | inl t => exact h
  | inr b => exact h.2 b

theorem All.mono {α : Type} {P' : Instr → Prop} (hP : ∀ i, P i → P' i) {p : Prog α} (h : p.All P) :
    p.All P' := by
  induction p with
  | ret a => exact .ret a
  | instr i k ih => exact ⟨hP i h.1, fun r => ih r (h.2 r)⟩
  | loop body t k ihbody ih => exact ⟨fun t => ihbody t (h.1 t), fun b => ih b (h.2 b)⟩

/-- Nothing is asked of the instructions. -/
theorem All.trivial {α : Type} (p : Prog α) : p.All fun _ => True := by
  induction p with
  | ret a => exact .ret a
  | instr i k ih => exact ⟨True.intro, ih⟩
  | loop body t k ihbody ih => exact ⟨ihbody, ih⟩

end Prog

open Prog

/-! The instructions of a controller's programs. -/

theorem Controller.all_disable {P : Instr → Prop} (h : ∀ i, i.commands = true → P i)
    (c : Controller) :
    c.disable.All P := by
  cases c with
  | line => exact .perform (h _ rfl)
  | hosted =>
    refine .bind (.perform (h _ rfl)) fun masked => ?_
    split
    · exact .ret false
    · refine .bind (.iterate (fun _ => .bind (.perform (h _ rfl)) fun _ => .ret _) ()) fun _ => ?_
      exact .bind (.perform (h _ rfl)) fun _ => .ret true
  | arm => exact .bind (.perform (h _ rfl)) fun _ => .bind (.perform (h _ rfl)) fun _ => .ret _
  | aarch64 => exact .bind (.perform (h _ rfl)) fun _ => .bind (.perform (h _ rfl)) fun _ => .ret _
  | x86 => exact .bind (.perform (h _ rfl)) fun _ => .bind (.perform (h _ rfl)) fun _ => .ret _

theorem Controller.all_enableIf {P : Instr → Prop} (h : ∀ i, i.commands = true → P i)
    (c : Controller) (b : Bool) : (c.enableIf b).All P := by
  cases c with
  | line => exact .perform (h _ rfl)
  | hosted =>
    cases b with
    | false => exact .ret ()
    | true => exact ⟨h _ rfl, fun _ => .perform (h _ rfl)⟩
  | arm =>
    cases b with
    | false => exact .ret ()
    | true => exact ⟨h _ rfl, fun _ => .perform (h _ rfl)⟩
  | aarch64 =>
    cases b with
    | false => exact .ret ()
    | true => exact .perform (h _ rfl)
  | x86 =>
    cases b with
    | false => exact .ret ()
    | true => exact .perform (h _ rfl)

theorem Controller.all_masking {P : Instr → Prop} (h : ∀ i, i.commands = true → P i)
    (c : Controller) {α : Type} {p : Prog α} (hp : p.All P) : (c.masking p).All P :=
  .bind (c.all_disable h) fun b => .bind hp fun r => .bind (c.all_enableIf h b) fun _ => .ret r

/-! The instructions of a backend's programs on its own. -/

/-- What a swap of a lock's word consists of, where interrupts are masked. -/
theorem Prog.all_swapping {P : Instr → Prop} {isa : Isa} {a : Addr} {v : Word .w64}
    (fence : P (.fence isa)) (read : P (.read .w64 a)) (write : P (.write .w64 a v)) :
    Prog.All P (do
      perform (.fence isa)
      let previous ← perform (.read .w64 a)
      perform (.write .w64 a v)
      perform (.fence isa)
      return previous) :=
  .bind (.perform fence) fun _ => .bind (.perform read) fun r => .bind (.perform write) fun _ =>
    .bind (.perform fence) fun _ => .ret r

theorem GlobalLock.all_construct {P : Instr → Prop} (first : P .startConstruction)
    (last : P .endConstruction) : (GlobalLock.construct (.ret ())).All P := by
  refine .iterate (P := P) (fun _ => .bind (.perform first) fun status => ?_) ()
  cases status with
  | complete => exact .ret _
  | running => exact .ret _
  | incomplete => exact .bind (.ret ()) fun _ => .bind (.perform last) fun _ => .ret _

namespace Discipline

variable {γ α β σ : Type}

/-- From where `R` holds, a program complies for as long as it runs, and answers where `R'` does. -/
def Leads (D : Discipline γ) (R : γ → State → Prop) (p : Prog α) (R' : α → γ → State → Prop) :
    Prop :=
  ∀ g s, R g s → D.Always R' p g s

namespace Leads

variable {D : Discipline γ} {R R₀ : γ → State → Prop} {p : Prog α} {M M' : α → γ → State → Prop}
  {N : β → γ → State → Prop}

theorem ret {a : α} (h : ∀ g s, R g s → M a g s) : D.Leads R (.ret a) M :=
  fun g s hs => .ret (h g s hs)

theorem instr {i : Instr} {M : i.Reply → γ → State → Prop}
    (h : ∀ g s s' refused, R g s → D.env i s s' → ∃ g',
      D.own i (i.exec refused s').1 g s' g' (i.exec refused s').2 ∧
        M (i.exec refused s').1 g' (i.exec refused s').2) :
    D.Leads R (perform i) M := by
  intro g s hs
  refine .instr fun s' he refused => ?_
  obtain ⟨g', ho, hM⟩ := h g s s' refused hs he
  exact ⟨g', ho, .ret hM⟩

theorem bind {f : α → Prog β} (h : D.Leads R p M) (next : ∀ a, D.Leads (M a) (f a) N) :
    D.Leads R (p.bind f) N := by
  intro g s hs
  exact .bind ((h g s hs).mono fun a g s ha => next a g s ha)

theorem mono (h : D.Leads R p M) (hM : ∀ a g s, M a g s → M' a g s) : D.Leads R p M' :=
  fun g s hs => (h g s hs).mono hM

theorem weaken (h : D.Leads R p M) (hR : ∀ g s, R₀ g s → R g s) : D.Leads R₀ p M :=
  fun g s hs => h g s (hR g s hs)

/-- What does not depend on the state can be taken as given. -/
theorem given {A : Prop} (h : A → D.Leads R p M) : D.Leads (fun g s => A ∧ R g s) p M :=
  fun g s hs => h hs.1 g s hs.2

/-- To make something of the answer executes nothing. -/
theorem map {k : α → β} (h : D.Leads R p fun a => N (k a)) :
    D.Leads R (p.bind fun a => .ret (k a)) N :=
  h.bind fun _ => .ret fun _ _ hs => hs

theorem iterate {I : σ → γ → State → Prop} {body : σ → Prog (σ ⊕ β)}
    (round : ∀ x, D.Leads (I x) (body x) fun r g s => r.elim (I · g s) (N · g s)) (x : σ) :
    D.Leads (I x) (Prog.iterate body x) N := by
  intro g s hs
  refine .loop I N (fun x g s hx => (round x g s hx).mono fun r g s hr => ?_)
    (fun _ _ _ hb => .ret hb) hs
  cases r with
  | inl x => exact hr
  | inr b => exact hr

theorem untilTrue {R' : γ → State → Prop} {attempt : Prog Bool}
    (h : D.Leads R attempt fun ok g s => if ok then R' g s else R g s) :
    D.Leads R (Prog.untilTrue attempt) fun _ => R' := by
  refine Leads.iterate (I := fun _ => R) (N := fun _ => R') (fun _ => ?_) ()
  refine h.bind fun ok => .ret fun g s hs => ?_
  cases ok with
  | true => exact hs
  | false => exact hs

/-- A loop keeps what every round of it keeps. -/
theorem iterate_keeps {body : σ → Prog (σ ⊕ β)}
    (round : ∀ x, D.Leads R (body x) fun _ => R) (x : σ) :
    D.Leads R (Prog.iterate body x) fun _ => R := by
  refine .iterate (I := fun _ => R) (fun x => (round x).mono fun r g s hs => ?_) x
  cases r <;> exact hs

theorem untilTrue_keeps {attempt : Prog Bool} (h : D.Leads R attempt fun _ => R) :
    D.Leads R (Prog.untilTrue attempt) fun _ => R := by
  refine .untilTrue (h.mono fun ok g s hs => ?_)
  cases ok <;> exact hs

/-- **A program that only has instructions that keep `R` keeps `R`.** -/
theorem all {P : Instr → Prop} (keep : ∀ i, P i → D.Leads R (perform i) fun _ => R) (hp : p.All P) :
    D.Leads R p fun _ => R := by
  induction p with
  | ret a => exact .ret fun _ _ hs => hs
  | instr i k ih => exact (keep i hp.1).bind (N := fun _ => R) fun r => ih r (hp.2 r)
  | loop body t k ihbody ih =>
    intro g s hs
    refine .loop (fun _ => R) (fun _ => R) (fun t g s ht => ?_)
      (fun b g s hb => ih b (hp.2 b) g s hb) hs
    refine (ihbody t (hp.1 t) g s ht).mono fun r g s hr => ?_
    cases r with
    | inl t => exact hr
    | inr b => exact hr

end Leads

/-! ## Controllers -/

/-- An instruction that does not touch memory leads from one state of the interrupt flag to another,
if that is what it does. To enable interrupts that are masked has to be allowed. -/
def Commands (D : Discipline γ) (c : Controller) (allowed : Prop) (R : Bool → γ → State → Prop) :
    Prop :=
  ∀ (i : Instr) {f e : Bool} (P : i.Reply → Prop), i.target? = none →
    (e = true → f = false → allowed) →
    (∀ s refused, c.enabled s.core = f →
      P (i.exec refused s).1 ∧ c.enabled (i.exec refused s).2.core = e) →
    D.Leads (R f) (perform i) fun r g s => P r ∧ R e g s

namespace Commands

variable {D : Discipline γ} {c : Controller} {allowed : Prop}
  {R : Bool → γ → State → Prop} {f : Bool}

theorem mono {less : Prop} (h : D.Commands c allowed R) (hless : less → allowed) :
    D.Commands c less R :=
  fun i _ _ P ht ha hi => h i P ht (fun he hf => hless (ha he hf)) hi

/-- An instruction whose answer does not matter. -/
theorem instr (h : D.Commands c allowed R) (i : Instr) {e : Bool} (ht : i.target? = none)
    (ha : e = true → f = false → allowed)
    (hi : ∀ s refused, c.enabled s.core = f → c.enabled (i.exec refused s).2.core = e) :
    D.Leads (R f) (perform i) fun _ => R e :=
  (h i (fun _ => True) ht ha fun s refused hf => ⟨trivial, hi s refused hf⟩).mono
    fun _ _ _ hs => hs.2

/-- An instruction that masks interrupts. -/
theorem mask (h : D.Commands c allowed R) (i : Instr) (ht : i.target? = none)
    (hi : ∀ s refused, c.enabled (i.exec refused s).2.core = false) :
    D.Leads (R f) (perform i) fun _ => R false :=
  h.instr i ht (fun he => absurd he Bool.false_ne_true) fun s refused _ => hi s refused

/-- An instruction that leaves the flag as it is, and answers something about it. -/
theorem query (h : D.Commands c allowed R) (i : Instr) (P : i.Reply → Prop) (ht : i.target? = none)
    (hi : ∀ s refused, c.enabled s.core = f →
      P (i.exec refused s).1 ∧ c.enabled (i.exec refused s).2.core = f) :
    D.Leads (R f) (perform i) fun r g s => P r ∧ R f g s := by
  refine h i P ht (fun he hf => ?_) hi
  rw [he] at hf
  cases hf

theorem claimCore (h : D.Commands .hosted allowed R) :
    D.Leads (R f) (perform .claimCore) fun _ => R f := by
  refine (h.query .claimCore (fun _ => True) rfl fun s refused hf => ⟨trivial, ?_⟩).mono
    fun _ _ _ hs => hs.2
  simp only [Instr.exec]
  split
  · exact hf
  · exact hf

/-- **To disable interrupts answers whether they were enabled, and leaves them masked.** -/
theorem disable (h : D.Commands c allowed R) :
    D.Leads (R f) c.disable fun b g s => b = f ∧ R false g s := by
  cases c with
  | line =>
    exact h .lineMask (· = f) rfl (fun he => absurd he Bool.false_ne_true) fun s _ hf => ⟨hf, rfl⟩
  | hosted =>
    refine (h.query .isMasked (· = !f) rfl fun s _ hf => ⟨?_, hf⟩).bind fun masked =>
      .given fun hmasked => ?_
    · rw [← hf]
      exact (Bool.not_not _).symm
    · subst hmasked
      cases f with
      | false => exact .ret fun _ _ hs => ⟨rfl, hs⟩
      | true =>
        refine h.claimCore.untilTrue_keeps.bind fun _ =>
          (h.mask (.setMasked true) rfl fun _ _ => rfl).bind fun _ => ?_
        exact .ret fun _ _ hs => ⟨rfl, hs⟩
  | arm =>
    refine (h.query .readCpsr (fun v => (v &&& Core.maskBit == 0) = f) rfl
      fun s _ hf => ⟨hf, hf⟩).bind fun cpsr => .given fun hcpsr => ?_
    refine (h.mask (.writeCpsr _) rfl fun s refused => ?_).bind fun _ => ?_
    · have hbit : ((Instr.writeCpsr (cpsr ||| Core.maskBit)).exec refused s).2.core.cpsr.getLsbD 7 =
          true := by simp [Instr.exec, Core.maskBit]
      exact (Core.and_maskBit _).trans (congrArg not hbit)
    · exact .ret fun _ _ hs => ⟨hcpsr, hs⟩
  | aarch64 =>
    refine (h.query .readDaif (· = !f) rfl fun s _ hf => ⟨?_, hf⟩).bind fun masked =>
      .given fun hmasked => ?_
    · rw [← hf]
      exact (Bool.not_not _).symm
    · refine (h.mask .setDaif rfl fun _ _ => rfl).bind fun _ => .ret fun _ _ hs => ⟨?_, hs⟩
      rw [hmasked, Bool.not_not]
  | x86 =>
    refine (h.query .readFlagIF (· = f) rfl fun s _ hf => ⟨hf, hf⟩).bind fun enabled =>
      .given fun henabled => ?_
    refine (h.mask .cli rfl fun _ _ => rfl).bind fun _ => ?_
    exact .ret fun _ _ hs => ⟨henabled, hs⟩

/-- **To enable interrupts if they were leaves them as they were.** -/
theorem enableIf (h : D.Commands c allowed R) (b : Bool) (ha : b = true → allowed) :
    D.Leads (R false) (c.enableIf b) fun _ => R b := by
  have stay : D.Leads (R false) (.ret ()) fun _ => R false := .ret fun _ _ hs => hs
  cases b with
  | false =>
    cases c with
    | line =>
      exact h.instr (.lineRestore false) rfl (fun he => absurd he Bool.false_ne_true)
        fun _ _ hf => hf
    | hosted => exact stay
    | arm => exact stay
    | aarch64 => exact stay
    | x86 => exact stay
  | true =>
    have ha' : true = true → false = false → allowed := fun _ _ => ha rfl
    cases c with
    | line => exact h.instr (.lineRestore true) rfl ha' fun _ _ _ => rfl
    | hosted =>
      refine (h.instr (.setMasked false) rfl ha' fun _ _ _ => rfl).bind fun _ => ?_
      exact h.instr .disownCore rfl (fun _ hf => absurd hf.symm Bool.false_ne_true)
        fun _ _ hf => hf
    | arm =>
      refine (h.instr .readCpsr (e := false) rfl (fun he => absurd he Bool.false_ne_true)
        fun _ _ hf => hf).bind fun cpsr => ?_
      refine h.instr (.writeCpsr _) rfl ha' fun s refused _ => ?_
      have hbit :
          ((Instr.writeCpsr (cpsr &&& ~~~Core.maskBit)).exec refused s).2.core.cpsr.getLsbD 7 =
          false := by simp [Instr.exec, Core.maskBit]
      exact (Core.and_maskBit _).trans (congrArg not hbit)
    | aarch64 => exact h.instr .clearDaif rfl ha' fun _ _ _ => rfl
    | x86 => exact h.instr .sti rfl ha' fun _ _ _ => rfl

end Commands

/-! ## The word of a lock -/

/-- Instructions that do nothing at all keep `R`. -/
def Still (D : Discipline γ) (R : γ → State → Prop) : Prop :=
  ∀ i : Instr, i.target? = none → (∀ s refused, (i.exec refused s).2 = s) →
    D.Leads R (perform i) fun _ => R

namespace Leads

variable {D : Discipline γ} {R : γ → State → Prop} {M : α → γ → State → Prop} {p : Prog α}

theorem fence {R : γ → State → Prop} (still : D.Still R) (isa : Isa) :
    D.Leads R (perform (.fence isa)) fun _ => R :=
  still (.fence isa) rfl fun _ _ => rfl

/-- A program between two fences. -/
theorem fenced {isa : Isa} (still : D.Still R) (still' : ∀ a, D.Still (M a)) (h : D.Leads R p M) :
    D.Leads R (do
      perform (.fence isa)
      let a ← p
      perform (.fence isa)
      return a) M := by
  refine (fence still isa).bind fun _ => h.bind fun a => (fence (still' a) isa).bind fun _ => ?_
  exact .ret fun _ _ hs => hs

theorem announced (still : D.Still R) (h : D.Leads R p M) (primitive : Primitive) :
    D.Leads R (Native.announced primitive p) M :=
  (still (.announce primitive) rfl fun _ _ => rfl).bind fun _ => h

/-- An exclusive pair leads to an exchange: `N` is what a load-exclusive makes sure of, and it
suffices for the store-exclusive that stores. -/
theorem pairExchange {isa : PairIsa} {w : Width} {a : Addr} {v : Word w}
    {M : Word w → γ → State → Prop} (N : Register w → γ → State → Prop) (still : D.Still R)
    (still' : ∀ r, D.Still (M r)) (load : D.Leads R (perform (.loadExclusive isa w a)) N)
    (store : ∀ r, D.Leads (N r) (perform (.storeExclusive isa w a (Word.toRegister v)))
      fun ok g s => if ok then M (Register.toWord r) g s else R g s) :
    D.Leads R (isa.exchange w a v) M := by
  have exchanged := iterate (D := D) (I := fun _ : Unit => R) (N := fun r => M (Register.toWord r))
    (fun _ => load.bind fun found => (store found).bind fun stored =>
      .ret (a := if stored then .inr found else .inl ()) fun g s hs => ?_) ()
  · exact (fence still _).bind fun _ => exchanged.bind fun found =>
      (fence (still' _) _).bind fun _ =>
      .ret fun _ _ hs => hs
  · cases stored with
    | true => exact hs
    | false => exact hs

/-- A swap by a read and a write with interrupts masked. -/
theorem maskedSwap {c : Controller} {isa : Isa} {a : Addr} {v : Word .w64}
    {allowed : Prop} {f : Bool} {R : Bool → γ → State → Prop}
    {M : Word .w64 → Bool → γ → State → Prop}
    (N : Word .w64 → γ → State → Prop) (before : D.Commands c allowed R)
    (after : ∀ r, D.Commands c allowed (M r)) (still : D.Still (R false))
    (still' : ∀ r, D.Still (M r false)) (hf : f = true → allowed)
    (read : D.Leads (R false) (perform (.read .w64 a)) N)
    (write : ∀ r, D.Leads (N r) (perform (.write .w64 a v)) fun _ => M r false) :
    D.Leads (R f) (Backend.maskedSwap c isa a v) fun r => M r f := by
  have swap : D.Leads (R false)
      (do
        perform (.fence isa)
        let previous ← perform (.read .w64 a)
        perform (.write .w64 a v)
        perform (.fence isa)
        return previous)
      fun r => M r false :=
    (fence still isa).bind fun _ => read.bind fun r => (write r).bind fun _ =>
      (fence (still' r) isa).bind fun _ => .ret fun _ _ hs => hs
  refine before.disable.bind fun b => .given fun hb => swap.bind fun r => ?_
  subst hb
  exact ((after r).enableIf b hf).bind fun _ => .ret fun _ _ hs => hs

variable {b : Backend} {a : Addr} {v : Word .w64}

/-- **To swap the word of a lock**, on every backend: with an instruction, with an exclusive pair,
or with interrupts masked. -/
theorem testSetLock {M : Word .w64 → γ → State → Prop} (N : Register .w64 → γ → State → Prop)
    (still : D.Still R) (still' : ∀ r, D.Still (M r))
    (swap : ∀ isa, D.Leads R (perform (.swap isa .w64 a v)) M)
    (load : ∀ isa, D.Leads R (perform (.loadExclusive isa .w64 a)) N)
    (store : ∀ isa r, D.Leads (N r) (perform (.storeExclusive isa .w64 a (Word.toRegister v)))
      fun ok g s => if ok then M (Register.toWord r) g s else R g s)
    (masked : ∀ c base, b = .globalLock c base →
      ∀ isa, D.Leads R (Backend.maskedSwap c isa a v) M) :
    D.Leads R (b.testSetLock a v) M := by
  cases b with
  | native => exact swap .x86
  | traced => exact announced still (swap .x86) _
  | casOnly => exact announced still (swap .x86) _
  | pair isa => exact pairExchange N still still' (load isa) (store isa)
  | singleCore c isa widths => exact fenced still still' (swap isa)
  | globalLock c base => exact masked c base rfl _

/-- **To write the word of a lock**, on every backend: plainly, or with interrupts masked. -/
theorem privilegedStore {M : γ → State → Prop} (still : D.Still R) (still' : D.Still M)
    (write : D.Leads R (perform (.write .w64 a v)) fun _ => M)
    (masked : ∀ c base, b = .globalLock c base →
      ∀ isa, D.Leads R (Backend.maskedSwap c isa a v) fun _ => M) :
    D.Leads R (b.privilegedStore a v) fun _ => M := by
  have store : ∀ isa : Isa, D.Leads R (isa.store .w64 a v) fun _ => M := fun isa =>
    (fence still isa).bind fun _ => write.bind fun _ => fence still' isa
  cases b with
  | native => exact store _
  | traced => exact announced still (store _) _
  | casOnly => exact announced still (store _) _
  | pair isa => exact store _
  | singleCore c isa widths => exact store _
  | globalLock c base => exact (masked c base rfl _).bind fun _ => .ret fun _ _ hs => hs

end Leads

end Discipline

end Atomicity
