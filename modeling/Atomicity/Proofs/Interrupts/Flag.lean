import Atomicity.Proofs.Lock.Nests
import Atomicity.Proofs.OneCore.World

/-!
# The interrupt flag of a core

What the programs of a controller do to a core, bit by bit. A core is compared apart from its
exclusive monitor (`Core.unreserved`), which a foreign write may close at any time.

`Flag c core f` is a state in which the core is `core`, but that the flag of the controller `c` says
`f`. The discipline `preserving c core` keeps a program to such states, and to masked interrupts if
they are masked in `core`.

**To disable interrupts and to give them back** (`disable`, `enableIf`) leads from one such core to
another, on every controller; so a part of a program that runs with interrupts masked leaves no
trace (`masking`).
-/

namespace Atomicity

namespace Core

theorem getLsbD_maskBit (j : Nat) : maskBit.getLsbD j = decide (j = 7) := by
  have h : maskBit = BitVec.twoPow 32 7 := by decide
  rw [h, BitVec.getLsbD_twoPow]
  simp [eq_comm]

theorem getLsbD_or_maskBit (v : BitVec 32) (j : Nat) :
    (v ||| maskBit).getLsbD j = (v.getLsbD j || decide (j = 7)) := by
  rw [BitVec.getLsbD_or, getLsbD_maskBit]

theorem getLsbD_andNot_maskBit (v : BitVec 32) (j : Nat) :
    (v &&& ~~~maskBit).getLsbD j = (v.getLsbD j && !decide (j = 7)) := by
  rw [BitVec.getLsbD_and, BitVec.getLsbD_not, getLsbD_maskBit]
  by_cases hj : j < 32
  · simp [hj]
  · simp [BitVec.getLsbD_of_ge v j (by omega)]

/-- To write the control byte back with the bit set changes no other bit. -/
theorem control_or (v : BitVec 32) :
    (v &&& ~~~0xff) ||| ((v ||| maskBit) &&& 0xff) = v ||| maskBit := by
  refine BitVec.eq_of_getLsbD_eq fun j hj => ?_
  have hcontrol := congrArg (fun m : BitVec 32 => m.getLsbD j)
    (show maskBit &&& 0xff = maskBit by decide)
  simp only [BitVec.getLsbD_or, BitVec.getLsbD_and, BitVec.getLsbD_not, hj, decide_true,
    Bool.true_and] at hcontrol ⊢
  rw [← hcontrol]
  cases v.getLsbD j <;> cases (0xff : BitVec 32).getLsbD j <;> simp

/-- To write the control byte back with the bit clear changes no other bit. -/
theorem control_andNot (v : BitVec 32) :
    (v &&& ~~~0xff) ||| ((v &&& ~~~maskBit) &&& 0xff) = v &&& ~~~maskBit := by
  refine BitVec.eq_of_getLsbD_eq fun j hj => ?_
  have hcontrol := congrArg (fun m : BitVec 32 => m.getLsbD j)
    (show maskBit &&& 0xff = maskBit by decide)
  simp only [BitVec.getLsbD_or, BitVec.getLsbD_and, BitVec.getLsbD_not, hj, decide_true,
    Bool.true_and] at hcontrol ⊢
  rw [← hcontrol]
  cases v.getLsbD j <;> cases (0xff : BitVec 32).getLsbD j <;> simp

end Core

namespace Controller

/-- A core with the flag of a controller put to enabled or masked. -/
def put (c : Controller) (b : Bool) (core : Core) : Core := (c.putEnabled b ⟨core, .start⟩).core

theorem unreserved_put (c : Controller) (b : Bool) (core : Core) :
    (c.put b core).unreserved = c.put b core.unreserved := by
  cases c <;> rfl

theorem enabled_put (c : Controller) (b : Bool) (core : Core) : c.enabled (c.put b core) = b :=
  c.enabled_putEnabled b _

theorem getLsbD_put (b : Bool) (core : Core) (j : Nat) :
    (arm.put b core).cpsr.getLsbD j = if j = 7 then !b else core.cpsr.getLsbD j := by
  cases b with
  | false =>
    refine (Core.getLsbD_or_maskBit _ j).trans ?_
    split <;> simp [*]
  | true =>
    refine (Core.getLsbD_andNot_maskBit _ j).trans ?_
    split <;> simp [*]

/-- To put the flag to what it is changes nothing. -/
theorem put_self (c : Controller) (core : Core) : c.put (c.enabled core) core = core := by
  cases c with
  | line => rfl
  | hosted => simp [put, enabled, putEnabled]
  | arm =>
    have hbit : arm.enabled core = !core.cpsr.getLsbD 7 := Core.and_maskBit _
    have hcpsr : (arm.put (arm.enabled core) core).cpsr = core.cpsr := by
      refine BitVec.eq_of_getLsbD_eq fun j _ => ?_
      rw [getLsbD_put, hbit, Bool.not_not]
      split
      · next hj => rw [hj]
      · rfl
    exact congrArg (fun v => { core with cpsr := v }) hcpsr
  | aarch64 => simp [put, enabled, putEnabled]
  | x86 => rfl

/-- Only the last of two puts counts. -/
theorem put_put (c : Controller) (b e : Bool) (core : Core) :
    c.put b (c.put e core) = c.put b core := by
  cases c with
  | arm =>
    have hcpsr : (arm.put b (arm.put e core)).cpsr = (arm.put b core).cpsr := by
      refine BitVec.eq_of_getLsbD_eq fun j _ => ?_
      rw [getLsbD_put, getLsbD_put, getLsbD_put]
      split <;> rfl
    exact congrArg (fun v => { core with cpsr := v }) hcpsr
  | _ => rfl

/-- To put a flag that may be put leaves what is masked masked, also in the sense of another
controller. -/
theorem enabled_put_of_masked {c c' : Controller} {b : Bool} {core : Core}
    (h : c.enabled core = false) (hb : b = true → c'.enabled core = true) :
    c.enabled (c'.put b core) = false := by
  by_cases hc : c' = c
  · subst hc
    rw [enabled_put]
    cases b with
    | false => rfl
    | true => exact absurd (hb rfl) (by rw [h]; exact Bool.false_ne_true)
  · rw [← h]
    cases c <;> cases c' <;> first | rfl | exact absurd rfl hc

/-- No bit of the status register but the one that masks interrupts is changed. -/
theorem cpsr_put {j : Nat} (hj : j ≠ 7) (c : Controller) (b : Bool) (core : Core) :
    (c.put b core).cpsr.getLsbD j = core.cpsr.getLsbD j := by
  cases c with
  | arm => rw [getLsbD_put, if_neg hj]
  | _ => rfl

end Controller

namespace InterruptState

open Prog Discipline

/-- The core is `core`, but for the flag of `c`, which says `f`, and for the monitor. -/
def Flag (c : Controller) (core : Core) (f : Bool) (_ : Unit) (s : State) : Prop :=
  s.core.unreserved = (c.put f core).unreserved

/-- Others leave a core as it is, but for the monitor. A program leaves it as `core` is, but for the
flag of `c`, and does not enable interrupts that are masked in `core`. -/
def preserving (c : Controller) (core : Core) : Discipline Unit where
  env _ s s' := s'.core.unreserved = s.core.unreserved
  own _ _ _ _ g' s' := ∃ f, (f = true → c.enabled core = true) ∧ Flag c core f g' s'

variable {c : Controller} {core : Core} {s : State} {f e : Bool} {g : Unit} {α : Type}

namespace Flag

theorem start (c : Controller) (s : State) : Flag c s.core (c.enabled s.core) () s :=
  congrArg Core.unreserved (c.put_self s.core).symm

theorem enabled (h : Flag c core f g s) : c.enabled s.core = f := by
  rw [← c.enabled_unreserved, h, c.enabled_unreserved, c.enabled_put]

theorem cpsr (h : Flag c core f g s) : s.core.cpsr = (c.put f core).cpsr := by
  have hcpsr := congrArg Core.cpsr h
  exact hcpsr

theorem cpsr_bit {j : Nat} (h : Flag c core f g s) (hj : j ≠ 7) :
    s.core.cpsr.getLsbD j = core.cpsr.getLsbD j := by
  rw [h.cpsr, c.cpsr_put hj]

/-- Where the flag says what it says in `core`, all is as in `core`. -/
theorem unreserved (h : Flag c core (c.enabled core) g s) : s.core.unreserved = core.unreserved :=
  h.trans (congrArg Core.unreserved (c.put_self core))

/-- What puts the flag to `e` in a core does so whatever the flag was before. -/
theorem put {s' : State} (h : Flag c core f g s)
    (hs' : s'.core.unreserved = (c.put e s.core).unreserved) : Flag c core e g s' :=
  calc s'.core.unreserved
    _ = c.put e s.core.unreserved := hs'.trans (c.unreserved_put e s.core)
    _ = (c.put e (c.put f core)).unreserved := by rw [h, ← c.unreserved_put]
    _ = (c.put e core).unreserved := by rw [c.put_put]

end Flag

/-- One more instruction. -/
theorem instr (he : e = true → c.enabled core = true) (i : Instr) (P : i.Reply → Prop)
    (h : ∀ s refused, Flag c core f () s →
      P (i.exec refused s).1 ∧ Flag c core e () (i.exec refused s).2) :
    (preserving c core).Leads (Flag c core f) (perform i) fun r g s => P r ∧ Flag c core e g s := by
  refine .instr fun g s s' refused hs henv => ⟨(), ?_⟩
  obtain ⟨hP, hflag⟩ := h s' refused (henv.trans hs)
  exact ⟨⟨e, he, hflag⟩, hP, hflag⟩

/-- One more instruction, whose answer does not matter. -/
theorem command (he : e = true → c.enabled core = true) (i : Instr)
    (h : ∀ s refused, Flag c core f () s → Flag c core e () (i.exec refused s).2) :
    (preserving c core).Leads (Flag c core f) (perform i) fun _ => Flag c core e :=
  (instr he i (fun _ => True) fun s refused hs => ⟨trivial, h s refused hs⟩).mono
    fun _ _ _ hs => hs.2

/-- A program without instructions that change the flag. -/
theorem uncontrolled (hf : f = true → c.enabled core = true) {p : Prog α}
    (hp : p.All fun i => i.controls = false) :
    (preserving c core).Leads (Flag c core f) p fun _ => Flag c core f :=
  .all (fun i hi => command hf i fun s refused hs =>
    (i.unreserved_of_not_controls hi refused s).trans hs) hp

/-! ## The programs of a controller -/

section

variable (core)

/-- To write the status register back with another bit 7 puts the flag. -/
theorem writeCpsr (b : Bool) (s : State) (refused : Bool) :
    ((Instr.writeCpsr (Controller.arm.put b s.core).cpsr).exec refused s).2.core =
      Controller.arm.put b s.core := by
  cases b with
  | false => exact congrArg (fun v => { s.core with cpsr := v }) (Core.control_or s.core.cpsr)
  | true => exact congrArg (fun v => { s.core with cpsr := v }) (Core.control_andNot s.core.cpsr)

theorem putCpsr (he : e = true → Controller.arm.enabled core = true) {cpsr : BitVec 32}
    (hcpsr : cpsr = (Controller.arm.put f core).cpsr) :
    (preserving .arm core).Leads (Flag .arm core f)
      (perform (.writeCpsr (if e then cpsr &&& ~~~Core.maskBit else cpsr ||| Core.maskBit)))
      fun _ => Flag .arm core e := by
  refine command he _ fun s refused hs => hs.put ?_
  have hs' : s.core.cpsr = cpsr := hs.cpsr.trans hcpsr.symm
  subst hs'
  exact congrArg Core.unreserved (writeCpsr e s refused)

/-- **To disable interrupts answers whether they were enabled, and masks them.** -/
theorem disable (c : Controller) (hf : f = true → c.enabled core = true) :
    (preserving c core).Leads (Flag c core f) c.disable fun b g s =>
      b = f ∧ Flag c core false g s := by
  have hmasked : false = true → c.enabled core = true := fun h => absurd h Bool.false_ne_true
  cases c with
  | line => exact instr hmasked .lineMask (· = f) fun s refused hs => ⟨hs.enabled, hs.put rfl⟩
  | hosted =>
    refine (instr hf .isMasked (· = !f) fun s refused hs => ⟨?_, hs⟩).bind fun masked =>
      .given fun hanswer => ?_
    · rw [← hs.enabled]
      exact (Bool.not_not _).symm
    · subst hanswer
      cases f with
      | false => exact .ret fun _ _ hs => ⟨rfl, hs⟩
      | true =>
        have claim : (preserving .hosted core).Leads (Flag .hosted core true)
            (Prog.untilTrue (perform .claimCore)) fun _ => Flag .hosted core true := by
          refine .untilTrue_keeps (command hf .claimCore fun s refused hs => ?_)
          simp only [Instr.exec]
          split <;> exact hs
        refine claim.bind fun _ =>
          (command hmasked (.setMasked true) fun s _ hs => hs.put rfl).bind fun _ =>
          .ret fun _ _ hs => ⟨rfl, hs⟩
  | arm =>
    refine (instr hf .readCpsr (· = (Controller.arm.put f core).cpsr)
      fun s _ hs => ⟨hs.cpsr, hs⟩).bind fun cpsr => .given fun hcpsr => ?_
    refine (putCpsr core hmasked hcpsr).bind fun _ => .ret fun _ _ hs => ⟨?_, hs⟩
    rw [hcpsr]
    exact Controller.arm.enabled_put f core
  | aarch64 =>
    refine (instr hf .readDaif (· = !f) fun s _ hs => ⟨?_, hs⟩).bind fun masked =>
      .given fun hanswer => ?_
    · rw [← hs.enabled]
      exact (Bool.not_not _).symm
    · refine (command hmasked .setDaif fun s _ hs => hs.put rfl).bind fun _ =>
        .ret fun _ _ hs => ⟨?_, hs⟩
      rw [hanswer, Bool.not_not]
  | x86 =>
    refine (instr hf .readFlagIF (· = f) fun s _ hs => ⟨hs.enabled, hs⟩).bind fun enabled =>
      .given fun hanswer => ?_
    exact (command hmasked .cli fun s _ hs => hs.put rfl).bind fun _ =>
      .ret fun _ _ hs => ⟨hanswer, hs⟩

/-- To enable interrupts if they were not leaves the flag as it is. -/
theorem enableIf_false (c : Controller) (hf : f = true → c.enabled core = true) :
    (preserving c core).Leads (Flag c core f) (c.enableIf false) fun _ => Flag c core f := by
  have stay : (preserving c core).Leads (Flag c core f) (.ret ()) fun _ => Flag c core f :=
    .ret fun _ _ hs => hs
  cases c with
  | line => exact command hf (.lineRestore false) fun s _ hs => hs
  | _ => exact stay

/-- To enable interrupts if they were enables them, whatever they are. -/
theorem enableIf_true (c : Controller) (hcore : c.enabled core = true) :
    (preserving c core).Leads (Flag c core f) (c.enableIf true) fun _ => Flag c core true := by
  have allowed (e : Bool) : e = true → c.enabled core = true := fun _ => hcore
  cases c with
  | line => exact command (allowed true) (.lineRestore true) fun s _ hs => hs.put rfl
  | hosted =>
    refine (command (allowed true) (.setMasked false) fun s _ hs => hs.put rfl).bind fun _ => ?_
    exact command (allowed true) .disownCore fun s _ hs => hs
  | arm =>
    refine (instr (allowed f) .readCpsr (· = (Controller.arm.put f core).cpsr)
      fun s _ hs => ⟨hs.cpsr, hs⟩).bind fun cpsr => .given fun hcpsr => ?_
    exact putCpsr core (allowed true) hcpsr
  | aarch64 => exact command (allowed true) .clearDaif fun s _ hs => hs.put rfl
  | x86 => exact command (allowed true) .sti fun s _ hs => hs.put rfl

/-- **Where interrupts are masked, to enable them if they were puts the flag to that.** -/
theorem enableIf (c : Controller) (b : Bool) (hb : b = true → c.enabled core = true) :
    (preserving c core).Leads (Flag c core false) (c.enableIf b) fun _ => Flag c core b := by
  cases b with
  | false => exact enableIf_false core c fun h => absurd h Bool.false_ne_true
  | true => exact enableIf_true core c (hb rfl)

end

/-- **A part that runs with interrupts masked leaves the flag as it was.** -/
theorem masking (hf : f = true → c.enabled core = true) {p : Prog α}
    (h : (preserving c core).Leads (Flag c core false) p fun _ => Flag c core false) :
    (preserving c core).Leads (Flag c core f) (c.masking p) fun _ => Flag c core f := by
  refine (disable core c hf).bind fun b => .given fun hb => h.bind fun a => ?_
  subst hb
  exact (enableIf core c b hf).bind fun _ => .ret fun _ _ hs => hs

end InterruptState

end Atomicity
