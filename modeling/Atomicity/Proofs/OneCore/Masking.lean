import Atomicity.Proofs.OneCore.World

/-!
# Masking interrupts on one core

Rules for a context that stands somewhere on one core: for instructions that only concern its
interrupts (`control_instr`), for words that are not the global lock's, which it may read and write
(`writable`) and which are its own while interrupts are masked (`sole`), and for the programs of the
controllers.

**To disable interrupts answers whether they were enabled, and leaves them masked** (`disable`), and
**to enable them if they were leaves them as they were** (`enableIf`), on all controllers and
wherever handlers come and go. So every controller masks interrupts on one core (`masks`). Nothing
here says how long a thread waits for the simulated core.
-/

namespace Atomicity.OneCore

open Prog

variable {α : Type} {c : Controller} {guarded flag f e : Bool} {place place' : Section}
  {word word' : Word .w64}

/-! ## Instructions -/

theorem note_of_unnoted {i : Instr} (h : Section.unnoted i = true) (r : i.Reply) (at' : Section) :
    (world c guarded flag).note ⟨i, r⟩ at' = at' :=
  Section.note_of_unnoted h r at'

/-- An instruction that changes the interrupt flag at most, and does not concern the simulated
core. -/
theorem control_instr {i : Instr} (hi : Section.unnoted i = true) (hc : c ≠ .hosted)
    (hw : f = false → e = true → guarded = true → word = 0)
    (h : ∀ s refused, c.enabled (i.exec refused s).2.core = e ∧
      (i.exec refused s).2.shared.memory = s.shared.memory ∧
      (i.exec refused s).2.shared.once = s.shared.once) :
    (world c guarded flag).Silent (Stands c guarded f place word) (perform i)
      fun _ => Stands c guarded e place word := by
  refine World.Silent.instr fun at' s s' refused hs he => ?_
  replace hs := hs.disturbed he
  obtain ⟨hf, hmem, honce⟩ := h s' refused
  have hs' := hs.control hf (fun hosted => absurd hosted hc) hmem honce hw
  rw [note_of_unnoted hi]
  exact ⟨hs.ready i, hs'.lawful, view_of_memory hmem, hs'⟩

/-- An instruction that masks interrupts, and does not concern the simulated core. -/
theorem mask_instr {i : Instr} (hi : Section.unnoted i = true) (hc : c ≠ .hosted)
    (h : ∀ s refused, c.enabled (i.exec refused s).2.core = false ∧
      (i.exec refused s).2.shared.memory = s.shared.memory ∧
      (i.exec refused s).2.shared.once = s.shared.once) :
    (world c guarded flag).Silent (Stands c guarded f place word) (perform i)
      fun _ => Stands c guarded false place word :=
  control_instr hi hc (fun _ he => absurd he Bool.false_ne_true) h

theorem steady : (world c guarded flag).Steady (Stands c guarded f place word) where
  stable h he := h.disturbed he
  still hi h at' s refused hs := by
    rw [note_of_unnoted (Instr.unwatched_iff.mp hi).1, h]
    exact ⟨hs.ready _, hs.lawful, hs⟩

theorem writable (w : Width) {a : Addr} (ha : a ≠ .globalLock) :
    (world c guarded flag).Writable (Stands c guarded f place word) w a where
  toSteady := steady
  apart := ha
  read_view s := read_view s w ha
  write_view _ v := view_write ha v
  writes hi h at' s refused hs := by
    rw [note_of_unnoted (Instr.unwatched_iff.mp hi).1, h]
    exact ⟨hs.ready _, (hs.write ha _).lawful, hs.write ha _⟩

/-- With interrupts masked, nobody else writes a word that is not the global lock's. -/
theorem sole (guarded flag : Bool) (place : Section) (word : Word .w64) (w : Width) {a : Addr}
    (ha : a ≠ .globalLock) :
    (world c guarded flag).Sole (Stands c guarded false place word) w a where
  toWritable := writable w ha
  kept hs he := by
    obtain rfl := he.resolve_right fun h => by simp [hs.flag] at h
    rfl

/-! ## Controllers -/

section

variable {at' : Section} {s : State}

/-- The simulated core is owned by a context that is not masked, which is so only while it is being
handed over. -/
def Owning (guarded : Bool) (place : Section) (word : Word .w64) (at' : Section) (s : State) :
    Prop :=
  s.shared.coreOwned = true ∧ Stands .hosted guarded true place word at'
    { s with shared := { s.shared with coreOwned := false } }

theorem claimCore : (world .hosted guarded flag).Silent (Stands .hosted guarded true place word)
    (perform .claimCore) fun ok at' s => match ok with
      | true => Owning guarded place word at' s
      | false => Stands .hosted guarded true place word at' s := by
  refine World.Silent.instr fun at' s s' refused hs he => ?_
  replace hs := hs.disturbed he
  rw [note_of_unnoted rfl]
  by_cases h : s'.shared.coreOwned = false ∧ refused = false
  · have hexec : Instr.claimCore.exec refused s' =
        (true, { s' with shared := { s'.shared with coreOwned := true } }) := if_pos h
    rw [hexec]
    refine ⟨hs.ready _, fun hg => ?_, rfl, rfl, ?_⟩
    · exact ⟨(hs.lawful hg).masked, (hs.lawful hg).outside, (hs.lawful hg).inside⟩
    · have hsame : ({ s' with shared := { s'.shared with coreOwned := false } } : State) = s' := by
        rw [← h.1]
      simpa only [hsame] using hs
  · have hexec : Instr.claimCore.exec refused s' = (false, s') := if_neg h
    rw [hexec]
    exact ⟨hs.ready _, hs.lawful, rfl, hs⟩

theorem setMasked_true : (world .hosted guarded flag).Silent (Owning guarded place word)
    (perform (.setMasked true)) fun _ => Stands .hosted guarded false place word := by
  refine World.Silent.instr fun at' s s' refused hs he => ?_
  obtain rfl : s' = s := he.resolve_right fun h => absurd h.1 Bool.false_ne_true
  obtain ⟨howned, hs⟩ := hs
  have hs' : Stands .hosted guarded false place word at'
      { s' with core := { s'.core with masked := true } } :=
    hs.control rfl (fun _ => howned) rfl rfl fun h => absurd h.symm Bool.false_ne_true
  rw [note_of_unnoted rfl]
  exact ⟨fun h => absurd h Bool.false_ne_true, hs'.lawful, rfl, hs'⟩

theorem setMasked_false (hw : guarded = true → word = 0) :
    (world .hosted guarded flag).Silent (Stands .hosted guarded false place word)
      (perform (.setMasked false)) fun _ => Owning guarded place word := by
  refine World.Silent.instr fun at' s s' refused hs he => ?_
  replace hs := hs.disturbed he
  have hmasked : s'.core.masked = true := by simpa [Controller.enabled] using hs.flag
  have howned : s'.shared.coreOwned = true := (hs.sound rfl).trans hmasked
  have hs' : Stands .hosted guarded true place word at'
      { core := { s'.core with masked := false }
        shared := { s'.shared with coreOwned := false } } :=
    hs.control rfl (fun _ => rfl) rfl rfl fun _ _ => hw
  rw [note_of_unnoted rfl]
  refine ⟨fun h => absurd h Bool.false_ne_true, fun hg => ?_, rfl, howned, hs'⟩
  exact ⟨(hs'.lawful hg).masked, (hs'.lawful hg).outside, (hs'.lawful hg).inside⟩

theorem disownCore : (world .hosted guarded flag).Silent (Owning guarded place word)
    (perform .disownCore) fun _ => Stands .hosted guarded true place word := by
  refine World.Silent.instr fun at' s s' refused hs he => ?_
  obtain rfl : s' = s := he.resolve_right fun h => absurd h.1 Bool.false_ne_true
  rw [note_of_unnoted rfl]
  exact ⟨fun h => absurd h Bool.false_ne_true, hs.2.lawful, rfl, hs.2⟩

end

/-- A context comes to own the simulated core, and gives it up, between two instructions each. -/
theorem owns (guarded flag : Bool) :
    (world .hosted guarded flag).Owns guarded (Stands .hosted guarded)
      (Owning guarded) (Owning guarded) where
  steady _ _ _ := steady
  masked hs := by
    rw [← hs.flag]
    exact (Bool.not_not _).symm
  claimCore _ _ := claimCore
  mask _ _ := setMasked_true
  unmask _ _ hw := setMasked_false hw
  disownCore _ _ _ := disownCore

/-- The flag is the mask bit of the status register. -/
theorem enabled_arm (s : State) : Controller.arm.enabled s.core = !s.core.cpsr.getLsbD 7 :=
  Core.and_maskBit s.core.cpsr

/-- A write of the control byte sets the mask bit to that of the word written. -/
theorem maskBit_writeCpsr (s : State) (v : BitVec 32) (refused : Bool) :
    ((Instr.writeCpsr v).exec refused s).2.core.cpsr.getLsbD 7 = v.getLsbD 7 := by
  simp [Instr.exec]

/-- **To disable interrupts answers whether they were enabled, and leaves them masked.** -/
theorem disable : (world c guarded flag).Silent (Stands c guarded f place word) c.disable
    fun b at' s => b = f ∧ Stands c guarded false place word at' s := by
  cases c with
  | line =>
    refine World.Silent.instr fun at' s s' refused hs he => ?_
    replace hs := hs.disturbed he
    have hs' : Stands .line guarded false place word at'
        { s' with core := { s'.core with lineEnabled := false } } :=
      hs.control rfl (fun h => absurd h (by decide)) rfl rfl fun _ h => absurd h Bool.false_ne_true
    rw [note_of_unnoted rfl]
    exact ⟨hs.ready _, hs'.lawful, rfl, hs.flag, hs'⟩
  | hosted => exact (owns guarded flag).disable
  | arm =>
    refine World.Silent.bind (steady.query (i := .readCpsr) rfl (fun _ _ => rfl)
      (P := fun v => (v &&& Core.maskBit == 0) = f) fun _ _ _ hs => hs.flag)
        fun cpsr => World.Silent.given fun hcpsr => ?_
    refine World.Silent.bind (mask_instr rfl (by decide) fun s refused => ⟨?_, rfl, rfl⟩)
      fun _ => ?_
    · rw [enabled_arm, maskBit_writeCpsr]
      simp [Core.maskBit]
    · rw [← hcpsr]
      exact World.Silent.ret
  | aarch64 =>
    refine World.Silent.bind (steady.query (i := .readDaif) rfl (fun _ _ => rfl) (P := (· = !f))
      fun _ s _ hs => ?_) fun masked => World.Silent.given fun hmasked => ?_
    · rw [← hs.flag]
      exact (Bool.not_not _).symm
    · refine World.Silent.bind (mask_instr rfl (by decide) fun s _ => ⟨rfl, rfl, rfl⟩) fun _ => ?_
      rw [hmasked, Bool.not_not]
      exact World.Silent.ret
  | x86 =>
    refine World.Silent.bind (steady.query (i := .readFlagIF) rfl (fun _ _ => rfl) (P := (· = f))
      fun _ _ _ hs => hs.flag) fun enabled => World.Silent.given fun henabled => ?_
    refine World.Silent.bind (mask_instr rfl (by decide) fun s _ => ⟨rfl, rfl, rfl⟩) fun _ => ?_
    rw [henabled]
    exact World.Silent.ret

/-- **To enable interrupts if they were leaves them as they were.** The global lock has to be free
by then if they were. -/
theorem enableIf (b : Bool) (hw : b = true → guarded = true → word = 0) :
    (world c guarded flag).Silent (Stands c guarded false place word) (c.enableIf b)
      fun _ => Stands c guarded b place word := by
  have stay : (world c guarded flag).Silent (Stands c guarded false place word) (.ret ())
      fun _ => Stands c guarded false place word :=
    World.Silent.skip
  cases b with
  | false =>
    cases c with
    | line => exact steady.silent rfl fun _ _ => rfl
    | hosted => exact stay
    | arm => exact stay
    | aarch64 => exact stay
    | x86 => exact stay
  | true =>
    cases c with
    | line => exact control_instr rfl (by decide) (fun _ => hw) fun s _ => ⟨rfl, rfl, rfl⟩
    | hosted => exact (owns guarded flag).enableIf true hw
    | arm =>
      refine (steady.silent rfl fun _ _ => rfl).bind fun cpsr => ?_
      refine control_instr rfl (by decide) (fun _ => hw) fun s refused => ⟨?_, rfl, rfl⟩
      rw [enabled_arm, maskBit_writeCpsr]
      simp [Core.maskBit]
    | aarch64 => exact control_instr rfl (by decide) (fun _ => hw) fun s _ => ⟨rfl, rfl, rfl⟩
    | x86 => exact control_instr rfl (by decide) (fun _ => hw) fun s _ => ⟨rfl, rfl, rfl⟩

/-- Every controller masks interrupts on one core. -/
theorem masks (c : Controller) (guarded flag : Bool) :
    (world c guarded flag).Masks c guarded (Stands c guarded) where
  steady _ _ _ := steady
  disable _ _ _ := disable
  enableIf _ _ b hw := enableIf b hw

end Atomicity.OneCore
