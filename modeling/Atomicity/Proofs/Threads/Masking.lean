import Atomicity.Proofs.Threads.World

/-!
# Masking interrupts on a simulated core

Rules for a thread that stands somewhere on a core that it shares, in any regime: for instructions
that leave the state alone (`steady`), for plain accesses (`readable`, `writable`), and for those by
which it comes to own the core.

**To disable interrupts is to come to own the core, and to enable them is to give it up** (`owns`):
a thread waits in between for whoever owns it, and finds it tidy. With interrupts masked, the words
that are the owner's are the thread's alone (`sole`), and so is the global lock, if there is one
(`locks`).
-/

namespace Atomicity.Threads

open Prog

variable {g : Regime} {i : Instr} {f : Bool} {place : Section} {word : Word .w64}
  {w : Width} {a : Addr}

/-! ## Instructions -/

theorem steady : (world g).Steady (At g f place word) where
  stable h he := h.disturbed he
  still hi h t s refused hs := by
    obtain ⟨hplace, hcore⟩ := Instr.unwatched_iff.mp hi
    have hs' := hs.exec refused hcore hplace fun _ => by
      rw [h]
      exact ⟨rfl, rfl⟩
    exact ⟨hs.ready fun _ => Regime.respects_of_still h, hs'.lawful, hs'⟩

/-- A thread writes a word that is not the owner's, or with its interrupts masked. -/
theorem executes_writing {v : Word w} (ha : a ≠ .globalLock) (hf : f = true → g.owned w a = false)
    (hi : i.unwatched = true) (h : ∀ refused s, (i.exec refused s).2 = s.write w a v) :
    (world g).Executes (At g f place word) i := by
  intro t s refused hs
  obtain ⟨hplace, hcore⟩ := Instr.unwatched_iff.mp hi
  have hs' := hs.exec refused hcore hplace fun _ => by
    rw [h]
    exact ⟨rfl, Memory.read_write_of_ne _ _ ha⟩
  exact ⟨hs.ready fun hfree => Regime.respects_of_writing (hf hfree) h, hs'.lawful, hs'⟩

section

variable (ha : a ≠ .globalLock) (hf : f = true → g.owned w a = false) (hshown : g.shown w a = true)
  (hhidden : g.shown w a = false) (isa : SwapIsa) (v : Word w)

include ha hshown in
theorem readable : (world g).Readable (At g f place word) w a where
  toSteady := steady
  apart := ha
  read_view _ := Memory.read_restrict hshown

include ha hf hshown in
theorem writable : (world g).Writable (At g f place word) w a where
  toReadable := readable ha hshown
  write_view _ v := Memory.restrict_write hshown v
  writes hi h := executes_writing ha hf hi h

include ha hshown in
/-- With interrupts masked, nobody else writes the words that are the owner's. -/
theorem sole (howned : g.owned w a = true) : (world g).Sole (At g false place word) w a where
  toWritable := writable ha (fun h => absurd h Bool.false_ne_true) hshown
  kept hs he := (he.kept (.inl hs.masked)).words _ _ howned

/-! A word that requests are not about may be accessed, and nobody is told. -/

include ha in
theorem read_silent : (world g).Silent (At g f place word) (perform (.read w a))
    fun _ => At g f place word :=
  steady.silent (Instr.unwatched_read w ha) fun _ _ => rfl

include ha hf hhidden

theorem write_silent : (world g).Silent (At g f place word) (perform (.write w a v))
    fun _ => At g f place word :=
  (executes_writing ha hf rfl fun _ _ => rfl).silent steady.stable fun _ _ =>
    Memory.restrict_write_of_hidden hhidden v

theorem swap_silent : (world g).Silent (At g f place word) (perform (.swap isa w a v))
    fun _ => At g f place word :=
  (executes_writing ha hf rfl fun _ _ => rfl).silent steady.stable fun _ _ =>
    Memory.restrict_write_of_hidden hhidden v

end

/-! ## The controller -/

section

variable {t : Track} {s s' : State} {hold hold' : Hold}

/-- A thread is as far in owning the core as its last instruction has brought it. It comes to own it
while nobody does, and gives it up with the global lock free. -/
theorem Stands.hand (h : Stands g hold place word t s) (r : i.Reply)
    (hnote : hold.note ⟨i, r⟩ = hold')
    (hplace : Section.unnoted i = true) (hagrees : Agrees hold' s')
    (htidy : hold ≠ .without ∨ s.shared.coreOwned = false)
    (hzero : hold = .without ∨ hold' = .without → g.guarded = true → word = 0)
    (hmem : s'.shared.memory = s.shared.memory) (honce : s'.shared.once = s.shared.once) :
    Stands g hold' place word ((world g).note ⟨i, r⟩ t) s' := by
  obtain ⟨rfl, hlawful, hlock⟩ := h
  have hword : g.guarded = true → s'.shared.once ≠ .running ∧ s'.read .w64 .globalLock = word := by
    intro hg
    rw [State.read, hmem, honce]
    by_cases hhold : hold = .without
    · rw [hzero (.inl hhold) hg]
      exact hlawful.tidy (htidy.resolve_left fun hne => hne hhold) hg
    · exact hlock hhold hg
  have htrack : (world g).note ⟨i, r⟩ ⟨hold, place⟩ = ⟨hold', place⟩ := by
    show (⟨_, _⟩ : Track) = _
    rw [hnote, Section.note_of_unnoted hplace]
  rw [htrack]
  refine ⟨rfl, ⟨hagrees, fun hunowned hg => ?_, hlawful.found⟩, fun _ => hword⟩
  have hwithout : hold' = .without := Decidable.not_not.mp fun hne => by
    rw [hagrees.owned hne] at hunowned
    cases hunowned
  rw [← hzero (.inr hwithout) hg]
  exact hword hg

theorem respects_claimCore : g.Respects .claimCore := by
  intro refused s
  by_cases h : s.shared.coreOwned = false ∧ refused = false
  · rw [show Instr.claimCore.exec refused s = (true, _) from if_pos h]
    exact ⟨rfl, fun _ _ _ => rfl⟩
  · rw [show Instr.claimCore.exec refused s = (false, s) from if_neg h]
    exact ⟨rfl, fun _ _ _ => rfl⟩

/-- The core is claimed if nobody owns it, and then the global lock is free. -/
theorem claimCore : (world g).Silent (At g true place word) (perform .claimCore) fun ok t s =>
    match ok with
    | true => Stands g .claimed place word t s
    | false => At g true place word t s := by
  refine World.Silent.instr fun t s s' refused hs he => ?_
  obtain ⟨hs, hzero⟩ := hs.disturbed he
  by_cases h : s'.shared.coreOwned = false ∧ refused = false
  · have hexec : Instr.claimCore.exec refused s' =
        (true, { s' with shared := { s'.shared with coreOwned := true } }) := if_pos h
    have hs' : Stands g .claimed place word ((world g).note ⟨.claimCore, true⟩ t)
        { s' with shared := { s'.shared with coreOwned := true } } :=
      hs.hand (i := .claimCore) true rfl rfl ⟨hs.agrees, rfl⟩ (.inr h.1)
        (fun _ => hzero rfl) rfl rfl
    rw [hexec]
    exact ⟨fun _ => respects_claimCore, hs'.lawful, rfl, hs'⟩
  · have hexec : Instr.claimCore.exec refused s' = (false, s') := if_neg h
    have hnote : (world g).note ⟨.claimCore, false⟩ t = t := by
      rw [hs.track]
      rfl
    rw [hexec, hnote]
    exact ⟨fun _ => respects_claimCore, hs.lawful, rfl, hs, hzero⟩

/-- An instruction of the owner, which changes neither memory nor the global lock. -/
theorem hand_instr (hi : i.handsOver = true) (hnote : ∀ r, hold.note ⟨i, r⟩ = hold')
    (hhold : hold ≠ .without) (hplace : Section.unnoted i = true)
    (hshared : ∀ refused s, (i.exec refused s).2.shared.memory = s.shared.memory ∧
      (i.exec refused s).2.shared.once = s.shared.once)
    (hagrees : ∀ refused s, Agrees hold s → Agrees hold' (i.exec refused s).2)
    (hzero : hold' = .without → g.guarded = true → word = 0) :
    (world g).Silent (Stands g hold place word) (perform i) fun _ => Stands g hold' place word := by
  refine World.Silent.instr fun t s s' refused hs he => ?_
  replace hs := hs.disturbed he (.inr (.inr hi))
  obtain ⟨hmem, honce⟩ := hshared refused s'
  have hs' :
      Stands g hold' place word ((world g).note ⟨i, (i.exec refused s').1⟩ t)
        (i.exec refused s').2 :=
    hs.hand _ (hnote _) hplace (hagrees refused s' hs.agrees) (.inl hhold)
      (fun h => hzero (h.resolve_left hhold)) hmem honce
  refine ⟨fun _ refused s => ?_, hs'.lawful, congrArg (Memory.restrict · g.shown) hmem, hs'⟩
  obtain ⟨hmem, honce⟩ := hshared refused s
  exact ⟨honce, fun w a _ => congrArg (fun m => Memory.read m w a) hmem⟩

end

theorem setMasked_true : (world g).Silent (Stands g .claimed place word) (perform (.setMasked true))
    fun _ => Stands g .masked place word :=
  hand_instr rfl (fun _ => rfl) Hold.noConfusion rfl (fun _ _ => ⟨rfl, rfl⟩)
    (fun _ _ h => ⟨rfl, h.2⟩) Hold.noConfusion

theorem setMasked_false :
    (world g).Silent (Stands g .masked place word) (perform (.setMasked false))
      fun _ => Stands g .leaving place word :=
  hand_instr rfl (fun _ => rfl) Hold.noConfusion rfl (fun _ _ => ⟨rfl, rfl⟩)
    (fun _ _ h => ⟨rfl, h.2⟩) Hold.noConfusion

theorem disownCore (hzero : g.guarded = true → word = 0) :
    (world g).Silent (Stands g .leaving place word) (perform .disownCore)
      fun _ => Stands g .without place word :=
  hand_instr rfl (fun _ => rfl) Hold.noConfusion rfl (fun _ _ => ⟨rfl, rfl⟩) (fun _ _ h => h.1)
    fun _ => hzero

/-- A thread comes to own the core, and gives it up, between two instructions each. -/
theorem owns (g : Regime) :
    (world g).Owns g.guarded (At g) (Stands g .claimed) (Stands g .leaving) where
  steady _ _ _ := steady
  masked h := h.masked
  claimCore _ _ := claimCore
  mask _ _ := setMasked_true.mono fun _ _ _ h => .owner h
  unmask _ _ _ γ T x t s hs := setMasked_false γ T x t s hs.stands
  disownCore _ _ hzero := (disownCore hzero).mono fun _ _ _ h => ⟨h, fun _ => hzero⟩

/-! ## The global lock -/

section

variable {t : Track} {s s' : State} {found : List (Word .w64)}

/-- The global lock is being constructed by a thread that owns the core. -/
def Building (g : Regime) (place : Section) (t : Track) (s : State) : Prop :=
  s.shared.once = .running ∧ t = ⟨.masked, place⟩ ∧ Lawful g t s

/-- A thread enters a section, or leaves it. -/
theorem At.relocate {place' : Section} (h : At g f place word t s)
    (hplace : ∀ found, place' = .inside found → found <+: [0, 1]) :
    At g f place' word ⟨t.hold, place'⟩ s := by
  obtain ⟨⟨rfl, hlawful, hlock⟩, hzero⟩ := h
  exact ⟨⟨rfl, ⟨hlawful.agrees, hlawful.tidy, fun _ => hplace⟩, hlock⟩, hzero⟩

/-- The owner of the core has changed the word of the global lock, or has found it. -/
theorem Lawful.of_owner {place' : Section} (h : Lawful g ⟨.masked, place⟩ s)
    (hcore : s'.core = s.core) (howner : s'.shared.coreOwned = s.shared.coreOwned)
    (hplace : ∀ found, place' = .inside found → found <+: [0, 1]) :
    Lawful g ⟨.masked, place'⟩ s' := by
  obtain ⟨hmasked, howned⟩ := h.agrees
  refine ⟨⟨?_, howner.trans howned⟩, fun hunowned => ?_, fun _ => hplace⟩
  · rw [hcore]
    exact hmasked
  · rw [howner, howned] at hunowned
    cases hunowned

/-- The owner of the core may do anything. -/
theorem Lawful.ready (h : Lawful g ⟨.masked, place⟩ s) : (world g).ready i s := by
  intro hfree
  rw [h.agrees.1] at hfree
  cases hfree

theorem enterLocked : (world g).Silent (At g f .outside 0) (perform .enterLocked)
    fun _ => At g f (.inside []) 0 := by
  refine World.Silent.instr fun t s s' refused hs he => ?_
  replace hs := hs.disturbed he
  have hs' : At g f (.inside []) 0 ⟨t.hold, .inside []⟩ s' := hs.relocate fun found h => by
    cases h
    exact List.nil_prefix
  exact ⟨hs.ready fun _ => Regime.respects_of_still fun _ _ => rfl, hs'.lawful, rfl, hs'⟩

theorem leaveLocked : (world g).Silent (At g f (.inside found) 0) (perform .leaveLocked)
    fun _ => At g f .outside 0 := by
  refine World.Silent.instr fun t s s' refused hs he => ?_
  replace hs := hs.disturbed he
  have hs' : At g f .outside 0 ⟨t.hold, .outside⟩ s' := hs.relocate fun found h => by cases h
  exact ⟨hs.ready fun _ => Regime.respects_of_still fun _ _ => rfl, hs'.lawful, rfl, hs'⟩

variable (hg : g.guarded = true)

include hg

/-- The owner of the core finds the lock constructed, or that its construction has not begun. -/
theorem startConstruction : (world g).Silent (At g false place 0) (perform .startConstruction)
    fun r t s => r ≠ .running ∧ (r = .complete → At g false place 0 t s) ∧
      (r = .incomplete → Building g place t s) := by
  refine World.Silent.instr fun t s s' refused hs he => ?_
  obtain ⟨rfl, hlawful, hlock⟩ : Stands g .masked place 0 t s' := (hs.disturbed he).stands
  have hnote : ∀ r, (world g).note ⟨.startConstruction, r⟩ ⟨.masked, place⟩ =
      ⟨.masked, place⟩ := fun r => rfl
  cases honce : s'.shared.once with
  | running => exact absurd honce (hlock Hold.noConfusion hg).1
  | complete =>
    have hexec : Instr.startConstruction.exec refused s' = (.complete, s') := by
      simp only [Instr.exec, honce]
    rw [hexec, hnote]
    exact ⟨hlawful.ready, hlawful, rfl, OnceStatus.noConfusion, fun _ =>
      .owner ⟨rfl, hlawful, hlock⟩, OnceStatus.noConfusion⟩
  | incomplete =>
    have hexec : Instr.startConstruction.exec refused s' =
        (.incomplete, { s' with shared := { s'.shared with once := .running } }) := by
      simp only [Instr.exec, honce]
    have hlawful' :
        Lawful g ⟨.masked, place⟩ { s' with shared := { s'.shared with once := .running } } :=
      hlawful.of_owner rfl rfl (hlawful.found hg)
    rw [hexec, hnote]
    exact ⟨hlawful.ready, hlawful', rfl, OnceStatus.noConfusion, OnceStatus.noConfusion,
      fun _ => ⟨rfl, rfl, hlawful'⟩⟩

theorem endConstruction : (world g).Silent (Building g place) (perform .endConstruction)
    fun _ => At g false place 0 := by
  refine World.Silent.instr fun t s s' refused hs he => ?_
  obtain ⟨-, rfl, hlawful⟩ := hs
  have hkept : Kept g s s' := he.kept (.inl hlawful.agrees.1)
  replace hlawful : Lawful g ⟨.masked, place⟩ s' :=
    hlawful.disturbed ⟨he.masked, he.tidy hlawful.tidy, fun _ => hkept⟩
  have hlawful' : Lawful g ⟨.masked, place⟩ (Instr.endConstruction.exec refused s').2 :=
    hlawful.of_owner rfl rfl (hlawful.found hg)
  have hword : (Instr.endConstruction.exec refused s').2.read .w64 .globalLock = 0 :=
    State.read_write_self _ _ _ _
  refine ⟨hlawful.ready, hlawful', Memory.restrict_write_of_hidden (g.lock_hidden hg) _, ?_⟩
  exact .owner ⟨rfl, hlawful', fun _ _ => ⟨OnceStatus.noConfusion, hword⟩⟩

theorem read_lock (hfound : found ++ [word] <+: [0, 1]) :
    (world g).Silent (At g false (.inside found) word)
      (perform (.read .w64 .globalLock)) fun r t s =>
      r = word ∧ At g false (.inside (found ++ [word])) word t s := by
  refine World.Silent.instr fun t s s' refused hs he => ?_
  obtain ⟨rfl, hlawful, hlock⟩ : Stands g .masked (.inside found) word t s' :=
    (hs.disturbed he).stands
  have hword : s'.read .w64 .globalLock = word := (hlock Hold.noConfusion hg).2
  have hlawful' : Lawful g ⟨.masked, .inside (found ++ [word])⟩ s' :=
    hlawful.of_owner rfl rfl fun l h => by
      cases h
      exact hfound
  have hnote :
      (world g).note ⟨.read .w64 .globalLock, ((Instr.read .w64 .globalLock).exec refused s').1⟩
        ⟨.masked, .inside found⟩ = ⟨.masked, .inside (found ++ [word])⟩ :=
    congrArg (fun v => (⟨.masked, .inside (found ++ [v])⟩ : Track)) hword
  rw [hnote]
  exact ⟨hlawful.ready, hlawful', rfl, hword, .owner ⟨rfl, hlawful', hlock⟩⟩

theorem write_lock (v : Word .w64) :
    (world g).Silent (At g false (.inside found) word) (perform (.write .w64 .globalLock v))
      fun _ => At g false (.inside found) v := by
  refine World.Silent.instr fun t s s' refused hs he => ?_
  obtain ⟨rfl, hlawful, hlock⟩ : Stands g .masked (.inside found) word t s' :=
    (hs.disturbed he).stands
  have hlawful' : Lawful g ⟨.masked, .inside found⟩ (s'.write .w64 .globalLock v) :=
    hlawful.of_owner rfl rfl (hlawful.found hg)
  have hlock' : (s'.write .w64 .globalLock v).shared.once ≠ .running ∧
      (s'.write .w64 .globalLock v).read .w64 .globalLock = v :=
    ⟨(hlock Hold.noConfusion hg).1, State.read_write_self _ _ _ _⟩
  exact ⟨hlawful.ready, hlawful', Memory.restrict_write_of_hidden (g.lock_hidden hg) v,
    .owner ⟨rfl, hlawful', fun _ _ => hlock'⟩⟩

/-- With interrupts masked, a thread is alone with the global lock. -/
theorem locks : (world g).Locks .hosted (At g) (Building g) where
  toMasks := hg ▸ (owns g).masks
  enterLocked _ := enterLocked
  leaveLocked _ _ := leaveLocked
  startConstruction _ := startConstruction hg
  endConstruction _ := endConstruction hg
  read_lock _ _ hfound := read_lock hg hfound
  write_lock _ _ v := write_lock hg v

end

end Atomicity.Threads
