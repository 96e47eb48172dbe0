import Atomicity.Proofs.Masked

/-!
# The world of a thread

What a thread can count on that shares a simulated core with others, and masks its interrupts by
owning it. A thread that does not own the core can count on nothing but the mask of its own, and
that the core is handed over tidily (`Tidy`): where nobody owns it, the global lock is free and
nobody is constructing it. From the instant at which a thread has claimed the core until it gives it
up, nobody else does what only the owner may do (`Kept`): write the words that are the owner's,
construct the global lock, claim the core. In return, a thread does none of that without its
interrupts masked (`Regime.Respects`).

`Hold` is how far a thread is in owning the core, as its instructions have it. Between the claim and
the note that the thread is masked, and between that note taken back and the core given up, the
state does not show who the owner is; the instruction that the thread is about to execute does
(`Instr.handsOver`), because nobody else may execute one of those (`Hold.astray`).

A `Regime` says which words are the owner's, and which ones requests are about, so that it serves
both backends that mask interrupts: under the global lock every word is the owner's; on a single
core those are that are compared, and not those that are swapped.
-/

namespace Atomicity

/-- What a memory has of some words. All others are zero. -/
def Memory.restrict (m : Memory) (shown : Width → Addr → Bool) : Memory :=
  ⟨fun w a => if shown w a then m.read w a else 0⟩

namespace Memory

variable {m : Memory} {shown : Width → Addr → Bool} {w : Width} {a : Addr}

theorem read_restrict (h : shown w a = true) : (m.restrict shown).read w a = m.read w a :=
  if_pos h

theorem restrict_eq_self (h : ∀ w a, shown w a = false → m.read w a = 0) :
    m.restrict shown = m := by
  refine ext fun w a => ?_
  cases hshown : shown w a with
  | true => exact read_restrict hshown
  | false =>
    rw [h w a hshown]
    exact if_neg (hshown ▸ Bool.false_ne_true)

theorem restrict_write (h : shown w a = true) (v : Word w) :
    (m.write w a v).restrict shown = (m.restrict shown).write w a v := by
  refine ext fun w' b => ?_
  show (if shown w' b then (m.write w a v).read w' b else 0) =
      ((m.restrict shown).write w a v).read w' b
  by_cases hw : w = w'
  · subst hw
    rw [read_write, read_write]
    by_cases hb : a = b
    · subst hb
      rw [if_pos h, if_pos rfl, if_pos rfl]
    · rw [if_neg hb, if_neg hb]
      rfl
  · rw [read_write_of_width_ne _ _ _ _ hw, read_write_of_width_ne _ _ _ _ hw]
    rfl

theorem restrict_write_of_hidden (h : shown w a = false) (v : Word w) :
    (m.write w a v).restrict shown = m.restrict shown := by
  refine ext fun w' b => ?_
  show (if shown w' b then (m.write w a v).read w' b else 0) = if shown w' b then m.read w' b else 0
  by_cases hw : w = w'
  · subst hw
    rw [read_write]
    by_cases hb : a = b
    · subst hb
      rw [h]
      rfl
    · rw [if_neg hb]
  · rw [read_write_of_width_ne _ _ _ _ hw]

end Memory

/-! ## Owning the core -/

/-- How far a thread is in owning the simulated core. -/
inductive Hold where
  | without
  /-- It owns the core, and is still to note that its interrupts are masked. -/
  | claimed
  | masked
  /-- It has noted that they are not, and is still to give the core up. -/
  | leaving
  /-- It has handed over what it did not hold. -/
  | astray
  deriving DecidableEq

/-- How far a thread is between its claims, with its interrupts enabled or masked. -/
def Hold.ofEnabled : Bool → Hold
  | true => .without
  | false => .masked

/-- How far a thread is after one more instruction. -/
def Hold.note : Executed → Hold → Hold
  | ⟨.claimCore, false⟩, hold => hold
  | ⟨.claimCore, true⟩, .without => .claimed
  | ⟨.claimCore, true⟩, _ => .astray
  | ⟨.setMasked true, _⟩, .claimed => .masked
  | ⟨.setMasked false, _⟩, .masked => .leaving
  | ⟨.setMasked _, _⟩, _ => .astray
  | ⟨.disownCore, _⟩, .leaving => .without
  | ⟨.disownCore, _⟩, _ => .astray
  | _, hold => hold

namespace Instr

variable {i : Instr}

theorem note_of_not_concernsCore (h : i.concernsCore = false) (r : i.Reply) (hold : Hold) :
    hold.note ⟨i, r⟩ = hold := by
  cases i with
  | claimCore => cases h
  | setMasked b => cases h
  | disownCore => cases h
  | _ => cases hold <;> rfl

end Instr

/-! ## Regimes -/

/-- Which words are whose. -/
structure Regime where
  /-- There is a global lock. -/
  guarded : Bool
  /-- The words that requests are about. -/
  shown : Width → Addr → Bool
  /-- The words that only who owns the core writes. -/
  owned : Width → Addr → Bool
  lock_hidden : guarded = true → shown .w64 .globalLock = false
  lock_owned : guarded = true → owned .w64 .globalLock = true

namespace Regime

variable (g : Regime)

/-- Executed by a thread that does not own the core, the instruction does no harm to the one that
does. -/
def Respects (i : Instr) : Prop :=
  ∀ refused s, (i.exec refused s).2.shared.once = s.shared.once ∧
    ∀ w a, g.owned w a = true → (i.exec refused s).2.read w a = s.read w a

variable {g}

theorem respects_of_still {i : Instr} (h : ∀ refused s, (i.exec refused s).2 = s) :
    g.Respects i := by
  intro refused s
  rw [h]
  exact ⟨rfl, fun _ _ _ => rfl⟩

theorem read_write_of_not_owned {w w' : Width} {a b : Addr} (h : g.owned w a = false)
    (hb : g.owned w' b = true) (s : State) (v : Word w) : (s.write w a v).read w' b =
    s.read w' b := by
  by_cases hw : w = w'
  · subst hw
    refine Memory.read_write_of_ne _ _ fun hab => ?_
    subst hab
    rw [h] at hb
    cases hb
  · exact Memory.read_write_of_width_ne _ _ _ _ hw

/-- An instruction that writes a word that is not the owner's. -/
theorem respects_of_writing {i : Instr} {w : Width} {a : Addr} {v : Word w}
    (hw : g.owned w a = false) (h : ∀ refused s, (i.exec refused s).2 = s.write w a v) :
    g.Respects i := by
  intro refused s
  rw [h]
  exact ⟨rfl, fun _ _ hb => read_write_of_not_owned hw hb s v⟩

end Regime

namespace Threads

/-- The global lock, if there is one, is free, and nobody is constructing it. -/
def Free (g : Regime) (shared : Shared) : Prop :=
  g.guarded = true → shared.once ≠ .running ∧ shared.memory.read .w64 .globalLock = 0

/-- Where nobody owns the core, the global lock is free. -/
def Tidy (g : Regime) (shared : Shared) : Prop := shared.coreOwned = false → Free g shared

/-- What only the owner of the core changes is as it was. -/
structure Kept (g : Regime) (s s' : State) : Prop where
  owner : s'.shared.coreOwned = s.shared.coreOwned
  once : s'.shared.once = s.shared.once
  words : ∀ w a, g.owned w a = true → s'.read w a = s.read w a

/-- What other threads may have done just before an instruction. -/
structure Meanwhile (g : Regime) (i : Instr) (s s' : State) : Prop where
  masked : s'.core.masked = s.core.masked
  tidy : Tidy g s.shared → Tidy g s'.shared
  kept : s.core.masked = true ∨ i.handsOver = true → Kept g s s'

/-- The state is as it is to be for a thread that is so far in owning the core. -/
def Agrees : Hold → State → Prop
  | .without, s => s.core.masked = false
  | .claimed, s => s.core.masked = false ∧ s.shared.coreOwned = true
  | .masked, s => s.core.masked = true ∧ s.shared.coreOwned = true
  | .leaving, s => s.core.masked = false ∧ s.shared.coreOwned = true
  | .astray, _ => False

/-- What is watched of a thread. -/
structure Track where
  hold : Hold
  place : Section

/-- What other threads have done at some time, to a thread that is so far. -/
structure Elsewhere (g : Regime) (t : Track) (s s' : State) : Prop where
  masked : s'.core.masked = s.core.masked
  tidy : Tidy g s'.shared
  kept : t.hold ≠ .without → Kept g s s'

structure Lawful (g : Regime) (t : Track) (s : State) : Prop where
  agrees : Agrees t.hold s
  tidy : Tidy g s.shared
  found : g.guarded = true → ∀ found, t.place = .inside found → found <+: [0, 1]

/-- A thread is where it is said to be. If it owns the core, nobody is constructing the global lock,
and its word is that one. -/
structure Stands (g : Regime) (hold : Hold) (place : Section) (word : Word .w64)
    (t : Track) (s : State) :
    Prop where
  track : t = ⟨hold, place⟩
  lawful : Lawful g t s
  lock : hold ≠ .without → g.guarded = true →
    s.shared.once ≠ .running ∧ s.read .w64 .globalLock = word

/-- A thread stands there with its interrupts enabled or masked. What it counts on in the global
lock, if they are enabled, is that whoever comes to own the core will find it free. -/
structure At (g : Regime) (f : Bool) (place : Section) (word : Word .w64) (t : Track) (s : State) :
    Prop where
  stands : Stands g (.ofEnabled f) place word t s
  zero : f = true → g.guarded = true → word = 0

/-- What a thread runs in. -/
def world (g : Regime) : World Track where
  start := ⟨.without, .outside⟩
  note e t := ⟨t.hold.note e, t.place.note e⟩
  env := Meanwhile g
  ready i s := s.core.masked = false → g.Respects i
  lawful := Lawful g
  rest := At g true .outside 0
  view s := s.shared.memory.restrict g.shown
  env_refl _ _ := ⟨rfl, id, fun _ => ⟨rfl, rfl, fun _ _ _ => rfl⟩⟩
  rest_start h := h.stands.track ▸ h
  rest_lawful h := h.stands.lawful

variable {g : Regime} {i : Instr} {f : Bool} {hold : Hold} {place : Section}
  {word : Word .w64} {t : Track} {s s' s'' : State}

theorem Kept.trans (h : Kept g s s') (h' : Kept g s' s'') : Kept g s s'' where
  owner := h'.owner.trans h.owner
  once := h'.once.trans h.once
  words w a ha := (h'.words w a ha).trans (h.words w a ha)

theorem Agrees.owned (h : Agrees hold s) (hhold : hold ≠ .without) : s.shared.coreOwned = true := by
  cases hold with
  | without => exact absurd rfl hhold
  | claimed => exact h.2
  | masked => exact h.2
  | leaving => exact h.2
  | astray => exact h.elim

/-- A thread whose interrupts are masked owns the core. -/
theorem Agrees.holds (h : Agrees hold s) (hmasked : s.core.masked = true) : hold ≠ .without := by
  intro hwithout
  subst hwithout
  have hfree : s.core.masked = false := h
  rw [hmasked] at hfree
  cases hfree

theorem Agrees.congr (h : Agrees hold s) (hmasked : s'.core.masked = s.core.masked)
    (howner : hold ≠ .without → s'.shared.coreOwned = s.shared.coreOwned) : Agrees hold s' := by
  cases hold with
  | without => exact hmasked.trans h
  | claimed => exact ⟨hmasked.trans h.1, (howner Hold.noConfusion).trans h.2⟩
  | masked => exact ⟨hmasked.trans h.1, (howner Hold.noConfusion).trans h.2⟩
  | leaving => exact ⟨hmasked.trans h.1, (howner Hold.noConfusion).trans h.2⟩
  | astray => exact h

/-- Whatever others do, a thread is where it was, if they leave it what is its own while it owns the
core. -/
theorem Lawful.disturbed (h : Lawful g t s) (he : Elsewhere g t s s') : Lawful g t s' where
  agrees := h.agrees.congr he.masked fun hhold => (he.kept hhold).owner
  tidy := he.tidy
  found := h.found

theorem Stands.disturbed (h : Stands g hold place word t s) (he : Meanwhile g i s s')
    (hi : hold = .without ∨ hold = .masked ∨ i.handsOver = true) :
    Stands g hold place word t s' := by
  obtain ⟨rfl, hlawful, hlock⟩ := h
  have hkept : hold ≠ .without → Kept g s s' := by
    intro hhold
    apply he.kept
    rcases hi with hi | hi | hi
    · exact absurd hi hhold
    · subst hi
      exact .inl hlawful.agrees.1
    · exact .inr hi
  refine ⟨rfl, hlawful.disturbed ⟨he.masked, he.tidy hlawful.tidy, hkept⟩, fun hhold hg => ?_⟩
  rw [(hkept hhold).once, (hkept hhold).words _ _ (g.lock_owned hg)]
  exact hlock hhold hg

/-- The owner of the core counts on nothing but what it has. -/
theorem At.owner (h : Stands g .masked place word t s) : At g false place word t s :=
  ⟨h, fun hf => absurd hf Bool.false_ne_true⟩

theorem At.disturbed (h : At g f place word t s) (he : Meanwhile g i s s') :
    At g f place word t s' := by
  refine ⟨h.stands.disturbed he ?_, h.zero⟩
  cases f with
  | true => exact .inl rfl
  | false => exact .inr (.inl rfl)

theorem At.lawful (h : At g f place word t s) : Lawful g t s := h.stands.lawful

theorem Stands.agrees (h : Stands g hold place word t s) : Agrees hold s := by
  obtain ⟨rfl, hlawful, -⟩ := h
  exact hlawful.agrees

theorem At.masked (h : At g f place word t s) : s.core.masked = !f := by
  have hagrees := h.stands.agrees
  cases f with
  | true => exact hagrees
  | false => exact hagrees.1

theorem At.ready (h : At g f place word t s) (hi : f = true → g.Respects i) :
    (world g).ready i s := by
  intro hfree
  cases f with
  | true => exact hi rfl
  | false =>
    have hmasked : s.core.masked = true := h.masked
    rw [hfree] at hmasked
    cases hmasked

/-- Where a thread stands after an instruction that has nothing to do with the core and leaves the
global lock as it was. -/
theorem At.exec (h : At g f place word t s) (refused : Bool) (hcore : i.concernsCore = false)
    (hplace : Section.unnoted i = true)
    (hlock : g.guarded = true → (i.exec refused s).2.shared.once = s.shared.once ∧
      (i.exec refused s).2.read .w64 .globalLock = s.read .w64 .globalLock) :
    At g f place word ((world g).note ⟨i, (i.exec refused s).1⟩ t) (i.exec refused s).2 := by
  have hnote : (world g).note ⟨i, (i.exec refused s).1⟩ t = t := by
    show (⟨_, _⟩ : Track) = t
    rw [Instr.note_of_not_concernsCore hcore, Section.note_of_unnoted hplace]
  obtain ⟨hmasked, howner⟩ := i.owner_of_not_concernsCore hcore refused s
  have hlawful : Lawful g t (i.exec refused s).2 := by
    refine ⟨h.lawful.agrees.congr hmasked fun _ => howner, fun hfree hg => ?_, h.lawful.found⟩
    rw [howner] at hfree
    obtain ⟨honce, hword⟩ := h.lawful.tidy hfree hg
    exact ⟨(hlock hg).1 ▸ honce, (hlock hg).2.trans hword⟩
  rw [hnote]
  refine ⟨⟨h.stands.track, hlawful, fun hhold hg => ?_⟩, h.zero⟩
  rw [(hlock hg).1, (hlock hg).2]
  exact h.stands.lock hhold hg

end Threads

end Atomicity
