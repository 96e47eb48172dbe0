import Atomicity.Proofs.OneCore.Masking

/-!
# The emulating backends on one core

**All primitive operations of a single core are indivisible on one core** (`provides_singleCore`),
where handlers come and go, and so are those under a global lock (`provides_globalLock`) that is
free and that nobody is constructing. Loads, stores and exchanges of a single core have interrupts
enabled and an instruction that does it all; its compare-and-exchange has them masked around a read
and a write. Under the global lock everything has them masked, and holds the lock besides.

With interrupts masked, a context is alone with the lock's word and with its construction (`locks`).
So it takes the lock at the first attempt (`World.Locks.locked`): the word is found zero, is one
while a program runs under the lock, and is zero before interrupts are given back.
-/

namespace Atomicity.OneCore

open Prog

variable {α : Type} {c : Controller} {guarded flag f : Bool} {place : Section} {word : Word .w64}
  {w : Width} {a : Addr}

/-! ## A single core -/

theorem compareExchange_singleCore (isa : SwapIsa) (ha : a ≠ .globalLock) (e d : Word w) :
    (world c false flag).Indivisible (SingleCore.compareExchange c isa w a e d)
      (Effect.compareExchange w a e d) :=
  (masks c false flag).compareExchange (sole false flag _ _ w ha)
    (fun _ h => absurd h Bool.false_ne_true) isa e d

/-- **The primitive operations of a single core are indivisible on one core.** -/
theorem provides_singleCore (c : Controller) (isa : SwapIsa) (widths : WidthSet) (flag : Bool) :
    (world c false flag).Provides (.singleCore c isa widths) where
  enterUpdate := steady.enterUpdate
  load ha w := (writable w ha).load _
  store ha w v := (writable w ha).store v _
  exchange ha w v := (writable w ha).exchange v isa
  compareExchange ha _ e d := compareExchange_singleCore isa ha e d
  fetchAdd ha w v :=
    World.Indivisible.fetchApply (· + v) steady.enterUpdate ((writable w ha).load _)
      fun e d => compareExchange_singleCore isa ha e d
  testSetLock ha v := (writable .w64 ha).exchange v isa
  privilegedStore ha v := (writable .w64 ha).store v _

/-! ## The word of the global lock -/

section

variable {at' : Section} {s : State} {found : List (Word .w64)}

/-- A context goes on elsewhere, the global lock being free. -/
theorem Stands.relocate {place' : Section} (h : Stands c true f place 0 at' s)
    (hplace : ∀ found, place' = .inside found → found <+: [0, 1]) :
    Stands c true f place' 0 place' s where
  place := rfl
  flag := h.flag
  sound := h.sound
  lock := h.lock
  lawful _ := ⟨(h.lawful rfl).masked, fun _ => (h.lock rfl).2, hplace⟩

theorem enterLocked : (world c true flag).Silent (Stands c true f .outside 0)
    (perform .enterLocked) fun _ => Stands c true f (.inside []) 0 := by
  refine World.Silent.instr fun at' s s' refused hs he => ?_
  have hs' : Stands c true f (.inside []) 0 (.inside []) s' :=
    (hs.disturbed he).relocate fun found h => by cases h; exact List.nil_prefix
  exact ⟨(hs.disturbed he).ready _, hs'.lawful, rfl, hs'⟩

theorem leaveLocked : (world c true flag).Silent (Stands c true f (.inside found) 0)
    (perform .leaveLocked) fun _ => Stands c true f .outside 0 := by
  refine World.Silent.instr fun at' s s' refused hs he => ?_
  have hs' : Stands c true f .outside 0 .outside s' :=
    (hs.disturbed he).relocate fun found h => by cases h
  exact ⟨(hs.disturbed he).ready _, hs'.lawful, rfl, hs'⟩

/-- The global lock is being constructed by a context that has its interrupts masked. -/
def Building (c : Controller) (place : Section) (at' : Section) (s : State) : Prop :=
  s.shared.once = .running ∧ Stands c true false place 0 at'
    { s with shared := { s.shared with once := .incomplete } }

/-- With interrupts masked, a lock is found constructed, or its construction has not begun. -/
theorem startConstruction : (world c true flag).Silent (Stands c true false place 0)
    (perform .startConstruction) fun r at' s => r ≠ .running ∧
      (r = .complete → Stands c true false place 0 at' s) ∧
      (r = .incomplete → Building c place at' s) := by
  refine World.Silent.instr fun at' s s' refused hs he => ?_
  replace hs := hs.disturbed he
  have hready : (world c true flag).ready .startConstruction s' := hs.ready _
  rw [note_of_unnoted rfl]
  cases honce : s'.shared.once with
  | running => exact absurd honce (hs.lock rfl).1
  | complete =>
    have hexec : Instr.startConstruction.exec refused s' = (.complete, s') := by
      simp only [Instr.exec, honce]
    rw [hexec]
    exact ⟨hready, hs.lawful, rfl, OnceStatus.noConfusion, fun _ => hs, OnceStatus.noConfusion⟩
  | incomplete =>
    have hexec : Instr.startConstruction.exec refused s' =
        (.incomplete, { s' with shared := { s'.shared with once := .running } }) := by
      simp only [Instr.exec, honce]
    have hsame : ({ s' with shared := { s'.shared with once := .incomplete } } : State) = s' := by
      rw [← honce]
    rw [hexec]
    refine ⟨hready, fun hg => ?_, rfl, OnceStatus.noConfusion, OnceStatus.noConfusion,
      fun _ => ⟨rfl, ?_⟩⟩
    · exact ⟨(hs.lawful hg).masked, (hs.lawful hg).outside, (hs.lawful hg).inside⟩
    · simpa only [hsame] using hs

theorem endConstruction : (world c true flag).Silent (Building c place)
    (perform .endConstruction) fun _ => Stands c true false place 0 := by
  refine World.Silent.instr fun at' s s' refused hs he => ?_
  obtain ⟨-, hs⟩ := hs
  have hmasked : c.enabled s.core = false := hs.flag
  obtain rfl : s' = s := by
    rcases he with rfl | ⟨-, hen, -⟩
    · rfl
    · rw [hmasked] at hen
      cases hen
  have hword : lockWord ((Instr.endConstruction.exec refused s').2) = 0 :=
    State.read_write_self _ _ _ _
  have hlawful : Lawful c at' (Instr.endConstruction.exec refused s').2 :=
    ⟨fun hne => absurd hword hne, fun _ => hword, (hs.lawful rfl).inside⟩
  rw [note_of_unnoted rfl]
  refine ⟨fun _ hen => ?_, fun _ => hlawful, Memory.write_write _ _ _ _ _, ?_⟩
  · rw [hmasked] at hen
    cases hen
  · exact ⟨hs.place, hs.flag, hs.sound, fun _ => ⟨OnceStatus.noConfusion, hword⟩, fun _ => hlawful⟩

theorem read_lock (hfound : found ++ [word] <+: [0, 1]) :
    (world c true flag).Silent (Stands c true false (.inside found) word)
      (perform (.read .w64 .globalLock)) fun r at' s =>
        r = word ∧ Stands c true false (.inside (found ++ [word])) word at' s := by
  refine World.Silent.instr fun at' s s' refused hs he => ?_
  replace hs := hs.disturbed he
  have hword : s'.read .w64 .globalLock = word := (hs.lock rfl).2
  obtain rfl := hs.place
  have hl := hs.lawful rfl
  have hs' : Stands c true false (.inside (found ++ [word])) word (.inside (found ++ [word])) s' :=
    ⟨rfl, hs.flag, hs.sound, hs.lock, fun _ => ⟨hl.masked, fun h => (nomatch h), fun l h => by
      cases h
      exact hfound⟩⟩
  have hnote : (world c true flag).note
      ⟨.read .w64 .globalLock, ((Instr.read .w64 .globalLock).exec refused s').1⟩ (.inside found) =
      .inside (found ++ [word]) :=
    congrArg (fun v => Section.inside (found ++ [v])) hword
  rw [hnote]
  exact ⟨hs.ready _, hs'.lawful, rfl, hword, hs'⟩

theorem write_lock (v : Word .w64) :
    (world c true flag).Silent (Stands c true false (.inside found) word)
      (perform (.write .w64 .globalLock v)) fun _ => Stands c true false (.inside found) v := by
  refine World.Silent.instr fun at' s s' refused hs he => ?_
  replace hs := hs.disturbed he
  obtain rfl := hs.place
  have hl := hs.lawful rfl
  have hs' : Stands c true false (.inside found) v (.inside found) (s'.write .w64 .globalLock v) :=
    ⟨rfl, hs.flag, hs.sound, fun _ => ⟨(hs.lock rfl).1, State.read_write_self _ _ _ _⟩,
      fun _ => ⟨fun _ => hs.flag, fun h => (nomatch h), hl.inside⟩⟩
  rw [note_of_unnoted rfl]
  exact ⟨hs.ready _, hs'.lawful, Memory.write_write _ _ _ _ _, hs'⟩

end

/-- With interrupts masked, a context on one core is alone with the global lock. -/
theorem locks (c : Controller) (flag : Bool) :
    (world c true flag).Locks c (Stands c true) (Building c) where
  toMasks := masks c true flag
  enterLocked _ := enterLocked
  leaveLocked _ _ := leaveLocked
  startConstruction _ := startConstruction
  endConstruction _ := endConstruction
  read_lock _ _ hfound := read_lock hfound
  write_lock _ _ v := write_lock v

/-- **The primitive operations under the global lock are indivisible on one core**, if the lock is
free and nobody is constructing it. Whoever finds it not constructed does that, with interrupts
masked. -/
theorem provides_globalLock (c : Controller) (base : Backend) (flag : Bool) :
    (world c true flag).Provides (.globalLock c base) :=
  (locks c flag).provides base rfl steady.enterUpdate fun place word w _ ha =>
    sole true flag place word w ha

end Atomicity.OneCore
