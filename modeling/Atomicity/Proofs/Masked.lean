import Atomicity.Proofs.World

/-!
# With interrupts masked

What the backends that mask interrupts rely on, in any world where it holds.

- **A word is readable** where a context may look at it and look at nothing else, and **writable**
  where it may write it (`World.Readable`, `World.Writable`). Then loads, stores and swaps are one
  instant each.
- **A word is sole** (`World.Sole`) where nobody else writes it. Then to read it and to write it, or
  not, is one instant: the write, or else the read (`Sole.replace`, `Sole.compare`).
- **A controller masks** (`World.Masks`) if its programs lead from interrupts enabled or masked to
  masked, and back. Then what commits with interrupts masked commits from any state of them, run in
  between (`Masks.masking`). A simulated core masks if a context comes to own it, and gives it up
  (`Owns.masks`).
- **A world locks** (`World.Locks`) if, with interrupts masked, the word of the global lock is what
  a context counts on. Then **to run a program under the global lock takes it at the first attempt**
  (`Locks.locked`): the word is found zero, is one while the program runs, and is zero before
  interrupts are given back. So **the primitive operations under the global lock are indivisible**
  (`Locks.provides`).

A `Section` is what is watched of a context for that: whether it is in a section under the global
lock, and what it has found in the lock's word since.
-/

namespace Atomicity

open Prog

namespace Instr

/-- The instruction is for who owns the simulated core. -/
def handsOver : Instr → Bool
  | setMasked _ => true
  | disownCore => true
  | _ => false

/-- The instruction concerns the simulated core. -/
def concernsCore : Instr → Bool
  | claimCore => true
  | i => i.handsOver

/-- What does not concern the simulated core leaves alone who owns it and who is masked. -/
theorem owner_of_not_concernsCore {i : Instr} (h : i.concernsCore = false)
    (refused : Bool) (s : State) :
    (i.exec refused s).2.core.masked = s.core.masked ∧
      (i.exec refused s).2.shared.coreOwned = s.shared.coreOwned := by
  cases i with
  | setMasked b => cases h
  | claimCore => cases h
  | disownCore => cases h
  | compareSwap w a expected desired =>
    simp only [exec]
    split <;> exact ⟨rfl, rfl⟩
  | storeExclusive isa w a v =>
    simp only [exec]
    split <;> exact ⟨rfl, rfl⟩
  | lineRestore b => cases b <;> exact ⟨rfl, rfl⟩
  | startConstruction =>
    simp only [exec]
    split <;> exact ⟨rfl, rfl⟩
  | _ => exact ⟨rfl, rfl⟩

end Instr

/-- Where a context is: outside of any section under the global lock, or inside of one, with what it
has found in the word of the lock since, first time first. -/
inductive Section where
  | outside
  | inside (found : List (Word .w64))
  deriving DecidableEq

namespace Section

/-- Where a context is after one more instruction. -/
def note : Executed → Section → Section
  | ⟨.enterLocked, _⟩, _ => .inside []
  | ⟨.leaveLocked, _⟩, _ => .outside
  | ⟨.read .w64 .globalLock, v⟩, .inside found => .inside (found ++ [v])
  | _, at' => at'

/-- Instructions that are not part of a section's bookkeeping. -/
def unnoted : Instr → Bool
  | .enterLocked => false
  | .leaveLocked => false
  | .read .w64 .globalLock => false
  | _ => true

theorem note_of_unnoted {i : Instr} (h : unnoted i = true) (r : i.Reply) (at' : Section) :
    note ⟨i, r⟩ at' = at' := by
  cases i with
  | enterLocked => cases h
  | leaveLocked => cases h
  | read w a => cases w <;> cases a <;> cases at' <;> first | rfl | cases h
  | _ => cases at' <;> rfl

theorem unnoted_read (w : Width) {a : Addr} (ha : a ≠ .globalLock) :
    unnoted (.read w a) = true := by
  cases a with
  | globalLock => exact absurd rfl ha
  | cell n => cases w <;> rfl
  | guarded n => cases w <;> rfl

end Section

/-- The instruction is no part of what is watched of a context. -/
def Instr.unwatched (i : Instr) : Bool := Section.unnoted i && !i.concernsCore

theorem Instr.unwatched_iff {i : Instr} :
    i.unwatched = true ↔ Section.unnoted i = true ∧ i.concernsCore = false := by
  simp [unwatched]

theorem Instr.unwatched_read (w : Width) {a : Addr} (ha : a ≠ .globalLock) :
    (read w a).unwatched = true :=
  unwatched_iff.mpr ⟨Section.unnoted_read w ha, rfl⟩

namespace World

variable {Γ α : Type} {W : World Γ} {R : Γ → State → Prop} {w : Width} {a : Addr}

/-! ## Words that nobody else writes -/

/-- What others may do before any instruction leaves `R` as it is. -/
def Stable (W : World Γ) (R : Γ → State → Prop) : Prop :=
  ∀ {i t s s'}, R t s → W.env i s s' → R t s'

/-- Executed where `R` holds, the instruction is ready and lawful, and leaves `R` as it is. -/
def Executes (W : World Γ) (R : Γ → State → Prop) (i : Instr) : Prop :=
  ∀ t s refused, R t s → W.ready i s ∧
    W.lawful (W.note ⟨i, (i.exec refused s).1⟩ t) (i.exec refused s).2 ∧
    R (W.note ⟨i, (i.exec refused s).1⟩ t) (i.exec refused s).2

namespace Executes

variable {i : Instr} (h : W.Executes R i) (hR : W.Stable R)

include h hR

theorem silent (hview : ∀ s refused, W.view (i.exec refused s).2 = W.view s) :
    W.Silent R (perform i) fun _ => R := by
  refine Silent.instr fun t s s' refused hs he => ?_
  obtain ⟨hready, hlawful, hs'⟩ := h t s' refused (hR hs he)
  exact ⟨hready, hlawful, hview s' refused, hs'⟩

theorem commits {E : Effect i.Reply}
    (hE : ∀ s refused, ((i.exec refused s).1, W.view (i.exec refused s).2) = E (W.view s)) :
    W.Commits R (perform i) E R := by
  refine CommitsOn.instr fun t s s' refused hs he => ?_
  obtain ⟨hready, hlawful, hs'⟩ := h t s' refused (hR hs he)
  exact ⟨hready, hlawful, ⟨trivial, hE s' refused⟩, hs'⟩

end Executes

/-- Where `R` holds, a context may execute what leaves the state alone, and others leave `R` as it
is. -/
structure Steady (W : World Γ) (R : Γ → State → Prop) : Prop where
  stable : W.Stable R
  still : ∀ {i}, Instr.unwatched i = true → (∀ refused s, (i.exec refused s).2 = s) → W.Executes R i

namespace Steady

variable {i : Instr} (h : W.Steady R)

include h

theorem silent (hi : i.unwatched = true) (hstill : ∀ refused s, (i.exec refused s).2 = s) :
    W.Silent R (perform i) fun _ => R :=
  (h.still hi hstill).silent h.stable fun s refused => congrArg W.view (hstill refused s)

/-- An instruction that answers something about the state. -/
theorem query (hi : i.unwatched = true) (hstill : ∀ refused s, (i.exec refused s).2 = s)
    {P : i.Reply → Prop} (hP : ∀ t s refused, R t s → P (i.exec refused s).1) :
    W.Silent R (perform i) fun r t s => P r ∧ R t s := by
  refine Silent.instr fun t s s' refused hs he => ?_
  replace hs := h.stable hs he
  obtain ⟨hready, hlawful, hs'⟩ := h.still hi hstill t s' refused hs
  exact ⟨hready, hlawful, congrArg W.view (hstill refused s'), hP t s' refused hs, hs'⟩

theorem fence (isa : Isa) : W.Silent R (perform (.fence isa)) fun _ => R :=
  h.silent rfl fun _ _ => rfl

theorem enterUpdate : W.Silent R (perform .enterUpdate) fun _ => R :=
  h.silent rfl fun _ _ => rfl

end Steady

/-- Where `R` holds, the word is part of the memory that is looked at. -/
structure Readable (W : World Γ) (R : Γ → State → Prop) (w : Width) (a : Addr) : Prop
    extends Steady W R where
  apart : a ≠ .globalLock
  read_view : ∀ s, (W.view s).read w a = s.read w a

namespace Readable

variable (h : W.Readable R w a)

include h

theorem executes : W.Executes R (.read w a) :=
  h.still (Instr.unwatched_read w h.apart) fun _ _ => rfl

theorem read : W.Commits R (perform (.read w a)) (Effect.load w a) R :=
  h.executes.commits h.stable fun s _ => Prod.ext (h.read_view s).symm rfl

theorem load (isa : Isa) : W.Commits R (isa.load w a) (Effect.load w a) R :=
  Commits.load (h.fence isa) h.read

end Readable

/-- Where `R` holds, a context may write the word, which is part of the memory that is looked at. -/
structure Writable (W : World Γ) (R : Γ → State → Prop) (w : Width) (a : Addr) : Prop
    extends Readable W R w a where
  write_view : ∀ s v, W.view (s.write w a v) = (W.view s).write w a v
  writes : ∀ {i v}, Instr.unwatched i = true → (∀ refused s, (i.exec refused s).2 = s.write w a v) →
    W.Executes R i

namespace Writable

variable (h : W.Writable R w a) (v : Word w)

include h

theorem executes : W.Executes R (.write w a v) :=
  h.writes rfl fun _ _ => rfl

theorem write : W.Commits R (perform (.write w a v)) (Effect.store w a v) R :=
  (h.executes v).commits h.stable fun s _ => Prod.ext rfl (h.write_view s v)

theorem swap (isa : SwapIsa) :
    W.Commits R (perform (.swap isa w a v)) (Effect.replace w a fun _ => v) R :=
  (h.writes rfl fun _ _ => rfl).commits h.stable fun s _ =>
    Prod.ext (h.read_view s).symm (h.write_view s v)

theorem store (isa : Isa) : W.Commits R (isa.store w a v) (Effect.store w a v) R :=
  Commits.store (h.fence isa) (h.write v)

theorem exchange (isa : SwapIsa) :
    W.Commits R (isa.exchange w a v) (Effect.replace w a fun _ => v) R :=
  Commits.exchange (h.fence (.swap isa)) (h.swap v isa)

end Writable

/-- Where `R` holds, a context may write the word, and nobody else does. -/
structure Sole (W : World Γ) (R : Γ → State → Prop) (w : Width) (a : Addr) : Prop
    extends Writable W R w a where
  kept : ∀ {i t s s'}, R t s → W.env i s s' → s'.read w a = s.read w a

/-- The word is the one that has been found. -/
def Found (w : Width) (a : Addr) (v : Word w) (R : Γ → State → Prop) (t : Γ) (s : State) : Prop :=
  s.read w a = v ∧ R t s

namespace Sole

variable (h : W.Sole R w a)

include h

/-- A word that has been found stays what it is until it is written. -/
theorem write_found (found v : Word w) :
    W.CommitsOn (fun m => m.read w a = found) (Found w a found R) (perform (.write w a v))
      (Effect.store w a v) R := by
  refine CommitsOn.instr fun t s s' refused hs he => ?_
  obtain ⟨hfound, hs⟩ := hs
  obtain ⟨hready, hlawful, hR⟩ := h.executes v t s' refused (h.stable hs he)
  refine ⟨hready, hlawful, ⟨?_, Prod.ext rfl (h.write_view s' v)⟩, hR⟩
  exact (h.read_view s').trans ((h.kept hs he).trans hfound)

/-- **Read, and write or not.** If the word found is one of `D`, there is nothing to write, and the
read was the instant; if not, the write is. -/
theorem read_or {f : Word w → Prog α} {E : Effect α} {k : Word w → α} (D : Word w → Prop)
    (now : ∀ found, D found → (∀ m : Memory, m.read w a = found → E m = (k found, m)) ∧
      W.Silent R (f found) fun x t s => x = k found ∧ R t s)
    (later : ∀ found, ¬ D found →
      W.CommitsOn (fun m => m.read w a = found) (Found w a found R) (f found) E R) :
    W.Commits R ((perform (.read w a)).bind f) E R := by
  show W.CommitsOn (fun _ => True) _ _ _ _
  refine Acts.instr_or (L := fun v m => m.read w a = v) (k := k) (M := fun v => Found w a v R) D
    (fun t s s' refused hs he => ?_) (fun found hD => ?_) fun found hD => ?_
  · obtain ⟨hready, hlawful, hR⟩ := h.toReadable.executes t s' refused (h.stable hs he)
    exact ⟨hready, hlawful, rfl, trivial, h.read_view s', rfl, hR⟩
  · obtain ⟨hE, hsilent⟩ := now found hD
    refine ⟨hE, fun γ T g t s hs => ?_⟩
    refine (hsilent γ T g t s hs.2).mono ?_
    rintro x ⟨t', g'⟩ s' ⟨⟨rfl, hs'⟩, hg⟩
    exact ⟨⟨rfl, hs'⟩, hg⟩
  · exact Acts.anywhere (later found hD)

variable {after : Prog Unit} (hafter : W.Silent R after fun _ => R)

include hafter

/-- Reads a word and replaces it by its image under a function. -/
theorem replace (u : Word w → Word w) :
    W.Commits R
      (do
        let previous ← perform (.read w a)
        perform (.write w a (u previous))
        after
        return previous)
      (Effect.replace w a u) R := by
  refine h.read_or (k := id) (fun _ => False) (fun found hD => hD.elim) fun found _ => ?_
  refine CommitsOn.congr (CommitsOn.silent (k := fun _ => found) (h.write_found found (u found))
    fun _ => hafter.bind fun _ => Silent.ret) fun m hm => ?_
  rw [Effect.replace, hm]
  rfl

/-- Reads a word and replaces it if it is the one expected. -/
theorem compare (expected desired : Word w) :
    W.Commits R
      (do
        let found ← perform (.read w a)
        when (found = expected) (perform (.write w a desired))
        after
        return .ofFound expected found)
      (Effect.compareExchange w a expected desired) R := by
  refine h.read_or (k := .ofFound expected) (fun found => found ≠ expected)
    (fun found hD => ⟨fun m hm => ?_, ?_⟩) fun found hD => ?_
  · simp [Effect.compareExchange, Comparison.ofFound, hm, hD]
  · simp only [when, if_neg hD]
    exact hafter.bind fun _ => Silent.ret
  · obtain rfl : found = expected := Decidable.not_not.mp hD
    simp only [when, if_pos]
    refine CommitsOn.congr (CommitsOn.silent (k := fun _ => Comparison.ofFound found found)
      (h.write_found found desired) fun _ => hafter.bind fun _ => Silent.ret) fun m hm => ?_
    simp [Effect.compareExchange, Effect.store, Comparison.ofFound, hm]

end Sole

/-! ## Controllers -/

/-- A controller masks interrupts and gives them back. `At` is how a context stands: with interrupts
enabled or masked, in or out of a section, and counting on a word in the global lock. Where there is
such a lock (`guarded`), it has to be free before interrupts are given back. -/
structure Masks (W : World Γ) (c : Controller) (guarded : Bool)
    (At : Bool → Section → Word .w64 → Γ → State → Prop) : Prop where
  steady : ∀ f place word, W.Steady (At f place word)
  disable : ∀ f place word,
    W.Silent (At f place word) c.disable fun b t s => b = f ∧ At false place word t s
  enableIf : ∀ place word b, (b = true → guarded = true → word = 0) →
    W.Silent (At false place word) (c.enableIf b) fun _ => At b place word

variable {c : Controller} {guarded f : Bool} {At : Bool → Section → Word .w64 → Γ → State → Prop}
  {place place' : Section} {word word' : Word .w64}

namespace Masks

variable (h : W.Masks c guarded At)

include h

theorem fence (f : Bool) (place : Section) (word : Word .w64) (isa : Isa) :
    W.Silent (At f place word) (perform (.fence isa)) fun _ => At f place word :=
  (h.steady f place word).fence isa

/-- **What commits with interrupts masked commits from any state of them**, run in between. -/
theorem masking {p : Prog α} {E : Effect α}
    (hp : W.Commits (At false place word) p E (At false place' word'))
    (hw : f = true → guarded = true → word' = 0) :
    W.Commits (At f place word) (c.masking p) E (At f place' word') :=
  (h.disable f place word).commits fun b => Acts.given fun hb => hp.silent (k := id) fun _ =>
    (h.enableIf place' word' b (hb ▸ hw)).bind fun _ => Silent.ret.mono fun _ _ _ h =>
      ⟨h.1, hb ▸ h.2⟩

/-- What is silent with interrupts masked is so from any state of them, run in between. -/
theorem masking_silent {p : Prog α} {P : α → Prop}
    (hp : W.Silent (At false place word) p fun x t s => P x ∧ At false place' word' t s)
    (hw : f = true → guarded = true → word' = 0) :
    W.Silent (At f place word) (c.masking p) fun x t s => P x ∧ At f place' word' t s :=
  (h.disable f place word).bind fun b => Silent.given fun hb => hp.bind fun _ =>
    Silent.given fun hx =>
    (h.enableIf place' word' b (hb ▸ hw)).bind fun _ => Silent.ret.mono fun _ _ _ h =>
      ⟨h.1 ▸ hx, hb ▸ h.2⟩

/-- The word of a lock that is not the global one is swapped with interrupts masked. -/
theorem maskedSwap (hsole : W.Sole (At false place word) .w64 a)
    (hw : f = true → guarded = true → word = 0) (isa : Isa) (v : Word .w64) :
    W.Commits (At f place word) (Backend.maskedSwap c isa a v) (Effect.replace .w64 a fun _ => v)
      (At f place word) :=
  h.masking ((h.fence _ _ _ isa).commits fun _ => hsole.replace (h.fence _ _ _ isa) fun _ => v) hw

/-- On a single core, a word is compared and replaced with interrupts masked. -/
theorem compareExchange (hsole : W.Sole (At false place word) w a)
    (hw : f = true → guarded = true → word = 0) (isa : SwapIsa) (e d : Word w) :
    W.Commits (At f place word) (SingleCore.compareExchange c isa w a e d)
      (Effect.compareExchange w a e d) (At f place word) :=
  h.masking ((h.fence _ _ _ _).commits fun _ => hsole.compare (h.fence _ _ _ _) e d) hw

end Masks

/-! ## The simulated core -/

/-- A context comes to own the simulated core and gives it up. In between, it stands as `Claimed`
says while it is still to note that its interrupts are masked, and as `Leaving` says from where it
has noted that they are not. -/
structure Owns (W : World Γ) (guarded : Bool) (At : Bool → Section → Word .w64 → Γ → State → Prop)
    (Claimed Leaving : Section → Word .w64 → Γ → State → Prop) : Prop where
  steady : ∀ f place word, W.Steady (At f place word)
  masked : ∀ {f place word t s}, At f place word t s → s.core.masked = !f
  claimCore : ∀ place word, W.Silent (At true place word) (perform .claimCore) fun ok t s =>
    match ok with
    | true => Claimed place word t s
    | false => At true place word t s
  mask : ∀ place word,
    W.Silent (Claimed place word) (perform (.setMasked true)) fun _ => At false place word
  unmask : ∀ place word, (guarded = true → word = 0) →
    W.Silent (At false place word) (perform (.setMasked false)) fun _ => Leaving place word
  disownCore : ∀ place word, (guarded = true → word = 0) →
    W.Silent (Leaving place word) (perform .disownCore) fun _ => At true place word

namespace Owns

variable {Claimed Leaving : Section → Word .w64 → Γ → State → Prop}
  (h : W.Owns guarded At Claimed Leaving)

include h

/-- To disable interrupts is to wait until the simulated core is one's own. -/
theorem disable : W.Silent (At f place word) Controller.hosted.disable fun b t s =>
    b = f ∧ At false place word t s := by
  refine ((h.steady f place word).query (i := .isMasked) rfl (fun _ _ => rfl) (P := (· = !f))
    fun _ _ _ => h.masked).bind fun masked => Silent.given fun hmasked => ?_
  subst hmasked
  cases f with
  | false => exact Silent.ret
  -- the simulated core has to be owned before the context is masked
  | true =>
    exact (Silent.untilTrue (h.claimCore place word)).bind fun _ =>
      (h.mask place word).bind fun _ => Silent.ret

/-- To enable interrupts is to give the simulated core up. -/
theorem enableIf (b : Bool) (hw : b = true → guarded = true → word = 0) :
    W.Silent (At false place word) (Controller.hosted.enableIf b) fun _ => At b place word := by
  cases b with
  | false => exact Silent.skip
  | true => exact (h.unmask place word (hw rfl)).bind fun _ => h.disownCore place word (hw rfl)

/-- **Who owns the simulated core has its interrupts masked**, until it gives it up. -/
theorem masks : W.Masks .hosted guarded At where
  steady := h.steady
  disable _ _ _ := h.disable
  enableIf _ _ b hw := h.enableIf b hw

end Owns

/-! ## The global lock -/

/-- With interrupts masked, a context is alone with the word of the global lock and with its
construction. `Building` is how it stands while it constructs the lock. -/
structure Locks (W : World Γ) (c : Controller) (At : Bool → Section → Word .w64 → Γ → State → Prop)
    (Building : Section → Γ → State → Prop) : Prop extends Masks W c true At where
  enterLocked : ∀ f, W.Silent (At f .outside 0) (perform .enterLocked) fun _ => At f (.inside []) 0
  leaveLocked : ∀ f found,
    W.Silent (At f (.inside found) 0) (perform .leaveLocked) fun _ => At f .outside 0
  startConstruction : ∀ place,
    W.Silent (At false place 0) (perform .startConstruction) fun r t s => r ≠ .running ∧
      (r = .complete → At false place 0 t s) ∧ (r = .incomplete → Building place t s)
  endConstruction : ∀ place,
    W.Silent (Building place) (perform .endConstruction) fun _ => At false place 0
  read_lock : ∀ found word, found ++ [word] <+: [0, 1] →
    W.Silent (At false (.inside found) word) (perform (.read .w64 .globalLock)) fun r t s =>
      r = word ∧ At false (.inside (found ++ [word])) word t s
  write_lock : ∀ found word v,
    W.Silent (At false (.inside found) word) (perform (.write .w64 .globalLock v)) fun _ =>
      At false (.inside found) v

namespace Locks

variable {Building : Section → Γ → State → Prop} (h : W.Locks c At Building)

include h

/-- To swap the word of the global lock answers what was there. -/
theorem lockSwap {found : List (Word .w64)} (isa : Isa) (v : Word .w64)
    (hfound : found ++ [word] <+: [0, 1]) :
    W.Silent (At false (.inside found) word) (Backend.maskedSwap c isa .globalLock v) fun old t s =>
      old = word ∧ At false (.inside (found ++ [word])) v t s := by
  refine h.masking_silent ?_ fun hf => absurd hf Bool.false_ne_true
  exact (h.fence _ _ _ isa).bind fun _ => (h.read_lock found word hfound).bind fun _ =>
    Silent.given fun hold => (h.write_lock _ _ v).bind fun _ => (h.fence _ _ _ isa).bind fun _ =>
      Silent.ret.mono fun _ _ _ h => ⟨h.1.trans hold, h.2⟩

/-- The global lock is taken at the first attempt. -/
theorem acquire (base : Backend) : W.Silent (At false (.inside []) 0)
    (RawLock.global.acquire (.globalLock c base)) fun _ => At false (.inside [0]) 1 := by
  refine Silent.untilTrue ((h.lockSwap base.barrier 1 ⟨[1], rfl⟩).bind fun old =>
    Silent.given fun hold => ?_)
  subst hold
  exact Silent.ret.mono fun ok t s h => by
    obtain ⟨rfl, h⟩ := h
    exact h

theorem release (base : Backend) : W.Silent (At false (.inside [0]) 1)
    (RawLock.global.release (.globalLock c base)) fun _ => At false (.inside [0, 1]) 0 :=
  (h.lockSwap base.barrier 0 ⟨[], rfl⟩).bind fun _ => Silent.given fun _ =>
    Silent.ret.mono fun _ _ _ h => h.2

/-- The global lock has been constructed after that, whoever has done it. -/
theorem construct : W.Silent (At false place 0) (GlobalLock.construct (.ret ()))
    fun _ => At false place 0 := by
  refine Silent.loop (I := fun _ => At false place 0)
    (fun _ => (h.startConstruction place).bind fun status => Silent.given fun hstatus => ?_) ()
  cases status with
  | running => exact absurd rfl hstatus
  | complete => exact Silent.ret.mono fun x t s h => h.1 ▸ h.2.1 rfl
  | incomplete =>
    have done : W.Silent (Building place)
        ((perform .endConstruction).bind fun _ => .ret (Sum.inr () : Unit ⊕ Unit)) fun x t s =>
          x = .inr () ∧ At false place 0 t s :=
      (h.endConstruction place).bind fun _ => Silent.ret
    intro γ T g t s hs
    exact (done γ T g t s (hs.2 rfl)).mono fun x g' s' h => ⟨h.1.1 ▸ h.1.2, h.2⟩

/-- **To run a program under the global lock takes it at the first attempt**, and gives it up before
interrupts are given back. -/
theorem locked (base : Backend) {p : Prog α} {E : Effect α}
    (hp : W.Commits (At false (.inside [0]) 1) p E (At false (.inside [0]) 1)) :
    W.Commits (At f .outside 0) (GlobalLock.locked c base p) E (At f .outside 0) := by
  have held : W.Commits (At false (.inside []) 0)
      (do
        GlobalLock.construct (return ())
        RawLock.global.acquire (.globalLock c base)
        base.fence
        let a ← p
        base.fence
        RawLock.global.release (.globalLock c base)
        return a)
      E (At false (.inside [0, 1]) 0) :=
    h.construct.commits fun _ => (h.acquire base).commits fun _ =>
      (h.fence _ _ _ _).commits fun _ => CommitsOn.silent (k := id) hp fun _ =>
      (h.fence _ _ _ _).bind fun _ => (h.release base).bind fun _ => Silent.ret
  exact (h.enterLocked f).commits fun _ =>
    CommitsOn.silent (k := id) (h.masking held fun _ _ => rfl) fun _ =>
      (h.leaveLocked f _).bind fun _ => Silent.ret

/-- **The primitive operations under the global lock are indivisible.** -/
theorem provides (base : Backend) (hrest : W.rest = At f .outside 0)
    (enterUpdate : W.Silent W.rest (perform .enterUpdate) fun _ => W.rest)
    (sole : ∀ place word w {a}, a ≠ .globalLock → W.Sole (At false place word) w a) :
    W.Provides (.globalLock c base) := by
  have indivisible : ∀ {α : Type} {p : Prog α} {E : Effect α},
      W.Commits (At f .outside 0) p E (At f .outside 0) → W.Indivisible p E := by
    intro α p E hp
    rw [Indivisible, hrest]
    exact hp
  constructor
  · exact enterUpdate
  · intro a ha w
    exact indivisible (h.locked base (sole _ _ w ha).read)
  · intro a ha w v
    exact indivisible (h.locked base ((sole _ _ w ha).write v))
  · intro a ha w v
    exact indivisible (h.locked base ((sole _ _ w ha).replace Silent.skip fun _ => v))
  · intro a ha w e d
    exact indivisible (h.locked base ((sole _ _ w ha).compare Silent.skip e d))
  · intro a ha w v
    exact indivisible (h.locked base ((sole _ _ w ha).replace Silent.skip (· + v)))
  · intro a ha v
    exact indivisible (h.maskedSwap (sole _ _ _ ha) (fun _ _ => rfl) _ v)
  · intro a ha v
    exact indivisible
      (CommitsOn.map (fun _ => ()) (h.maskedSwap (sole _ _ _ ha) (fun _ _ => rfl) _ v))

end Locks

end World

end Atomicity
