import Atomicity.Proofs.Interference.Primitives

/-!
# The other operations under interference

To exchange a word acts at its address (`Backend.acts_exchange`), and so does swapping the word of a
lock (`Backend.acts_testSetLock`), as a load and a compare-and-exchange do. A store finds nothing,
so what there is to say of it is that it comes to its end and bypasses every other address
(`Backend.bypasses_store`, `Backend.bypasses_privilegedStore`).
-/

namespace Atomicity

namespace Prog

variable {α : Type} {x : Interference} {w : Width} {a : Addr} {n : Nat} {m : Bool}
  {R : State → Prop}

section

variable (hx : x.budget = none) (hR : x.Leaves R)

include hx hR

/-- One instruction that swaps. -/
theorem Acts.swap (isa : SwapIsa) {v : Word w} (hwrite : ∀ s, R s → R (s.write w a v)) :
    (perform (.swap isa w a v)).Acts x a 1 R id (fun _ => some v) R := by
  intro s hs
  refine .instr hx rfl hR hs fun refused tr s' _ hforeign hreplay hs' => ?_
  have hfirst : Effective s'.shared.memory (.loaded w a (s'.read w a) ::
      ((some v).toList.map (.stored w a) ++ [])) a (s'.read w a) (some v) :=
    .first rfl fun _ he => absurd he List.not_mem_nil
  refine ⟨⟨s'.read w a, rfl, Effective.prepend (fun e he => ?_) (hreplay ▸ hfirst)⟩, hwrite s' hs'⟩
  exact Access.storesTo_of_isForeign (hforeign e he) a

/-- A program that acts, between two fences. -/
theorem Acts.fenced (isa : Isa) {p : Prog α} {answer : Word w → α}
    {written : Word w → Option (Word w)} (h : p.Acts x a n R answer written R) : Prog.Acts x a (do
      perform (.fence isa)
      let r ← p
      perform (.fence isa)
      return r) (n + 2) R answer written R := by
  refine Acts.le (n := 1 + (n + 1)) ?_ (by omega)
  refine .after (.fence hx hR) fun _ => .before (g := id) h fun r => .map ?_
  exact (Bypasses.fence hx hR).mono (fun _ hs => hs) fun _ _ hs => ⟨rfl, hs⟩

/-- A write of another word. -/
theorem Bypasses.write {b : Addr} (hb : b ≠ a) {v : Word w}
    (hwrite : ∀ s, R s → R (s.write w b v)) :
    (perform (.write w b v)).Bypasses x a 1 R fun _ => R := by
  refine .instr hx rfl hR (fun _ e he => ?_) fun _ s _ hs => hwrite s hs
  rw [List.mem_singleton.mp he]
  simp [Access.storesTo, hb]

/-- A write of another word, between two fences. -/
theorem Bypasses.plainStore (isa : Isa) {b : Addr} (hb : b ≠ a) {v : Word w}
    (hwrite : ∀ s, R s → R (s.write w b v)) : (isa.store w b v).Bypasses x a 3 R fun _ => R :=
  Bypasses.bind (n := 1) (k := 2) (.fence hx hR) fun _ =>
    Bypasses.bind (n := 1) (k := 1) (.write hx hR hb hwrite) fun _ => .fence hx hR

end

section

variable (hx : x.budget = none) (hlock : x.addr ≠ .globalLock) (ha : a ≠ .globalLock)

include hx hlock ha

/-- A section under the global lock bypasses what its program does while the lock is held. -/
theorem Bypasses.locked (c : Controller) (base : Backend) {p : Prog α}
    (h : p.Bypasses x a n c.Holds fun _ => c.Holds) :
    (GlobalLock.locked c base p).Bypasses x a (n + 34) (fun s => c.Stands m s ∧ s.Lockable)
      fun _ s => c.Stands m s ∧ s.Lockable := by
  have lockable := OfLock.lockable hlock
  have lockIs := OfLock.lockIs hlock
  have hopen : x.Leaves fun s => c.Stands m s ∧ s.LockIs 0 := leaves_stands.and (lockIs 0).leaves
  have hheld : x.Leaves c.Holds := leaves_stands.and (lockIs 1).leaves
  have hsection : Prog.Bypasses x a (do
      GlobalLock.construct (return ())
      RawLock.global.acquire (.globalLock c base)
      base.fence
      let r ← p
      base.fence
      RawLock.global.release (.globalLock c base)
      return r) (n + 26) (fun s => c.Stands true s ∧ s.Lockable)
        fun _ s => c.Stands true s ∧ s.LockIs 0 := by
    refine Bypasses.le (n := 3 + (11 + (1 + (n + (1 + 10))))) ?_ (by omega)
    refine (Bypasses.construct hx hlock ha).bind fun _ =>
      (Bypasses.acquire hx hlock ha c base).bind fun _ => ?_
    refine (Bypasses.fence hx hheld).bind fun _ => h.bind fun r =>
      (Bypasses.fence hx hheld).bind fun _ => ?_
    exact .map (Bypasses.release hx hlock ha c base)
  refine Bypasses.le (n := 1 + (n + 26 + 6 + 1)) ?_ (by omega)
  refine Bypasses.bind (Q := fun _ s => c.Stands m s ∧ s.Lockable) ?_ fun _ => ?_
  · exact .apart hx (leaves_stands.and lockable.leaves) rfl rfl (fun _ => rfl) fun _ hs => hs
  · refine (Bypasses.masking hx lockable (fun _ => lockIs 0) hsection).bind fun r => .map ?_
    refine .apart hx hopen rfl rfl (fun _ => rfl) fun s hs => ⟨hs.1, ?_, fun _ => hs.2.word⟩
    rw [Instr.exec, hs.2.once]
    exact OnceStatus.noConfusion

end

end Prog

namespace Backend

open Prog

variable {x : Interference} {a : Addr} {w : Width} {m : Bool}

/-- What is said of a state leaves the operations on the word of a lock their way: foreign writes
and the write of the word leave it as it is; it says nothing where the word is written by an
exclusive pair; and where interrupts are masked for that, it says how the context stands and what
goes by the global lock. -/
structure Allows (b : Backend) (x : Interference) (m : Bool) (a : Addr) (v : Word .w64)
    (R : State → Prop) :
    Prop where
  leaves : x.Leaves R
  write : ∀ s, R s → R (s.write .w64 a v)
  pair : b.strategy = .exclusivePair → ∀ s, R s
  lock : b.strategy = .globalLock → ∃ S, OfLock x S ∧ (∀ s, S s → S (s.write .w64 a v)) ∧
    ∀ s, R s ↔ b.controller.Stands m s ∧ S s

section

variable {b : Backend} {v : Word .w64} {R : State → Prop} (hx : x.budget = none)
  (h : b.Allows x m a v R)

include hx h

/-- **Swapping the word of a lock acts.** It takes no lock, so nothing is asked of the word of the
global lock, and it may be that word which is swapped. -/
theorem acts_testSetLock : (b.testSetLock a v).Acts x a 10 R id (fun _ => some v) R := by
  cases b with
  | native => exact (Acts.swap hx h.leaves .x86 h.write).le (by decide)
  | traced =>
    exact (Acts.announced hx h.leaves .testSetLock (Acts.swap hx h.leaves .x86 h.write)).le
      (by decide)
  | casOnly =>
    exact (Acts.announced hx h.leaves .testSetLock (Acts.swap hx h.leaves .x86 h.write)).le
      (by decide)
  | pair isa =>
    have hpair := Acts.attempts (x := x) (a := a) hx isa (fun _ => True) v Register.toWord
    simp only [Register.toWord_toRegister, if_true] at hpair
    exact (hpair.le (by decide)).mono (fun _ _ => trivial) fun s _ => h.pair rfl s
  | singleCore c isa widths =>
    exact (Acts.fenced hx h.leaves (.swap isa) (Acts.swap hx h.leaves isa h.write)).le (by decide)
  | globalLock c base =>
    obtain ⟨S, hS, hwrite, hR⟩ := h.lock rfl
    have hmasked : x.Leaves fun s => c.Stands true s ∧ S s := Prog.leaves_stands.and hS.leaves
    refine ((Acts.masking hx hS hS (n := 4) ?_).le (by decide)).mono (fun s hs => (hR s).mp hs)
      fun s hs => (hR s).mpr hs
    refine .after (n := 1) (k := 3) (.fence hx hmasked) fun _ => .read (n := 2) hx fun found => ?_
    refine .write (n := 1) hx (fun s hs => ⟨hs.1, hwrite s hs.2⟩) (.map ?_)
    exact (Bypasses.fence hx hmasked).mono (fun _ hs => hs) fun _ _ hs => ⟨rfl, hs⟩

/-- **Writing the word of a lock comes to its end**, and bypasses every other address. -/
theorem bypasses_privilegedStore {a' : Addr} (ha' : a ≠ a') :
    (b.privilegedStore a v).Bypasses x a' 10 R fun _ => R := by
  have hstore := fun isa : Isa => Bypasses.plainStore hx h.leaves isa ha' h.write
  have hannounced :=
    fun o => Bypasses.apart (a := a') hx (i := .announce o) (Q := fun _ => R) h.leaves rfl rfl
      (fun _ => rfl) fun _ hs => hs
  cases b with
  | native => exact (hstore _).le (by decide)
  | traced => exact ((hannounced _).bind fun _ => hstore _).le (by decide)
  | casOnly => exact ((hannounced _).bind fun _ => hstore _).le (by decide)
  | pair isa => exact (hstore _).le (by decide)
  | singleCore c isa widths => exact (hstore _).le (by decide)
  | globalLock c base =>
    obtain ⟨S, hS, hwrite, hR⟩ := h.lock rfl
    have hmasked : x.Leaves fun s => c.Stands true s ∧ S s := Prog.leaves_stands.and hS.leaves
    have hread : (perform (.read .w64 a)).Bypasses x a' 1 (fun s => c.Stands true s ∧ S s)
        fun _ s => c.Stands true s ∧ S s := by
      refine .instr hx rfl hmasked (fun r e he => ?_) fun _ _ _ hs => hs
      rw [List.mem_singleton.mp he]
      rfl
    refine Bypasses.map (n := 10)
      ((Bypasses.masking hx hS (n := 4) (Q := fun _ => S) (fun _ => hS) ?_).mono
        (fun s hs => (hR s).mp hs) fun _ s hs => (hR s).mpr hs)
    refine Bypasses.bind (n := 1) (k := 3) (.fence hx hmasked) fun _ => ?_
    refine Bypasses.bind (n := 1) (k := 2) hread fun _ => ?_
    refine Bypasses.bind (n := 1) (k := 1)
      (.write hx hmasked ha' fun s hs => ⟨hs.1, hwrite s hs.2⟩) fun _ => ?_
    exact .map (.fence hx hmasked)

end

variable (hx : x.budget = none) (b : Backend)
variable (hspared : b.strategy = .globalLock → x.addr ≠ .globalLock ∧ a ≠ .globalLock)

include hx hspared

/-- **An exchange acts.** -/
theorem acts_exchange (m : Bool) (v : Word w) :
    (b.exchange w a v).Acts x a 40 (b.Stands m) id (fun _ => some v) (b.Stands m) := by
  have hleaves := b.leaves_stands (m := m) hspared
  have hwrite := fun s => b.stands_write (w := w) (m := m) hspared s v
  cases b with
  | native => exact (Acts.swap hx hleaves .x86 hwrite).le (by decide)
  | traced =>
    exact (Acts.announced hx hleaves .exchange (Acts.swap hx hleaves .x86 hwrite)).le (by decide)
  | casOnly =>
    exact (Acts.announced hx hleaves .exchange (Acts.swap hx hleaves .x86 hwrite)).le (by decide)
  | pair isa =>
    have h := Acts.attempts (x := x) (a := a) hx isa (fun _ => True) v Register.toWord
    simp only [Register.toWord_toRegister, if_true] at h
    have hstands : ∀ s, (pair isa).Stands m s := fun s =>
      ⟨fun hc => (by cases isa <;> cases hc), Strategy.noConfusion⟩
    exact (h.le (by decide)).mono (fun _ _ => trivial) fun s _ => hstands s
  | singleCore c isa widths =>
    exact (Acts.fenced hx hleaves (.swap isa) (Acts.swap hx hleaves isa hwrite)).le (by decide)
  | globalLock c base =>
    obtain ⟨hlock, ha⟩ := hspared rfl
    have hsection : Prog.Acts x a (do
        let previous ← perform (.read w a)
        perform (.write w a v)
        return previous) (1 + (1 + 0)) c.Holds id (fun _ => some v) c.Holds :=
      .read hx fun found => .write hx (fun _ hs => hs.write ha v) (.ret fun _ hs => ⟨rfl, hs⟩)
    exact ((Acts.locked hx hlock ha base hsection).le (by decide)).mono
      (fun _ hs => ⟨hs.1, hs.2 rfl⟩) fun _ hs => ⟨hs.1, fun _ => hs.2⟩

/-- **A store comes to its end**, and bypasses every other address. -/
theorem bypasses_store {a' : Addr} (ha' : a ≠ a')
    (hglobal : b.strategy = .globalLock → a' ≠ .globalLock) (m : Bool) (v : Word w) :
    (b.store w a v).Bypasses x a' 40 (b.Stands m) fun _ => b.Stands m := by
  have hleaves := b.leaves_stands (m := m) hspared
  have hwrite := fun s => b.stands_write (w := w) (m := m) hspared s v
  have hstore := fun isa : Isa => Bypasses.plainStore hx hleaves isa ha' hwrite
  have hannounced : (perform (.announce .store)).Bypasses x a' 1 (b.Stands m) fun _ => b.Stands m :=
    .apart hx hleaves rfl rfl (fun _ => rfl) fun _ hs => hs
  cases b with
  | native => exact (hstore _).le (by decide)
  | traced => exact (hannounced.bind fun _ => hstore _).le (by decide)
  | casOnly => exact (hannounced.bind fun _ => hstore _).le (by decide)
  | pair isa => exact (hstore _).le (by decide)
  | singleCore c isa widths => exact (hstore _).le (by decide)
  | globalLock c base =>
    obtain ⟨hlock, ha⟩ := hspared rfl
    have hheld : x.Leaves c.Holds := Prog.leaves_stands.and (OfLock.lockIs hlock 1).leaves
    have hsection : (perform (.write w a v)).Bypasses x a' 1 c.Holds fun _ => c.Holds :=
      .write hx hheld ha' fun _ hs => hs.write ha v
    exact ((Bypasses.locked hx hlock (hglobal rfl) c base hsection).le (by decide)).mono
      (fun _ hs => ⟨hs.1, hs.2 rfl⟩) fun _ _ hs => ⟨hs.1, fun _ => hs.2⟩

end Backend

end Atomicity
