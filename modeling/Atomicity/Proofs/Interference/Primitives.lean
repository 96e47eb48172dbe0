import Atomicity.Proofs.ExclusivePair
import Atomicity.Proofs.Interference.Passage
import Atomicity.Proofs.Operates

/-!
# The primitive operations under interference

On every backend a load acts at its address, and so does a compare-and-exchange
(`Backend.acts_load`, `Backend.acts_compareExchange`), whatever foreign writes and rejections come
in between; and so does an addition where a backend has one of its own (`Backend.acts_addAtOnce`).

What a backend needs for that is nothing but that no other context keeps it waiting
(`Backend.Unhindered`): the simulated core is free unless the context has its interrupts masked
there, and the global lock is free, and constructed or not begun. Foreign writes then spare the word
of the lock.
-/

namespace Atomicity

/-- On the simulated core, the context has its interrupts masked or not; and nobody owns the core if
not. -/
def Controller.Stands (c : Controller) (masked : Bool) (s : State) : Prop :=
  c = .hosted → s.core.masked = masked ∧ (masked = false → s.shared.coreOwned = false)

/-- The global lock is free, if it has been constructed, and nobody is constructing it. -/
structure State.Lockable (s : State) : Prop where
  once : s.shared.once ≠ .running
  unlocked : s.shared.once = .complete → s.read .w64 .globalLock = 0

/-- The global lock has been constructed, and its word is this. -/
structure State.LockIs (v : Word .w64) (s : State) : Prop where
  once : s.shared.once = .complete
  word : s.read .w64 .globalLock = v

/-- The context is in a section under the global lock: it has its interrupts masked and the lock is
taken. -/
def Controller.Holds (c : Controller) (s : State) : Prop := c.Stands true s ∧ s.LockIs 1

/-- To write another word leaves the global lock held. -/
theorem Controller.Holds.write {c : Controller} {s : State} {w : Width} {a : Addr}
    (ha : a ≠ .globalLock) (v : Word w) (h : c.Holds s) : c.Holds (s.write w a v) :=
  ⟨h.1, h.2.once, (Memory.read_write_of_ne _ _ ha).trans h.2.word⟩

namespace Prog

variable {α β : Type} {x : Interference} {a : Addr} {n : Nat} {c : Controller} {m : Bool}

/-- What is said of a state goes by the global lock and by memory, and survives foreign writes. -/
structure OfLock (x : Interference) (R : State → Prop) : Prop where
  leaves : x.Leaves R
  congr : ∀ {s s' : State}, s'.shared.once = s.shared.once → s'.shared.memory = s.shared.memory →
    R s → R s'

theorem OfLock.lockable (hlock : x.addr ≠ .globalLock) : OfLock x State.Lockable where
  leaves s v hs := ⟨hs.once, fun h => (Memory.read_write_of_ne _ _ hlock).trans (hs.unlocked h)⟩
  congr {s s'} honce hmemory hs := by
    refine ⟨honce ▸ hs.once, fun h => ?_⟩
    rw [State.read, hmemory]
    exact hs.unlocked (honce ▸ h)

theorem OfLock.lockIs (hlock : x.addr ≠ .globalLock) (v : Word .w64) :
    OfLock x (State.LockIs v) where
  leaves s u hs := ⟨hs.once, (Memory.read_write_of_ne _ _ hlock).trans hs.word⟩
  congr {s s'} honce hmemory hs := by
    refine ⟨honce.trans hs.once, ?_⟩
    rw [State.read, hmemory]
    exact hs.word

theorem leaves_stands : x.Leaves (c.Stands m) := fun _ _ hs => hs

section

variable {R S : State → Prop} {p : Prog α} (hx : x.budget = none) (hR : OfLock x R)

/-- One instruction and another. -/
theorem Bypasses.two {i : Instr} {j : i.Reply → Instr} {k : ∀ r, (j r).Reply → α}
    (hi : (perform i).Bypasses x a 1 R fun _ => R)
    (hj : ∀ r, (perform (j r)).Bypasses x a 1 R fun _ => R) :
    ((perform i).bind fun r => (perform (j r)).bind fun u => .ret (k r u)).Bypasses x a 2 R
      fun _ => R :=
  Bypasses.bind (n := 1) (k := 1) hi fun r => Bypasses.map (hj r)

include hx

/-! ## Controllers -/

/-- An instruction that is none of memory. -/
theorem Bypasses.apart {i : Instr} {Q : i.Reply → State → Prop} (hR : x.Leaves R)
    (hu : i.entersUpdate = false) (hs : i.storesExclusively = false)
    (hmemory : ∀ r, i.accesses r = [])
    (h : ∀ s, R s → Q (i.exec false s).1 (i.exec false s).2) : (perform i).Bypasses x a 1 R Q := by
  refine .instr hx hu hR (fun r _ he => absurd (hmemory r ▸ he) List.not_mem_nil) ?_
  intro refused s hrefused hRs
  rw [hrefused hs]
  exact h s hRs

include hR

/-- An instruction on what a context has for itself. -/
theorem Bypasses.own {i : Instr} (hu : i.entersUpdate = false) (hs : i.storesExclusively = false)
    (hmemory : ∀ r, i.accesses r = []) (hshared : ∀ s, (i.exec false s).2.shared = s.shared) :
    (perform i).Bypasses x a 1 R fun _ => R := by
  refine .apart hx hR.leaves hu hs hmemory fun s h => hR.congr ?_ ?_ h
  · rw [hshared]
  · rw [hshared]

/-- To disable interrupts on the simulated core is to own it, and to be answered whether that was
so. -/
theorem Bypasses.disable_hosted : (Controller.hosted.disable).Bypasses x a 4
    (fun s => Controller.hosted.Stands m s ∧ R s)
    fun b s => b = !m ∧ Controller.hosted.Stands true s ∧ R s := by
  refine Bypasses.bind (n := 1) (k := 3)
    (Q := fun r s => r = m ∧ Controller.hosted.Stands m s ∧ R s)
    (.apart hx (leaves_stands.and hR.leaves) rfl rfl (fun _ => rfl) fun s h => ⟨(h.1 rfl).1, h⟩) ?_
  rintro r s ⟨rfl, hs⟩
  cases r with
  | true =>
    exact Bypasses.ret (n := 3) (R := fun s => Controller.hosted.Stands true s ∧ R s)
      (fun s hs => ⟨rfl, hs⟩) s hs
  | false =>
    let Owned : State → Prop := fun s => s.core.masked = false ∧ R s
    have hclaim : (Prog.untilTrue (perform .claimCore)).Bypasses x a 2
        (fun s => Controller.hosted.Stands false s ∧ R s) fun _ => Owned := by
      refine .untilTrue
        (.apart hx (leaves_stands.and hR.leaves) rfl rfl (fun _ => rfl) fun s h => ?_)
      obtain ⟨hmasked, howned⟩ := h.1 rfl
      simp only [Instr.exec, howned rfl, and_self, if_true, true_and]
      exact ⟨hmasked, hR.congr (s := s) rfl rfl h.2⟩
    refine Bypasses.bind (n := 2) (k := 1) hclaim (fun _ => ?_) s hs
    refine Bypasses.map (n := 1) (.apart hx ?_ rfl rfl (fun _ => rfl) fun s h => ?_)
    · exact fun s v h => ⟨h.1, hR.leaves s v h.2⟩
    · exact ⟨rfl, fun _ => ⟨rfl, Bool.noConfusion⟩, hR.congr (s := s) rfl rfl h.2⟩

/-- **To disable interrupts is to have them masked**, and on the simulated core to be answered
whether that was so. -/
theorem Bypasses.disable (c : Controller) (m : Bool) : c.disable.Bypasses x a 4
    (fun s => c.Stands m s ∧ R s) fun b s => (c = .hosted → b = !m) ∧ c.Stands true s ∧ R s := by
  -- the flags of every other controller are the context's own
  have others : c ≠ .hosted → c.disable.Bypasses x a 2 R (fun _ => R) →
      c.disable.Bypasses x a 4 (fun s => c.Stands m s ∧ R s)
        fun b s => (c = .hosted → b = !m) ∧ c.Stands true s ∧ R s := fun hc h =>
    (h.le (by decide)).mono (fun _ hs => hs.2) fun _ _ hs =>
      ⟨fun e => absurd e hc, fun e => absurd e hc, hs⟩
  have own {i : Instr} := Bypasses.own (a := a) hx hR (i := i)
  cases c with
  | line =>
    exact others Controller.noConfusion (.le (own rfl rfl (fun _ => rfl) fun _ => rfl) (by decide))
  | hosted => exact (disable_hosted hx hR).mono (fun _ hs => hs) fun _ _ hs => ⟨fun _ => hs.1, hs.2⟩
  | arm =>
    exact others Controller.noConfusion
      (two (own rfl rfl (fun _ => rfl) fun _ => rfl) fun _ =>
        own rfl rfl (fun _ => rfl) fun _ => rfl)
  | aarch64 =>
    exact others Controller.noConfusion
      (two (own rfl rfl (fun _ => rfl) fun _ => rfl) fun _ =>
        own rfl rfl (fun _ => rfl) fun _ => rfl)
  | x86 =>
    exact others Controller.noConfusion
      (two (own rfl rfl (fun _ => rfl) fun _ => rfl) fun _ =>
        own rfl rfl (fun _ => rfl) fun _ => rfl)

/-- To give the simulated core up is to own it no more. -/
theorem Bypasses.enableIf_hosted (b : Bool) : (Controller.hosted.enableIf b).Bypasses x a 2
    (fun s => Controller.hosted.Stands true s ∧ R s) fun _ s =>
      Controller.hosted.Stands (!b) s ∧ R s := by
  cases b with
  | false => exact .ret fun _ hs => hs
  | true =>
    let Unmasked : State → Prop := fun s => s.core.masked = false ∧ R s
    have hunmask : (perform (.setMasked false)).Bypasses x a 1
        (fun s => Controller.hosted.Stands true s ∧ R s) fun _ => Unmasked :=
      .apart hx (leaves_stands.and hR.leaves) rfl rfl (fun _ => rfl) fun s h =>
        ⟨rfl, hR.congr (s := s) rfl rfl h.2⟩
    refine Bypasses.bind (n := 1) (k := 1) hunmask fun _ => ?_
    refine .apart hx (fun s v h => ⟨h.1, hR.leaves s v h.2⟩) rfl rfl (fun _ => rfl) fun s h => ?_
    exact ⟨fun _ => ⟨h.1, fun _ => rfl⟩, hR.congr (s := s) rfl rfl h.2⟩

/-- **To give interrupts back is to stand where one stood before the matching `disable`.** -/
theorem Bypasses.enableIf (c : Controller) (m b : Bool) (hb : c = .hosted → b = !m) :
    (c.enableIf b).Bypasses x a 2 (fun s => c.Stands true s ∧ R s) fun _ s =>
      c.Stands m s ∧ R s := by
  have others : c ≠ .hosted → (c.enableIf b).Bypasses x a 2 R (fun _ => R) →
      (c.enableIf b).Bypasses x a 2 (fun s => c.Stands true s ∧ R s) fun _ s =>
        c.Stands m s ∧ R s :=
    fun hc h => h.mono (fun _ hs => hs.2) fun _ _ hs => ⟨fun e => absurd e hc, hs⟩
  have own {i : Instr} := Bypasses.own (a := a) hx hR (i := i)
  have ret : (Prog.ret ()).Bypasses x a 2 R fun _ => R := .ret fun _ hs => hs
  cases c with
  | line =>
    exact others Controller.noConfusion
      (.le (own rfl rfl (fun _ => rfl) fun s => by cases b <;> rfl) (by decide))
  | hosted =>
    rw [hb rfl]
    exact (enableIf_hosted hx hR (!m)).mono (fun _ hs => hs) fun _ _ hs => Bool.not_not m ▸ hs
  | arm =>
    cases b with
    | false => exact others Controller.noConfusion ret
    | true =>
      refine others Controller.noConfusion
        (Bypasses.bind (n := 1) (k := 1) (Q := fun _ => R) ?_ fun _ => ?_)
      · exact own rfl rfl (fun _ => rfl) fun _ => rfl
      · exact own rfl rfl (fun _ => rfl) fun _ => rfl
  | aarch64 =>
    cases b with
    | false => exact others Controller.noConfusion ret
    | true =>
      exact others Controller.noConfusion
        (.le (own rfl rfl (fun _ => rfl) fun _ => rfl) (by decide))
  | x86 =>
    cases b with
    | false => exact others Controller.noConfusion ret
    | true =>
      exact others Controller.noConfusion
        (.le (own rfl rfl (fun _ => rfl) fun _ => rfl) (by decide))

/-! ## With interrupts masked -/

theorem Bypasses.masking {Q : α → State → Prop} (hQ : ∀ r, OfLock x (Q r))
    (h : p.Bypasses x a n (fun s => c.Stands true s ∧ R s) fun r s => c.Stands true s ∧ Q r s) :
    (c.masking p).Bypasses x a (n + 6) (fun s => c.Stands m s ∧ R s) fun r s =>
      c.Stands m s ∧ Q r s := by
  refine Bypasses.le (n := 4 + (n + 2)) ?_ (by omega)
  refine Bypasses.bind (Bypasses.disable hx hR c m) fun b s hs => ?_
  refine Bypasses.bind (n := n) (k := 2) h (fun r => ?_) s hs.2
  refine Bypasses.map
    ((Bypasses.enableIf hx (hQ r) c m b hs.1).mono (fun _ ht => ht) fun _ _ ht => ht)

/-- **A program acts with interrupts masked as it does.** -/
theorem Acts.masking {w : Width} {answer : Word w → α} {written : Word w → Option (Word w)}
    (hS : OfLock x S) (h : p.Acts x a n (fun s => c.Stands true s ∧ R s) answer written fun s =>
      c.Stands true s ∧ S s) :
    (c.masking p).Acts x a (n + 6) (fun s => c.Stands m s ∧ R s) answer written
      fun s => c.Stands m s ∧ S s := by
  refine Acts.le (n := 4 + (n + 2)) ?_ (by omega)
  refine Acts.after (Bypasses.disable hx hR c m) fun b s hs => ?_
  refine Acts.before (g := id) h (fun r => ?_) s hs.2
  refine Bypasses.map
    ((Bypasses.enableIf hx hS c m b hs.1).mono (fun _ ht => ht) fun _ _ ht => ⟨rfl, ht⟩)

end

/-! ## Sections under the global lock -/

section

variable (hx : x.budget = none) (hlock : x.addr ≠ .globalLock) (ha : a ≠ .globalLock)

include hx hlock ha

/-- A swap of the word of the global lock, with interrupts masked. -/
theorem Bypasses.maskedSwap (c : Controller) (isa : Isa) (u v : Word .w64) :
    (Backend.maskedSwap c isa .globalLock v).Bypasses x a 10
      (fun s => c.Stands m s ∧ s.LockIs u) fun r s => c.Stands m s ∧ r = u ∧ s.LockIs v := by
  have hu := OfLock.lockIs hlock u
  have hv := OfLock.lockIs hlock v
  let At : Word .w64 → State → Prop := fun v s => c.Stands true s ∧ s.LockIs v
  have leaves : ∀ v, x.Leaves (At v) := fun v => leaves_stands.and (OfLock.lockIs hlock v).leaves
  refine Bypasses.masking hx hu (n := 4) (Q := fun r s => r = u ∧ s.LockIs v) (fun r => ?_) ?_
  · exact ⟨fun s w hs => ⟨hs.1, hv.leaves s w hs.2⟩, fun ho hm hs => ⟨hs.1, hv.congr ho hm hs.2⟩⟩
  · refine Bypasses.bind (n := 1) (k := 3) (.fence hx (leaves u)) fun _ => ?_
    refine Bypasses.bind (n := 1) (k := 2) (Q := fun r s => r = u ∧ At u s)
      (.instr hx rfl (leaves u) (fun r e he => ?_) fun _ s _ hs => ⟨hs.2.word, hs⟩) ?_
    · rw [List.mem_singleton.mp he]
      rfl
    · rintro r s ⟨rfl, hs⟩
      refine Bypasses.bind (n := 1) (k := 1) (Q := fun _ => At v)
        (.instr (i := .write .w64 .globalLock v) hx rfl (leaves r) (fun _ e he => ?_)
          fun _ s _ hs => ⟨hs.1, hs.2.once, State.read_write_self _ _ _ _⟩) (fun _ => ?_) s hs
      · rw [List.mem_singleton.mp he]
        simp [Access.storesTo, ha.symm]
      · exact Bypasses.map ((Bypasses.fence hx (leaves v)).mono (fun _ ht => ht) fun _ _ ht =>
          ⟨ht.1, rfl, ht.2⟩)

/-- The lock is found constructed, or is constructed now. -/
theorem Bypasses.construct : (GlobalLock.construct (return ())).Bypasses x a 3
    (fun s => c.Stands m s ∧ s.Lockable) fun _ s => c.Stands m s ∧ s.LockIs 0 := by
  let Begun : OnceStatus → State → Prop := fun r s =>
    c.Stands m s ∧ (r = .complete ∧ s.LockIs 0 ∨ r = .incomplete)
  have hbegin :
      (perform .startConstruction).Bypasses x a 1 (fun s => c.Stands m s ∧ s.Lockable) Begun := by
    refine .apart hx (leaves_stands.and (OfLock.lockable hlock).leaves) rfl rfl (fun _ => rfl)
      fun s hs => ?_
    cases honce : s.shared.once with
    | running => exact absurd honce hs.2.once
    | complete =>
      simp only [Instr.exec, honce]
      exact ⟨hs.1, .inl ⟨rfl, honce, hs.2.unlocked honce⟩⟩
    | incomplete =>
      simp only [Instr.exec, honce]
      exact ⟨hs.1, .inr rfl⟩
  refine .iterate (Bypasses.bind (n := 1) (k := 1) hbegin fun r => ?_)
  rintro s ⟨hs, ⟨rfl, hlocked⟩ | rfl⟩
  · exact Passes.ret ⟨fun _ he => absurd he List.not_mem_nil, (), rfl, hs, hlocked⟩
  · refine Bypasses.map (n := 1)
      (.instr (i := .endConstruction) hx rfl leaves_stands (fun _ e he => ?_)
      fun _ s _ hs => ⟨(), rfl, hs, rfl, State.read_write_self _ _ _ _⟩) s hs
    rw [List.mem_singleton.mp he]
    simp [Access.storesTo, ha.symm]

/-- A lock that is free is taken at the first attempt. -/
theorem Bypasses.acquire (c : Controller) (base : Backend) :
    (RawLock.global.acquire (.globalLock c base)).Bypasses x a 11
      (fun s => c.Stands m s ∧ s.LockIs 0) fun _ s => c.Stands m s ∧ s.LockIs 1 := by
  refine .untilTrue
    (.map ((Bypasses.maskedSwap hx hlock ha c base.barrier 0 1).mono (fun _ hs => hs) ?_))
  rintro r s ⟨hs, rfl, hword⟩
  exact ⟨rfl, hs, hword⟩

theorem Bypasses.release (c : Controller) (base : Backend) :
    (RawLock.global.release (.globalLock c base)).Bypasses x a 10
      (fun s => c.Stands m s ∧ s.LockIs 1) fun _ s => c.Stands m s ∧ s.LockIs 0 :=
  .map ((Bypasses.maskedSwap hx hlock ha c base.barrier 1 0).mono (fun _ hs => hs) fun _ _ hs =>
    ⟨hs.1, hs.2.2⟩)

/-- **A section under the global lock acts as its program does while the lock is held.** -/
theorem Acts.locked (base : Backend) {p : Prog α} {w : Width} {answer : Word w → α}
    {written : Word w → Option (Word w)}
    (h : p.Acts x a n c.Holds answer written c.Holds) :
    (GlobalLock.locked c base p).Acts x a (n + 34) (fun s => c.Stands m s ∧ s.Lockable)
      answer written fun s => c.Stands m s ∧ s.Lockable := by
  have lockable := OfLock.lockable hlock
  have lockIs := OfLock.lockIs hlock
  have hopen : x.Leaves fun s => c.Stands m s ∧ s.LockIs 0 := leaves_stands.and (lockIs 0).leaves
  have hheld : x.Leaves fun s => c.Stands true s ∧ s.LockIs 1 := leaves_stands.and (lockIs 1).leaves
  have hsection : Prog.Acts x a (do
      GlobalLock.construct (return ())
      RawLock.global.acquire (.globalLock c base)
      base.fence
      let r ← p
      base.fence
      RawLock.global.release (.globalLock c base)
      return r) (n + 26) (fun s => c.Stands true s ∧ s.Lockable) answer written
      fun s => c.Stands true s ∧ s.LockIs 0 := by
    refine Acts.le (n := 3 + (11 + (1 + (n + (1 + 10))))) ?_ (by omega)
    refine .after (Bypasses.construct hx hlock ha) fun _ => ?_
    refine .after (Bypasses.acquire hx hlock ha c base) fun _ => ?_
    refine .after (.fence hx hheld) fun _ => .before (g := id) h fun r => ?_
    refine .bind (.fence hx hheld) fun _ => .map ?_
    exact (Bypasses.release hx hlock ha c base).mono (fun _ hs => hs) fun _ _ hs => ⟨rfl, hs⟩
  refine Acts.le (n := 1 + (n + 26 + 6 + 1)) ?_ (by omega)
  refine .after (Q := fun _ s => c.Stands m s ∧ s.Lockable) ?_ fun _ => ?_
  · exact .apart hx (leaves_stands.and lockable.leaves) rfl rfl (fun _ => rfl) fun _ hs => hs
  · refine .before (g := id) (Acts.masking hx lockable (lockIs 0) hsection) fun r => .map ?_
    refine .apart hx hopen rfl rfl (fun _ => rfl) fun s hs => ⟨rfl, hs.1, ?_, fun _ => hs.2.word⟩
    rw [Instr.exec, hs.2.once]
    exact OnceStatus.noConfusion

end

/-! ## Accesses -/

section

variable {w : Width} {R : State → Prop} (hx : x.budget = none) (hleaves : x.Leaves R)

include hx

section

include hleaves

/-- A read between two fences. -/
theorem Acts.plainLoad (isa : Isa) : (isa.load w a).Acts x a 3 R id (fun _ => none) R := by
  refine Acts.after (n := 1) (k := 2) (.fence hx hleaves) fun _ =>
    .read (n := 1) hx fun found => .none ?_
  exact Bypasses.map ((Bypasses.fence hx hleaves).mono (fun _ hs => hs) fun _ _ hs => ⟨rfl, hs⟩)

/-- To announce an operation changes nothing about it. -/
theorem Acts.announced {p : Prog α} {answer : Word w → α} {written : Word w → Option (Word w)}
    (operation : Primitive) (h : p.Acts x a n R answer written R) :
    (Native.announced operation p).Acts x a (1 + n) R answer written R :=
  .after (.apart hx hleaves rfl rfl (fun _ => rfl) fun _ hs => hs) fun _ => h

end

section

variable (hwrite : ∀ s (v : Word w), R s → R (s.write w a v)) (expected desired v : Word w)

include hwrite

/-- The native instruction. -/
theorem Acts.nativeCompareExchange : (Native.compareExchange w a expected desired).Acts x a 1 R
    (Comparison.ofFound expected)
    (fun found => if found = expected then some desired else none) R := by
  refine .map (.unseen hx rfl (fun _ => rfl) (fun _ _ => rfl) (fun found => ?_) fun _ s hs => ?_)
  · simp only [Instr.accesses]
    split <;> rfl
  · simp only [Instr.exec]
    split
    · exact hwrite s desired hs
    · exact hs

/-- The native instruction. -/
theorem Acts.nativeFetchAdd :
    (Native.fetchAdd w a v).Acts x a 1 R id (fun found => some (found + v)) R :=
  .unseen hx rfl (fun _ => rfl) (fun _ _ => rfl) (fun _ => rfl) fun _ s hs => hwrite s _ hs

/-- A plain read and a plain write, or none. -/
theorem Acts.plainCompareExchange {k : Word w → Prog α} {answer : Word w → α} {S : State → Prop}
    (hk : ∀ found, (k found).Bypasses x a n R fun r s => r = answer found ∧ S s) :
    ((perform (.read w a)).bind fun found =>
      (Prog.when (found = expected) (perform (.write w a desired))).bind fun _ => k found).Acts x a
        (n + 2) R answer (fun found => if found = expected then some desired else none) S :=
  Acts.le (n := 1 + (1 + n))
    (.read hx fun found => .writeWhen hx (fun s hs => hwrite s desired hs) (hk found)) (by omega)

end

/-- The rounds of an exclusive pair, wherever they are begun. -/
theorem Acts.attempts (isa : PairIsa) (wanted : Register w → Prop)
    [DecidablePred wanted] (v : Word w) (answer : Register w → α) :
    (isa.attempts w a wanted (Word.toRegister v) answer).Acts x a 5 (fun _ => True)
      (fun found => answer (Word.toRegister found))
      (fun found => if wanted (Word.toRegister found) then some v else none) fun _ => True := by
  intro s _ β next c hc hs
  obtain ⟨repeats, tr, d, word, hsteps, hd, hpassed⟩ :=
    PairIsa.attempts_passed hx isa a wanted v answer next hc
  have hused := hpassed.used
  refine ⟨_, tr, _, d, by omega, hsteps, hd, hpassed.updates, ⟨word, rfl, ?_⟩, trivial⟩
  obtain ⟨before, after, htr, hword, hbefore, hafter⟩ := hpassed.instant
  refine ⟨before, after, ?_, hs ▸ hword, fun e he => ?_⟩
  · rw [htr, Register.toWord_toRegister]
    by_cases h : wanted (Word.toRegister word)
    · simp [h]
    · simp [h]
  · rcases List.mem_append.mp he with he | he
    · exact Access.storesTo_of_not_isStored (hbefore e he) a
    · exact Access.storesTo_of_isForeign (hafter e he) a

end

end Prog

/-! ## Backends -/

namespace Backend

open Prog

variable {x : Interference} {a : Addr} {w : Width} {m : Bool} {s : State}

/-- No other context keeps this one waiting in an operation of the backend, and if the backend is
under the global lock, neither the operand nor a foreign write is at the word of that. -/
structure Unhindered (b : Backend) (x : Interference) (a : Addr) (s : State) : Prop where
  core : b.controller = .hosted → s.core.masked = false → s.shared.coreOwned = false
  lock : b.strategy = .globalLock → s.Lockable
  spared : b.strategy = .globalLock → x.addr ≠ .globalLock ∧ a ≠ .globalLock

/-- Where the context stands with the controller of a backend, between two operations. -/
def Stands (b : Backend) (m : Bool) (s : State) : Prop :=
  b.controller.Stands m s ∧ (b.strategy = .globalLock → s.Lockable)

theorem Unhindered.stands {b : Backend} (h : b.Unhindered x a s) : b.Stands s.core.masked s :=
  ⟨fun hc => ⟨rfl, h.core hc⟩, h.lock⟩

section

variable (hx : x.budget = none) (b : Backend)
  (hspared : b.strategy = .globalLock → x.addr ≠ .globalLock ∧ a ≠ .globalLock)

include hspared

theorem ofLock : OfLock x fun s => b.strategy = .globalLock → s.Lockable where
  leaves s v hs hb := (OfLock.lockable (hspared hb).1).leaves s v (hs hb)
  congr ho hm hs hb := (OfLock.lockable (x := x) (hspared hb).1).congr ho hm (hs hb)

theorem leaves_stands : x.Leaves (b.Stands m) := Prog.leaves_stands.and (b.ofLock hspared).leaves

theorem stands_write (s : State) (v : Word w) (h : b.Stands m s) : b.Stands m (s.write w a v) := by
  refine ⟨h.1, fun hb => ⟨(h.2 hb).once, fun ho => ?_⟩⟩
  exact (Memory.read_write_of_ne _ _ (hspared hb).2).trans ((h.2 hb).unlocked ho)

include hx

/-- **A load acts.** -/
theorem acts_load (m : Bool) (w : Width) :
    (b.load w a).Acts x a 40 (b.Stands m) id (fun _ => none) (b.Stands m) := by
  have hleaves := b.leaves_stands (m := m) hspared
  cases b with
  | native => exact (Acts.plainLoad hx hleaves _).le (by decide)
  | traced => exact (Acts.announced hx hleaves .load (Acts.plainLoad hx hleaves _)).le (by decide)
  | casOnly => exact (Acts.announced hx hleaves .load (Acts.plainLoad hx hleaves _)).le (by decide)
  | pair isa => exact (Acts.plainLoad hx hleaves _).le (by decide)
  | singleCore c isa widths => exact (Acts.plainLoad hx hleaves _).le (by decide)
  | globalLock c base =>
    obtain ⟨hlock, ha⟩ := hspared rfl
    have hread : (perform (.read w a)).Acts x a 1 c.Holds id (fun _ => none) c.Holds :=
      .unseen hx rfl (fun _ => rfl) (fun _ _ => rfl) (fun _ => rfl) fun _ _ hs => hs
    exact ((Acts.locked hx hlock ha base hread).le (by decide)).mono (fun _ hs => ⟨hs.1, hs.2 rfl⟩)
      fun _ hs => ⟨hs.1, fun _ => hs.2⟩

/-- **A compare-and-exchange acts**: it writes if it finds the word expected, and answers which it
found. -/
theorem acts_compareExchange (m : Bool) (expected desired : Word w) :
    (b.compareExchange w a expected desired).Acts x a 40 (b.Stands m) (Comparison.ofFound expected)
      (fun found => if found = expected then some desired else none) (b.Stands m) := by
  have hleaves := b.leaves_stands (m := m) hspared
  have hwrite := b.stands_write (w := w) (m := m) hspared
  cases b with
  | native => exact (Acts.nativeCompareExchange hx hwrite expected desired).le (by decide)
  | traced =>
    exact (Acts.announced hx hleaves .compareExchange
      (Acts.nativeCompareExchange hx hwrite expected desired)).le (by decide)
  | casOnly =>
    exact (Acts.announced hx hleaves .compareExchange
      (Acts.nativeCompareExchange hx hwrite expected desired)).le (by decide)
  | pair isa =>
    have h := Acts.attempts (x := x) (a := a) hx isa (· = Word.toRegister expected) desired
      fun found => Comparison.ofFound expected (Register.toWord found)
    simp only [Register.toWord_toRegister, Word.toRegister_inj] at h
    have hstands : ∀ s, (pair isa).Stands m s := fun s =>
      ⟨fun hc => (by cases isa <;> cases hc), Strategy.noConfusion⟩
    exact (h.le (by decide)).mono (fun _ _ => trivial) fun s _ => hstands s
  | singleCore c isa widths =>
    have hmasked := (singleCore c isa widths).leaves_stands (m := true) hspared
    refine (Acts.masking hx (ofLock _ hspared) (n := 1 + (1 + 2)) (ofLock _ hspared) ?_).le
      (by decide)
    refine .after (.fence hx hmasked) fun _ => .plainCompareExchange (n := 1) hx
      ((singleCore c isa widths).stands_write hspared) expected desired fun found => ?_
    exact .map ((Bypasses.fence hx hmasked).mono (fun _ hs => hs) fun _ _ hs => ⟨rfl, hs⟩)
  | globalLock c base =>
    obtain ⟨hlock, ha⟩ := hspared rfl
    have hsection := Acts.plainCompareExchange (n := 0) (R := c.Holds) (S := c.Holds) hx
      (fun _ v hs => hs.write ha v) expected desired
      (k := fun found => .ret (Comparison.ofFound expected found)) fun found =>
        .ret fun _ hs => ⟨rfl, hs⟩
    exact ((Acts.locked hx hlock ha base hsection).le (by decide)).mono
      (fun _ hs => ⟨hs.1, hs.2 rfl⟩) fun _ hs => ⟨hs.1, fun _ => hs.2⟩

/-- **An addition at once acts.** -/
theorem acts_addAtOnce (m : Bool) (hb : b.addsAtOnce = true) (v : Word w) :
    (b.fetchAdd w a v).Acts x a 40 (b.Stands m) id (fun found => some (found + v))
      (b.Stands m) := by
  have hleaves := b.leaves_stands (m := m) hspared
  have hwrite := b.stands_write (w := w) (m := m) hspared
  cases b with
  | native => exact (Acts.nativeFetchAdd hx hwrite v).le (by decide)
  | traced =>
    exact (Acts.announced hx hleaves .fetchAdd (Acts.nativeFetchAdd hx hwrite v)).le (by decide)
  | globalLock c base =>
    obtain ⟨hlock, ha⟩ := hspared rfl
    have hsection : Prog.Acts x a (do
        let previous ← perform (.read w a)
        perform (.write w a (previous + v))
        return previous) (1 + (1 + 0)) c.Holds id (fun found => some (found + v)) c.Holds :=
      .read hx fun found =>
        .write hx (fun _ hs => hs.write ha (found + v)) (.ret fun _ hs => ⟨rfl, hs⟩)
    exact ((Acts.locked hx hlock ha base hsection).le (by decide)).mono
      (fun _ hs => ⟨hs.1, hs.2 rfl⟩) fun _ hs => ⟨hs.1, fun _ => hs.2⟩
  | casOnly => cases hb
  | pair isa => cases hb
  | singleCore c isa widths => cases hb

end

end Backend

end Atomicity
