import Atomicity.Proofs.Consists
import Atomicity.Proofs.Interference.Framing
import Atomicity.Proofs.Interference.Operations
import Atomicity.Proofs.Interrupts.GivenBack

/-!
# What the operations on the word of a lock leave alone

To swap the word of a lock stores that word and nothing else (`Backend.testSetLock_onWord`), and
leaves a context as it was but for its exclusive monitor (`RawLock.tryAcquire_passes`): interrupts
are given back, the simulated core belongs to whom it did (`owning.testSetLock`), and nothing is
constructed or logged. It does so under any finite schedule of foreign writes, wherever in the
schedule it begins.
-/

namespace Atomicity

/-- The states differ in memory and in the exclusive monitor only. -/
structure State.Alike (s s' : State) : Prop where
  core : s'.core.unreserved = s.core.unreserved
  owned : s'.shared.coreOwned = s.shared.coreOwned
  once : s'.shared.once = s.shared.once
  log : s'.shared.log = s.shared.log

open Prog Discipline

/-! ## What is constructed and logged -/

/-- Others construct and log nothing. -/
def recording : Discipline Unit where
  env _ s s' := s'.shared.once = s.shared.once ∧ s'.shared.log = s.shared.log
  own _ _ _ _ _ _ := True

namespace recording

/-- The lock is constructed as far as in a state, and the same has been logged. -/
def At (s : State) (_ : Unit) (s' : State) : Prop :=
  s'.shared.once = s.shared.once ∧ s'.shared.log = s.shared.log

theorem admits (x : Interference) : recording.Admits x :=
  Admits.of_writes (D := recording) (fun _ _ => ⟨rfl, rfl⟩) fun _ _ _ _ h => h

theorem apart {α : Type} {p : Prog α} {s : State} (hp : p.All fun i => i.records = false) :
    recording.Leads (At s) p fun _ => At s := by
  refine .all (fun i hi => .instr fun _ _ s₁ refused hs he => ⟨(), trivial, ?_⟩) hp
  obtain ⟨honce, hlog⟩ := i.recorded_of_not_records hi refused s₁
  exact ⟨honce.trans (he.1.trans hs.1), hlog.trans (he.2.trans hs.2)⟩

end recording

/-! ## Who owns the simulated core -/

/-- Others leave the simulated core to whom it is. -/
def owning : Discipline Unit where
  env _ s s' := s'.core.masked = s.core.masked ∧ s'.shared.coreOwned = s.shared.coreOwned
  own _ _ _ _ _ _ := True

namespace owning

/-- The context has its interrupts masked on the simulated core or not, and the core is owned or
not. -/
def At (m o : Bool) (_ : Unit) (s : State) : Prop := s.core.masked = m ∧ s.shared.coreOwned = o

variable {m o : Bool} {α : Type} {p : Prog α}

theorem admits (x : Interference) : owning.Admits x :=
  Admits.of_writes (D := owning) (fun _ _ => ⟨rfl, rfl⟩) fun _ _ _ _ h => h

/-- An instruction of which it is known what it does to the owner of the core. -/
theorem instr {i : Instr} {M : i.Reply → Unit → State → Prop}
    (h : ∀ s refused, At m o () s → M (i.exec refused s).1 () (i.exec refused s).2) :
    owning.Leads (At m o) (perform i) M :=
  .instr fun _ _ s' refused hs he => ⟨(), trivial, h s' refused ⟨he.1.trans hs.1, he.2.trans hs.2⟩⟩

theorem apart (hp : p.All fun i => i.concernsCore = false) :
    owning.Leads (At m o) p fun _ => At m o := by
  refine .all (fun i hi => instr fun s refused hs => ?_) hp
  obtain ⟨hmasked, howned⟩ := i.owner_of_not_concernsCore hi refused s
  exact ⟨hmasked.trans hs.1, howned.trans hs.2⟩

/-- Whoever masks interrupts on the simulated core owns it, if it was free for a context that has to
claim it. -/
theorem hosted_disable (ho : m = false → o = false) :
    owning.Leads (At m o) Controller.hosted.disable fun b g s =>
      b = !m ∧ At true (!m || o) g s := by
  have query : owning.Leads (At m o) (perform .isMasked) fun r g s => r = m ∧ At m o g s :=
    instr fun s refused hs => ⟨hs.1, hs⟩
  refine query.bind fun r => .given fun hr => ?_
  subst hr
  cases r with
  | true => exact .ret fun _ _ hs => ⟨rfl, hs⟩
  | false =>
    obtain rfl := ho rfl
    have claim : owning.Leads (At false false) (Prog.untilTrue (perform .claimCore)) fun _ =>
        At false true := by
      refine .untilTrue (instr fun s refused hs => ?_)
      simp only [Instr.exec]
      split
      · exact ⟨hs.1, rfl⟩
      · exact hs
    have mask : owning.Leads (At false true) (perform (.setMasked true)) fun _ => At true true :=
      instr fun s refused hs => ⟨rfl, hs.2⟩
    exact claim.bind fun _ => mask.bind fun _ => .ret fun _ _ hs => ⟨rfl, hs⟩

theorem hosted_enableIf (ho : m = false → o = false) :
    owning.Leads (At true (!m || o)) (Controller.hosted.enableIf !m) fun _ => At m o := by
  cases m with
  | true => exact .ret fun _ _ hs => hs
  | false =>
    obtain rfl := ho rfl
    have unmask : owning.Leads (At true true) (perform (.setMasked false)) fun _ => At false true :=
      instr fun s refused hs => ⟨rfl, hs.2⟩
    exact unmask.bind fun _ => instr fun s refused hs => ⟨hs.1, rfl⟩

/-- To run a part with interrupts masked leaves the core to whom it was, if it is free for a context
that has to claim it. -/
theorem masking {c : Controller} (ho : c = .hosted → m = false → o = false)
    (hp : p.All fun i => i.concernsCore = false) :
    owning.Leads (At m o) (c.masking p) fun _ => At m o := by
  have others : (c.masking p).All (fun i => i.concernsCore = false) →
      owning.Leads (At m o) (c.masking p) fun _ => At m o := apart
  cases c with
  | line => exact others ⟨rfl, fun _ => hp.bind fun _ => ⟨rfl, fun _ => .ret _⟩⟩
  | arm =>
    refine others ⟨rfl, fun v => ⟨rfl, fun _ => hp.bind fun _ => ?_⟩⟩
    cases (v &&& Core.maskBit == 0) with
    | true => exact ⟨rfl, fun _ => ⟨rfl, fun _ => .ret _⟩⟩
    | false => exact .ret _
  | aarch64 =>
    refine others ⟨rfl, fun v => ⟨rfl, fun _ => hp.bind fun _ => ?_⟩⟩
    cases v with
    | true => exact .ret _
    | false => exact ⟨rfl, fun _ => .ret _⟩
  | x86 =>
    refine others ⟨rfl, fun v => ⟨rfl, fun _ => hp.bind fun _ => ?_⟩⟩
    cases v with
    | true => exact ⟨rfl, fun _ => .ret _⟩
    | false => exact .ret _
  | hosted =>
    refine (hosted_disable (ho rfl)).bind fun b => .given fun hb => (apart hp).bind fun _ => ?_
    subst hb
    exact (hosted_enableIf (ho rfl)).bind fun _ => .ret fun _ _ hs => hs

theorem testSetLock {b : Backend} (a : Addr) (v : Word .w64)
    (ho : b.strategy = .globalLock → b.controller = .hosted → m = false → o = false) :
    owning.Leads (At m o) (b.testSetLock a v) fun _ => At m o := by
  have others : b.strategy ≠ .globalLock →
      owning.Leads (At m o) (b.testSetLock a v) fun _ => At m o :=
    fun hb => apart (b.all_testSetLock (fun _ => rfl) (fun _ => rfl) (fun _ => rfl) (fun _ => rfl)
      (fun _ => rfl) fun h => absurd h hb)
  cases b with
  | globalLock c base => exact masking (ho rfl) (all_swapping rfl rfl rfl)
  | native => exact others Strategy.noConfusion
  | traced => exact others Strategy.noConfusion
  | casOnly => exact others Strategy.noConfusion
  | pair isa => exact others Strategy.noConfusion
  | singleCore c isa widths => exact others Strategy.noConfusion

end owning

/-! ## An attempt to take a lock -/

namespace RawLock

variable {x : Interference} (hx : x.budget = none) (b : Backend) (l : RawLock)

/-- The trace has one instant at which the word of a lock is found and one is put in its place, with
nothing in between, and the context stores nothing else. -/
def SetAt (m : Memory) (tr : List Access) (l : RawLock) (found : Word .w64) : Prop :=
  ∃ before after, tr = before ++ .loaded .w64 l.word found :: .stored .w64 l.word 1 :: after ∧
    (before.foldl Access.apply m).read .w64 l.word = found ∧
    ∀ e ∈ before ++ after, e.isStored = false

theorem SetAt.of_effective {m : Memory} {tr : List Access} {found : Word .w64}
    (h : Effective m tr l.word found (some 1))
    (hstores : ∀ e ∈ tr, e ∈ x.writes ∨ ∃ i r, Instr.OnWord l.word 1 i ∧ e ∈ i.accesses r) :
    SetAt m tr l found := by
  obtain ⟨before, after, htr, hfound, hquiet⟩ := h
  refine ⟨before, after, htr, hfound, fun e he => Bool.eq_false_iff.mpr fun hs => ?_⟩
  have hmem : e ∈ tr := by
    rw [htr]
    rcases List.mem_append.mp he with he | he
    · exact List.mem_append_left _ he
    · exact List.mem_append_right _ (List.mem_cons_of_mem _ (List.mem_append_right _ he))
  -- what it stores is the word of the lock, and that is stored nowhere else
  rcases hstores e hmem with hwrite | ⟨i, r, hi, her⟩
  · rw [Solo.not_isStored_of_isForeign (x.isForeign_of_mem_writes hwrite)] at hs
    cases hs
  · have hother := hquiet e he
    rw [hi.stores r e her hs] at hother
    simp [Access.storesTo] at hother

/-- Where nobody else keeps a context waiting for the simulated core, if it has to mask interrupts
for the word of a lock. -/
def Reachable (b : Backend) (m : Bool) (s : State) : Prop :=
  b.strategy = .globalLock → b.controller.Stands m s

theorem allows_reachable (b : Backend) (m : Bool) (a : Addr) (v : Word .w64) :
    b.Allows x m a v (Reachable b m) where
  leaves _ _ hs hb := hs hb
  write _ hs hb := hs hb
  pair hb _ hglobal := by
    rw [hb] at hglobal
    cases hglobal
  lock hb := ⟨fun _ => True, ⟨fun _ _ _ => trivial, fun _ _ _ => trivial⟩, fun _ _ => trivial,
    fun _ => ⟨fun hs => ⟨hs hb, trivial⟩, fun hs _ => hs.1⟩⟩

include hx

/-- **An attempt to take a lock comes to its end**, answers whether it has found the word zero, and
leaves the context as it was. -/
theorem tryAcquire_passes {s : State} (hs : Reachable b s.core.masked s) :
    (l.tryAcquire b).Passes x 10 s fun ok tr s' =>
      (∃ found, ok = (found == 0) ∧ SetAt s.shared.memory tr l found) ∧ s.Alike s' ∧
        Reachable b s'.core.masked s' := by
  have hrecorded : recording.Leads (recording.At s) (l.tryAcquire b) fun _ => recording.At s :=
    recording.apart ((l.tryAcquire_onWord b).mono fun _ hi => hi.records)
  have howned := (owning.testSetLock (b := b) l.word 1 fun hg hh hm => (hs hg hh).2 hm).bind
    fun r => Leads.ret (a := r == 0) (M := fun _ => owning.At s.core.masked s.shared.coreOwned)
      fun _ _ h => h
  have hflag : (InterruptState.preserving b.controller s.core).Leads
      (InterruptState.Flag b.controller s.core (b.controller.enabled s.core)) (l.tryAcquire b)
      fun _ => InterruptState.Flag b.controller s.core (b.controller.enabled s.core) :=
    (Operates.tryAcquire l).balanced.flag id
  have hacts := Prog.Acts.map (g := fun r : Word .w64 => r == 0)
    (Backend.acts_testSetLock hx (allows_reachable b s.core.masked l.word 1))
  have hswaps := (hacts s hs).all (l.tryAcquire_onWord b)
  have hquiet := hswaps.leads (recording.admits x) hrecorded (g := ()) ⟨rfl, rfl⟩
  have hkept := hquiet.leads (owning.admits x) howned (g := ()) ⟨rfl, rfl⟩
  have hgiven := hkept.leads (InterruptState.preserving_admits _ _ x) hflag (g := ()) (.start _ s)
  refine hgiven.mono ?_
  rintro ok tr s'
    ⟨⟨⟨⟨⟨⟨found, hok, heffect⟩, hreach⟩, hstores⟩, ⟨_, hrecord⟩⟩, ⟨_, hown⟩⟩, ⟨_, hcore⟩⟩
  refine ⟨⟨found, hok, .of_effective l heffect hstores⟩,
    ⟨hcore.unreserved, hown.2, hrecord.1, hrecord.2⟩, ?_⟩
  rwa [hown.1]

end RawLock

end Atomicity
