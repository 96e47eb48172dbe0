import Atomicity.Proofs.Interference.LockWord
import Atomicity.Proofs.Interrupts.Guards
import Atomicity.Proofs.Lock.Lifetime
import Atomicity.Proofs.Lock.Tally

/-!
# The life cycle of a spin lock

`SpinLock.Lived` is a session in which a lock has come to some lifetime, from the moment that it was
made, with any steps elsewhere in between. Who has to wait for the lock asks for it only while it is
free.

**The life cycle** (`SpinLock.life_cycle`), on every backend, is what can be said at any point of
it. The session has the lock as its lifetime says. Whatever is asked next is refused by that
lifetime, or answered as it has it. A guard that ends frees the lock once, also where a section is
left early, and the lock is then taken at once; and an attempt that fails changes nothing.

Sessions do what the machine of words does (`Session.spin_answers`), so that they keep `Stands` is
what that machine keeps.
-/

namespace Atomicity

open Prog

/-- The memory of a session and its guards. -/
def Session.words (σ : Session) : WordMachine := ⟨σ.state.shared.memory, σ.guards.names⟩

theorem Session.words_of_matches {σ : Session} {y : WordMachine} (h : σ.Matches y) :
    σ.words = y := by
  obtain ⟨m, gs⟩ := y
  obtain ⟨-, -, rfl, rfl⟩ := h
  rfl

namespace SpinLock

variable {t : Scalar} {l : SpinLock t} {x : Lifetime t}

/-- The words of the lock are two, and neither is that of the global lock. -/
structure Apart (l : SpinLock t) : Prop where
  lock : l.lock.word ≠ .globalLock
  data : l.data ≠ .globalLock
  apart : l.data ≠ l.lock.word

/-- Nothing is going on in a session, and it has the lock as its lifetime says. -/
structure Stands (l : SpinLock t) (x : Lifetime t) (σ : Session) : Prop where
  settled : σ.state.Settled
  unlocked : σ.state.shared.memory.Unlocked
  agrees : l.Agrees x σ.words

end SpinLock

/-- The operation drops a guard. -/
def SpinOp.drops {t : Scalar} : SpinOp t → Bool
  | unlock _ | brief .. => true
  | _ => false

/-- To drop a guard leaves the lock free. -/
theorem SpinOp.read_of_drops {t : Scalar} {op : SpinOp t} (h : op.drops = true) (l : RawLock)
    (d : Addr) (m : Memory) :
    (op.effect l d m).2.read .w64 l.word = 0 := by
  cases op with
  | unlock name => exact m.read_write_self ..
  | brief masked v => exact Memory.read_write_self ..
  | _ => cases h

theorem SpinOp.waits_iff {t : Scalar} (op : SpinOp t) (l : RawLock) (d : Addr) (m : Memory) :
    (Request.spin l d op).waits m = (op.waits && m.read .w64 l.word != 0) := by
  cases op <;> rfl

/-! ## Sessions -/

/-- A step that is performed was not refused. -/
theorem Session.refusal?_of_perform {σ : Session} {i : Interference} {st : Step} {o : Outcome}
    (h : σ.perform i st = .ok o) : st.refusal? σ.guards = none := by
  unfold perform at h
  split at h
  · cases h
  · next hrefusal => exact hrefusal

/-- What a program without construction or logging leaves of those when it has answered. -/
theorem recording.result {α : Type} {p : Prog α} (hp : p.All fun i => i.records = false) {s : State}
    (i : Interference) (n : Nat) {r : α} (hr : ((Solo.start p s).run i n).result? = some r) :
    recording.At s () ((Solo.start p s).run i n).state := by
  obtain ⟨g, -, hresult⟩ := (recording.apart hp () s ⟨rfl, rfl⟩).run (I := fun _ _ _ => True)
    (recording.admits i) (fun _ _ _ _ _ _ _ _ _ _ => trivial) n trivial
  exact hresult r hr

/-- An attempt that fails leaves the guards as they are. -/
theorem SpinOp.guards_of_failed {t : Scalar} {l : SpinLock t} {gs : LiveGuards}
    {name : String} {s : State} {r : Option Answer × LiveGuards}
    (hr : (((tryAcquire name).prog l gs).alone s).result? = some r)
    (hanswer : r.1 = some (.truth false)) : r.2 = gs := by
  obtain ⟨_, _, hevaluates⟩ := evaluates_of_run hr
  obtain ⟨_, _, g?, _, -, hrest, -⟩ := Evaluates.of_bind hevaluates
  cases g? with
  | none =>
    cases hrest
    rfl
  | some g =>
    cases hrest
    cases hanswer

/-- An operation on a spin lock that is neither refused nor has to wait is answered, and leaves what
the machine of words has for it. -/
theorem Session.spin_answers {t : Scalar} {l : SpinLock t} (hl : l.Apart) {σ : Session}
    (hs : σ.state.Settled) (hm : σ.state.shared.memory.Unlocked) (op : SpinOp t)
    (hlive : op.refusal? l σ.guards = none)
    (hfree : op.waits = true → σ.state.read .w64 l.lock.word = 0) :
    ∃ o, σ.perform .none (.spin l op) = .ok o ∧
      o.answer = some (op.effect l.lock l.data σ.state.shared.memory).1 ∧ o.session.state.Settled ∧
      o.session.state.shared.memory.Unlocked ∧
      o.session.words = σ.words.next (.spin l.lock l.data op) := by
  have hmatches : σ.Matches σ.words := ⟨hs, hm, rfl, rfl⟩
  have haddrs : .globalLock ∉ (Step.spin l op).request.addrs := by
    simp [Step.request, Request.addrs, hl.lock.symm, hl.data.symm]
  have hobserve : σ.words.observe (Step.spin l op).request = .ok (.answered
      (some (op.effect l.lock l.data σ.state.shared.memory).1)
      (op.effect l.lock l.data σ.state.shared.memory).2) := by
    have hrefused : op.refused? l.lock σ.guards.names = none :=
      (op.refusal?_eq l σ.guards).symm.trans hlive
    have hwaits : (Request.spin l.lock l.data op).waits σ.state.shared.memory = false := by
      rw [op.waits_iff]
      cases hop : op.waits with
      | false => rfl
      | true => exact bne_eq_false_iff_eq.mpr (hfree hop)
    unfold WordMachine.observe
    simp only [Step.request, Request.refused?, words, hrefused, hwaits]
    rfl
  obtain ⟨e, -, herror⟩ | ⟨o, hperform, hshown, hnext⟩ := hmatches.perform haddrs
  · rw [hobserve] at herror
    cases herror
  · have hshows := Except.ok.inj (hobserve.symm.trans hshown)
    refine ⟨o, hperform, ?_⟩
    unfold Step.observe at hshows
    cases hanswer : o.answer with
    | none =>
      rw [hanswer] at hshows
      cases hshows
    | some a =>
      rw [hanswer] at hshows
      have hthere := hnext (by rw [hanswer]; exact Option.some_ne_none a)
      refine ⟨?_, hthere.settled, hthere.memory ▸ hthere.unlocked, words_of_matches hthere⟩
      exact (Observation.answered.inj hshows).1.symm

namespace SpinLock

variable {t : Scalar} {l : SpinLock t} {x : Lifetime t} {σ : Session}

namespace Stands

/-- An operation is refused by what has become of the lock. -/
theorem refused (h : l.Stands x σ) (op : SpinOp t) : op.refusal? l σ.guards = x.refusal? op :=
  (op.refusal?_eq l σ.guards).trans (h.agrees.refused op)

/-- What is asked of the lock is answered as its lifetime has it, and the lock goes on so. -/
theorem asked (h : l.Stands x σ) (hl : l.Apart) {op : SpinOp t}
    (hlive : op.refusal? l σ.guards = none)
    (hfree : op.waits = true → σ.state.read .w64 l.lock.word = 0) :
    ∃ o, σ.perform .none (.spin l op) = .ok o ∧ o.answer = some (x.answer op) ∧
      l.Stands (x.next op) o.session ∧
      o.session.words = σ.words.next (.spin l.lock l.data op) := by
  obtain ⟨o, hperform, hanswer, hs, hm, hwords⟩ :=
    Session.spin_answers hl h.settled h.unlocked op hlive hfree
  obtain ⟨heffect, hagrees⟩ := h.agrees.spin hl.apart op (h.refused op ▸ hlive) hfree
  exact ⟨o, hperform, hanswer.trans (congrArg some heffect), ⟨hs, hm, hwords ▸ hagrees⟩, hwords⟩

theorem elsewhere (h : l.Stands x σ) {st : Step} {o : Outcome}
    (hglobal : .globalLock ∉ st.request.addrs)
    (hlock : l.lock.word ∉ st.request.addrs) (hdata : l.data ∉ st.request.addrs)
    (hperform : σ.perform .none st = .ok o) (answered : o.answer.isSome = true) :
    l.Stands x o.session := by
  have hmatches : σ.Matches σ.words := ⟨h.settled, h.unlocked, rfl, rfl⟩
  have hthere := hmatches.performed hglobal hperform (Option.isSome_iff_ne_none.mp answered)
  refine ⟨hthere.settled, hthere.memory ▸ hthere.unlocked, ?_⟩
  rw [Session.words_of_matches hthere]
  exact h.agrees.elsewhere hlock hdata

end Stands

/-! ## The life cycle -/

/-- A session from a state in which the lock has just been made, with the lifetime that the lock has
come to in it. Who has to wait for the lock asks for it only while it is free, and between the
operations on it others are performed elsewhere. -/
inductive Lived (l : SpinLock t) (s : State) (v : t.Value) : Lifetime t → Session → Prop where
  | made : Lived l s v (.made v) (.start s)
  | asked {x : Lifetime t} {σ : Session} {op : SpinOp t} {o : Outcome} (h : Lived l s v x σ)
      (hfree : op.waits = true → σ.state.read .w64 l.lock.word = 0)
      (hperform : σ.perform .none (.spin l op) = .ok o) : Lived l s v (x.next op) o.session
  | elsewhere {x : Lifetime t} {σ : Session} {st : Step} {o : Outcome} (h : Lived l s v x σ)
      (hglobal : .globalLock ∉ st.request.addrs) (hlock : l.lock.word ∉ st.request.addrs)
      (hdata : l.data ∉ st.request.addrs) (hperform : σ.perform .none st = .ok o)
      (answered : o.answer.isSome = true) : Lived l s v x o.session

/-- What can be said of a spin lock at any point of its life. -/
structure LifeCycle (l : SpinLock t) (x : Lifetime t) (σ : Session) : Prop where
  /-- The live guards are those that were taken and neither dropped nor forgotten. -/
  guards : (σ.guards.filter (·.lock = l.lock)).map LiveGuard.name = x.live
  one : x.live.length ≤ 1
  /-- The word is set while a guard is live or once one has been forgotten. -/
  word : σ.state.read .w64 l.lock.word = if x.live ≠ [] ∨ x.forgotten = true then 1 else 0
  data : σ.state.read t.width l.data = x.value.toRepr
  /-- What is asked is answered, unless it is refused or has to wait, and stores no more than it has
  to. -/
  asked : ∀ op, op.refusal? l σ.guards = none →
    (op.waits = true → σ.state.read .w64 l.lock.word = 0) →
    ∃ o, σ.perform .none (.spin l op) = .ok o ∧ o.answer = some (x.answer op) ∧
      (op.prog l σ.guards).storesAlone l.lock.word σ.state = op.stores l.lock.word
  /-- After a guard has ended the lock is taken at once. -/
  freed : ∀ op o, op.drops = true → (op.waits = true → σ.state.read .w64 l.lock.word = 0) →
    σ.perform .none (.spin l op) = .ok o → o.session.state.read .w64 l.lock.word = 0 ∧
      ∀ name, ∃ o', o.session.perform .none (.spin l (.acquire name)) = .ok o' ∧
        o'.answer = some .done ∧
        ((SpinOp.acquire name).prog l o.session.guards).storesAlone l.lock.word o.session.state =
          [.stored .w64 l.lock.word 1]
  /-- An attempt that fails changes nothing. -/
  failed : ∀ name o, x.held = true → σ.perform .none (.spin l (.tryAcquire name)) = .ok o →
    o.session.guards = σ.guards ∧ o.session.state.shared.memory = σ.state.shared.memory ∧
      σ.state.Alike o.session.state
  /-- A section that is left early leaves the lock free, what it wrote, and the interrupts as they
  were. -/
  left : ∀ masked v o, σ.state.read .w64 l.lock.word = 0 →
    σ.perform .none (.spin l (.brief masked v)) = .ok o →
    o.session.state.read .w64 l.lock.word = 0 ∧ o.session.state.read t.width l.data = v.toRepr ∧
      o.session.state.core.unreserved = σ.state.core.unreserved

namespace Stands

variable (h : l.Stands x σ) (hl : l.Apart)

include h hl

theorem answered {op : SpinOp t} {o : Outcome}
    (hfree : op.waits = true → σ.state.read .w64 l.lock.word = 0)
    (hperform : σ.perform .none (.spin l op) = .ok o) : o.answer = some (x.answer op) ∧
      l.Stands (x.next op) o.session ∧ o.session.words = σ.words.next (.spin l.lock l.data op) := by
  have hlive : op.refusal? l σ.guards = none := Session.refusal?_of_perform hperform
  obtain ⟨o', hperform', hrest⟩ := h.asked hl hlive hfree
  rw [hperform] at hperform'
  obtain rfl := Except.ok.inj hperform'
  exact hrest

/-- What is asked of the lock stores no more than it has to. -/
theorem served (op : SpinOp t) (hlive : op.refusal? l σ.guards = none)
    (hfree : op.waits = true → σ.state.read .w64 l.lock.word = 0) :
    ∃ o, σ.perform .none (.spin l op) = .ok o ∧ o.answer = some (x.answer op) ∧
      (op.prog l σ.guards).storesAlone l.lock.word σ.state = op.stores l.lock.word := by
  obtain ⟨o, hperform, hanswer, -, -⟩ := h.asked hl hlive hfree
  obtain ⟨-, r, hr, -⟩ := Session.perform_of_answer hperform (by rw [hanswer]; rfl)
  exact ⟨o, hperform, hanswer, op.stores_of_answer l hl.apart σ.guards hlive hfree hr⟩

theorem dropped {op : SpinOp t} {o : Outcome} (hdrops : op.drops = true)
    (hfree : op.waits = true → σ.state.read .w64 l.lock.word = 0)
    (hperform : σ.perform .none (.spin l op) = .ok o) :
    o.session.state.read .w64 l.lock.word = 0 := by
  obtain ⟨-, -, hwords⟩ := h.answered hl hfree hperform
  have hmemory := congrArg WordMachine.memory hwords
  have hread : o.session.state.read .w64 l.lock.word =
      o.session.words.memory.read .w64 l.lock.word := rfl
  rw [hread, hmemory]
  exact SpinOp.read_of_drops hdrops l.lock l.data _

theorem failed {name : String} {o : Outcome} (hheld : x.held = true)
    (hperform : σ.perform .none (.spin l (.tryAcquire name)) = .ok o) :
    o.session.guards = σ.guards ∧ o.session.state.shared.memory = σ.state.shared.memory ∧
      σ.state.Alike o.session.state := by
  obtain ⟨hanswer, hnext, hwords⟩ := h.answered hl (fun hwaits => by cases hwaits) hperform
  obtain ⟨-, r, hr, hresult, hsession⟩ := Session.perform_of_answer hperform (by rw [hanswer]; rfl)
  have hfailed : r.1 = some (.truth false) := by
    rw [← hresult, hanswer, Lifetime.answer, hheld]
    rfl
  have hcore : o.session.state.core.unreserved = σ.state.core.unreserved := by
    rw [hsession]
    have keeps := @Step.keeps_core (.spin l (.tryAcquire name)) rfl σ.guards
    exact (keeps.result σ.state .none Interference.none.fuel hr).2
  have hmasked : o.session.state.core.masked = σ.state.core.masked := by
    simpa [Core.unreserved] using congrArg Core.masked hcore
  have hrecords : ((Step.spin l (.tryAcquire name)).prog σ.guards).All fun i =>
      i.records = false := by
    have hattempt : l.tryAcquire.All fun i => i.records = false :=
      (((l.backend.testSetLock_onWord l.lock.word 1).mono fun _ hi => hi.records).bind
        fun _ => .ret _).bind fun _ => .ret _
    refine hattempt.bind fun g? => ?_
    cases g? with
    | none => exact .ret _
    | some g => exact .ret _
  obtain ⟨honce, hlog⟩ := recording.result hrecords .none Interference.none.fuel hr
  refine ⟨?_, ?_, hcore, ?_, ?_, ?_⟩
  · rw [hsession]
    exact SpinOp.guards_of_failed hr hfailed
  · exact (congrArg WordMachine.memory hwords).trans (h.agrees.write_of_held hheld)
  · rw [hnext.settled.owner, h.settled.owner, hmasked]
  · rw [hsession]
    exact honce
  · rw [hsession]
    exact hlog

theorem lifeCycle : l.LifeCycle x σ where
  guards := by
    rw [← h.agrees.guards]
    simp [GuardNames.of, Session.words, LiveGuards.names, List.filter_map, Function.comp_def]
  one := Nat.le_trans (Nat.le_add_right ..) h.agrees.one
  word := by
    have hword := h.agrees.word
    have hheld : x.held = true ↔ x.live ≠ [] ∨ x.forgotten = true := by simp [Lifetime.held]
    simp only [hheld] at hword
    exact hword
  data := h.agrees.data
  asked := fun op hlive hfree => h.served hl op hlive hfree
  freed := by
    intro op o hdrops hfree hperform
    obtain ⟨-, hnext, -⟩ := h.answered hl hfree hperform
    have hzero := h.dropped hl hdrops hfree hperform
    exact ⟨hzero, fun name => hnext.served hl (.acquire name) rfl fun _ => hzero⟩
  failed := fun _ _ => h.failed hl
  left := by
    intro masked v o hfree hperform
    obtain ⟨hanswer, hnext, hwords⟩ := h.answered hl (fun _ => hfree) hperform
    obtain ⟨-, r, hr, -, hsession⟩ := Session.perform_of_answer hperform (by rw [hanswer]; rfl)
    have keeps := @Step.keeps_core (.spin l (.brief masked v)) rfl σ.guards
    refine ⟨h.dropped hl rfl (fun _ => hfree) hperform, hnext.agrees.data, ?_⟩
    rw [hsession]
    exact (keeps.result σ.state .none Interference.none.fuel hr).2

end Stands

section

variable (hl : l.Apart) {s : State} (hs : s.Settled) (hm : s.shared.memory.Unlocked) {v : t.Value}
  (hfree : s.read .w64 l.lock.word = 0) (hdata : s.read t.width l.data = v.toRepr)

include hl hs hm hfree hdata

theorem Lived.stands (h : l.Lived s v x σ) : l.Stands x σ := by
  induction h with
  | made => exact ⟨hs, hm, rfl, Nat.zero_le 1, hfree, hdata⟩
  | asked h hfree hperform ih => exact (ih.answered hl hfree hperform).2.1
  | elsewhere h hglobal hlock hdata hperform answered ih =>
    exact ih.elsewhere hglobal hlock hdata hperform answered

/-- The life of a lock goes on with any operation that its lifetime neither refuses nor lets
wait. -/
theorem Lived.goes_on (h : l.Lived s v x σ) (op : SpinOp t) (hlive : x.refusal? op = none)
    (hwaits : op.waits = true → x.held = false) : ∃ σ', l.Lived s v (x.next op) σ' := by
  have stands := h.stands hl hs hm hfree hdata
  have hopen : op.waits = true → σ.state.read .w64 l.lock.word = 0 :=
    fun hop => stands.agrees.word.trans (if_neg (by simp [hwaits hop]))
  obtain ⟨o, hperform, -⟩ := stands.asked hl ((stands.refused op).trans hlive) hopen
  exact ⟨o.session, h.asked hopen hperform⟩

/-- **The life cycle of a spin lock**, on every backend. -/
theorem life_cycle (h : l.Lived s v x σ) : l.LifeCycle x σ :=
  (h.stands hl hs hm hfree hdata).lifeCycle hl

end

/-- A truth value under a lock, on a backend that masks interrupts by waiting for the simulated
core. -/
def hostedTruth : SpinLock .bool := ⟨.globalLock .hosted (.pair .armv7), ⟨.cell 0⟩, .cell 1⟩

/-- The lock is taken with interrupts masked, and written to; another attempt fails; the guard is
dropped, and a section is left early. -/
def oneGuardAndASection : List (SpinOp .bool) :=
  [.acquireMasked "g", .setValue "g" true, .tryAcquire "h", .unlock "g", .brief true false]

theorem life_cycle_of_a_section : ∃ σ : Session,
    hostedTruth.Lived (.start true true) false
      (oneGuardAndASection.foldl Lifetime.next (.made false)) σ ∧
      hostedTruth.LifeCycle (oneGuardAndASection.foldl Lifetime.next (.made false)) σ := by
  have hl : hostedTruth.Apart := ⟨by decide, by decide, by decide⟩
  have hs : (State.start true true).Settled := ⟨rfl, by decide⟩
  have goes_on : ∀ {x σ}, hostedTruth.Lived (.start true true) false x σ →
      ∀ op, x.refusal? op = none →
      (op.waits = true → x.held = false) →
        ∃ σ', hostedTruth.Lived (.start true true) false (x.next op) σ' :=
    fun h => h.goes_on hl hs rfl rfl rfl
  obtain ⟨_, h₁⟩ := goes_on .made (.acquireMasked "g") rfl fun _ => rfl
  obtain ⟨_, h₂⟩ := goes_on h₁ (.setValue "g" true) rfl fun hwaits => by cases hwaits
  obtain ⟨_, h₃⟩ := goes_on h₂ (.tryAcquire "h") rfl fun hwaits => by cases hwaits
  obtain ⟨_, h₄⟩ := goes_on h₃ (.unlock "g") rfl fun hwaits => by cases hwaits
  obtain ⟨σ, h₅⟩ := goes_on h₄ (.brief true false) rfl fun _ => rfl
  exact ⟨σ, h₅, life_cycle hl hs rfl rfl rfl h₅⟩

end SpinLock

end Atomicity
