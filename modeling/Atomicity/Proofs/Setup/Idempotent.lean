import Atomicity.Proofs.Lock.Tally
import Atomicity.Proofs.Setup.Twins
import Atomicity.Proofs.Uniform.Sessions

/-!
# Setup is idempotent, and not seen by operations

`Act`s are steps of a session and setups of global-lock backends, of any of them, one after another.
`Progress.run` is a run of acts from some progress. It stops at a step that is refused or waits, so
that a run has come to its end only if every act has.

**`setUp_idempotent`**: from a state in which the global lock has not been constructed, a run shows
what it shows without its setups, in answers, guards, interrupts and memory; the lock is constructed
by the first act that needs it, and not again; and what is logged is the warning of each setup,
after the record of the construction, if that is a setup's (`Act.announced`).

Two things are kept from act to act. The states of the two runs are `Twins` (`Same.perform`,
`Same.setUp`). And what an act constructs and logs depends only on how far construction has come
before it (`Stood.perform`, `Stood.setUp`).
-/

namespace Atomicity

open Prog

/-! ## Runs with setups -/

/-- A step of a session, or a setup between two steps. -/
inductive Act where
  /-- A global-lock backend is set up. -/
  | setUp (c : Controller) (base : Backend)
  | perform (st : Step)

/-- Why acts do not go on. -/
inductive Stop where
  | refused (r : Refusal)
  | waits

/-- How far acts have come. -/
structure Progress where
  session : Session
  /-- What the steps have answered, first answer first. -/
  answers : List Answer
  /-- How often the global lock has been constructed. -/
  constructions : Nat

/-- What the steps of a session and those who look at it see. -/
structure Sight where
  answers : List Answer
  guards : LiveGuards
  core : Core
  memory : Memory
  /-- Some context owns the simulated core. -/
  coreOwned : Bool

namespace Act

def isSetUp : Act → Bool
  | setUp .. => true
  | perform _ => false

/-- The act goes through the global lock or sets it up, so it constructs it if nobody has. -/
def needsLock : Act → Bool
  | setUp .. => true
  | perform st => st.entersLock

/-- A setup comes before every step that goes through the global lock. -/
def announced (acts : List Act) : Bool := (acts.find? needsLock).any isSetUp

/-- What the acts log if construction of the global lock has come so far before them. -/
def logs (b : Build) (once : OnceStatus) (acts : List Act) : List Record :=
  if b.logging then
    (if once = .incomplete ∧ announced acts then [.construction] else []) ++
      List.replicate (acts.countP isSetUp) .singleCore
  else []

/-- How far construction has come after the acts. -/
def constructed (once : OnceStatus) (acts : List Act) : OnceStatus :=
  if acts.any needsLock then .complete else once

variable {b : Build} {once : OnceStatus} {acts : List Act}

theorem logs_setUp (c : Controller) (base : Backend) :
    logs b once (setUp c base :: acts) = b.setUpRecords once ++ logs b .complete acts := by
  cases hb : b.logging <;> cases once <;>
    simp [logs, Build.setUpRecords, Build.records, hb, announced, needsLock, isSetUp,
      List.find?_cons, List.countP_cons, List.replicate_succ]

theorem logs_perform (st : Step) :
    logs b once (perform st :: acts) = logs b (if st.entersLock then .complete else once) acts := by
  cases h : st.entersLock <;> simp [logs, announced, needsLock, isSetUp, h]

/-- A setup announces the lock if no step before it goes through the lock. -/
theorem announced_iff : announced acts = true ↔ ∃ before c base after,
    acts = before ++ setUp c base :: after ∧ ∀ st, perform st ∈ before → st.entersLock = false := by
  induction acts with
  | nil => simp [announced]
  | cons a acts ih =>
    cases a with
    | setUp c base =>
      have here : announced (setUp c base :: acts) =
          true := by simp [announced, needsLock, isSetUp, List.find?_cons]
      exact iff_of_true here ⟨[], c, base, acts, rfl, fun st hst => by cases hst⟩
    | perform st =>
      have next : announced (perform st :: acts) = true ↔ st.entersLock = false ∧
          announced acts = true := by
        cases h : st.entersLock <;> simp [announced, needsLock, isSetUp, h]
      rw [next, ih]
      constructor
      · rintro ⟨hst, before, c, base, after, rfl, hbefore⟩
        refine ⟨perform st :: before, c, base, after, rfl, fun st' hst' => ?_⟩
        obtain rfl | hmem : st' = st ∨ perform st' ∈ before := by simpa using hst'
        · exact hst
        · exact hbefore st' hmem
      · rintro ⟨before, c, base, after, hacts, hbefore⟩
        obtain ⟨-, hfirst⟩ | ⟨before, rfl, rfl⟩ := List.cons_eq_append_iff.mp hacts
        · cases hfirst
        · exact ⟨hbefore st List.mem_cons_self, before, c, base, after, rfl,
            fun st' hst' => hbefore st' (List.mem_cons_of_mem _ hst')⟩

end Act

namespace Progress

def start (s : State) : Progress := ⟨.start s, [], 0⟩

/-- What is seen of acts that have come so far. -/
def sight (x : Progress) : Sight :=
  ⟨x.answers, x.session.guards, x.session.state.core, x.session.state.shared.memory,
    x.session.state.shared.coreOwned⟩

/-- One more act. -/
def act (b : Build) (x : Progress) : Act → Except Stop Progress
  | .setUp c base =>
    let p := (Backend.globalLock c base).setUp b
    let s := x.session.state
    match (p.alone s).result? with
    | none => .error .waits
    | some () =>
      .ok ⟨⟨(p.alone s).state, x.session.guards⟩, x.answers, x.constructions + p.constructions s⟩
  | .perform st =>
    match x.session.perform .none st with
    | .error r => .error (.refused r)
    | .ok o =>
      match o.answer with
      | none => .error .waits
      | some a => .ok ⟨o.session, x.answers ++ [a],
          x.constructions + (st.prog x.session.guards).constructions x.session.state⟩

/-- One act after another. -/
def run (b : Build) (x : Progress) : List Act → Except Stop Progress
  | [] => .ok x
  | act :: acts => do (← x.act b act).run b acts

end Progress

/-! ## What a step does -/

/-- What shows the same is answered or not in both. -/
theorem Step.isSome_of_observe {st : Step} {o o' : Outcome} (h : st.observe o = st.observe o') :
    o.answer.isSome = o'.answer.isSome := by
  unfold observe at h
  cases ha : o.answer <;> cases ha' : o'.answer <;> simp [ha, ha'] at h ⊢

namespace Session

variable {σ : Session} {st : Step}

/-- What a step that has its answer has done. -/
theorem done_of_answer (haddrs : .globalLock ∉ st.request.addrs) (hs : σ.state.Settled)
    (hm : σ.state.shared.memory.Unlocked) {o : Outcome} (h : σ.perform .none st = .ok o)
    {a : Answer} (ha : o.answer = some a) :
    ∃ gs, ((st.prog σ.guards).alone σ.state).result? = some (some a, gs) ∧
      o.session = ⟨((st.prog σ.guards).alone σ.state).state, gs⟩ ∧ o.session.state.Settled ∧
      o.session.state.shared.memory.Unlocked := by
  have hmatches : σ.Matches ⟨σ.state.shared.memory, σ.guards.names⟩ := ⟨hs, hm, rfl, rfl⟩
  have hthere := hmatches.performed haddrs h (by rw [ha]; exact Option.some_ne_none a)
  obtain ⟨-, r, hr, hanswer, hsession⟩ := perform_of_answer h (by rw [ha]; rfl)
  refine ⟨r.2, ?_, hsession, hthere.settled, hthere.memory ▸ hthere.unlocked⟩
  rw [← ha, hanswer]
  exact hr

/-- Two sessions with the same memory and the same guards go on alike: they refuse the same step for
the same reason, and if one has to wait for an answer, so has the other. -/
theorem perform_alike {τ : Session} (haddrs : .globalLock ∉ st.request.addrs) (hσ : σ.state.Settled)
    (hτ : τ.state.Settled) (hm : σ.state.shared.memory.Unlocked)
    (hmemory : τ.state.shared.memory = σ.state.shared.memory) (hguards : τ.guards = σ.guards) :
    (∃ e, σ.perform .none st = .error e ∧ τ.perform .none st = .error e) ∨
      ∃ o o', σ.perform .none st = .ok o ∧ τ.perform .none st = .ok o' ∧
        o.answer.isSome = o'.answer.isSome := by
  have hfirst : σ.Matches ⟨σ.state.shared.memory, σ.guards.names⟩ := ⟨hσ, hm, rfl, rfl⟩
  have hsecond : τ.Matches ⟨σ.state.shared.memory, σ.guards.names⟩ :=
    ⟨hτ, hm, hmemory, by rw [hguards]⟩
  have hsame : (σ.perform .none st).map st.observe = (τ.perform .none st).map st.observe :=
    (hfirst.observes haddrs).trans (hsecond.observes haddrs).symm
  cases hp : σ.perform .none st with
  | error e =>
    cases hq : τ.perform .none st with
    | error e' =>
      rw [hp, hq] at hsame
      obtain rfl := Except.error.inj hsame
      exact .inl ⟨e, rfl, rfl⟩
    | ok o' =>
      rw [hp, hq] at hsame
      cases hsame
  | ok o =>
    cases hq : τ.perform .none st with
    | error e' =>
      rw [hp, hq] at hsame
      cases hsame
    | ok o' =>
      rw [hp, hq] at hsame
      exact .inr ⟨o, o', rfl, rfl, Step.isSome_of_observe (Except.ok.inj hsame)⟩

end Session

/-! ## Setups are not seen -/

namespace Progress

variable {b : Build} {x y : Progress} {st : Step} {acts : List Act}

theorem act_of_answer {o : Outcome} {a : Answer} (h : x.session.perform .none st = .ok o)
    (ha : o.answer = some a) :
    x.act b (.perform st) = .ok ⟨o.session, x.answers ++ [a],
      x.constructions + (st.prog x.session.guards).constructions x.session.state⟩ := by
  simp only [act, h, ha]

/-- A step that has its answer is one that was performed. -/
theorem act_perform (h : x.act b (.perform st) = .ok y) :
    ∃ o a, x.session.perform .none st = .ok o ∧ o.answer = some a ∧
      y = ⟨o.session, x.answers ++ [a],
        x.constructions + (st.prog x.session.guards).constructions x.session.state⟩ := by
  simp only [act] at h
  split at h
  · cases h
  · next o hperform =>
    split at h
    · cases h
    · next a ha => exact ⟨o, a, hperform, ha, (Except.ok.inj h).symm⟩

/-- A setup has its answer, and leaves other records. -/
theorem act_setUp {c : Controller} {base : Backend} (hs : x.session.state.Constructible) :
    x.act b (.setUp c base) = .ok ⟨⟨x.session.state.recorded .complete
      (x.session.state.shared.log ++ b.setUpRecords x.session.state.shared.once), x.session.guards⟩,
      x.answers, x.constructions + ((Backend.globalLock c base).setUp b).constructions
      x.session.state⟩ := by
  obtain ⟨hr, hstate⟩ := Backend.setUp_alone b c base hs
  simp only [act, hr, hstate]

/-- Two runs have come to the same, but for their records. -/
structure Same (x y : Progress) : Prop where
  answers : y.answers = x.answers
  guards : y.session.guards = x.session.guards
  twins : Twins x.session.state y.session.state
  settled : x.session.state.Settled
  unlocked : x.session.state.shared.memory.Unlocked

namespace Same

variable (h : Same x y)

include h

theorem sight : x.sight = y.sight := by
  obtain ⟨once, log, hy⟩ := h.twins.alike
  unfold Progress.sight
  rw [h.answers, h.guards, hy]
  rfl

/-- A step does the same in both runs. -/
theorem perform (haddrs : .globalLock ∉ st.request.addrs) :
    (∃ e, x.act b (.perform st) = .error e ∧ y.act b (.perform st) = .error e) ∨
      ∃ x' y', x.act b (.perform st) = .ok x' ∧ y.act b (.perform st) = .ok y' ∧ Same x' y' := by
  have hsettled := h.twins.settled h.settled
  have hmemory := h.twins.memory
  obtain ⟨e, hx, hy⟩ | ⟨o, o', hx, hy, halike⟩ :=
    Session.perform_alike haddrs h.settled hsettled h.unlocked hmemory h.guards
  · exact .inl ⟨.refused e, by simp only [act, hx], by simp only [act, hy]⟩
  · cases ha : o.answer with
    | none =>
      have ha' : o'.answer = none := by simpa [ha] using halike.symm
      exact .inl ⟨.waits, by simp only [act, hx, ha], by simp only [act, hy, ha']⟩
    | some a =>
      obtain ⟨a', ha'⟩ : ∃ a', o'.answer = some a' := by
        rw [ha] at halike
        exact Option.isSome_iff_exists.mp halike.symm
      obtain ⟨gs, hr, hsession, hs, hm⟩ := Session.done_of_answer haddrs h.settled h.unlocked hx ha
      obtain ⟨gs', hr', hsession', -, -⟩ :=
        Session.done_of_answer haddrs hsettled (hmemory ▸ h.unlocked) hy ha'
      obtain ⟨n, he⟩ := evaluates_of_alone hr
      obtain ⟨n', he'⟩ := evaluates_of_alone hr'
      obtain ⟨m, t, hmirror, htwins⟩ :=
        Mirrors.sectioned (Step.sectioned haddrs x.session.guards) h.twins he
      rw [h.guards] at he'
      obtain ⟨-, hanswers, hstate⟩ := he'.unique hmirror
      obtain ⟨rfl, rfl⟩ : a' = a ∧ gs' = gs := by simpa using hanswers
      refine .inr ⟨_, _, act_of_answer hx ha, act_of_answer hy ha', ?_, ?_, ?_, hs, hm⟩
      · rw [h.answers]
      · rw [hsession, hsession']
      · rw [hsession, hsession', h.guards, hstate]
        exact htwins

/-- A setup in the one run leaves it the same as the other. -/
theorem setUp (c : Controller) (base : Backend) :
    ∃ x', x.act b (.setUp c base) = .ok x' ∧ Same x' y :=
  ⟨_, act_setUp h.twins.constructible.1, h.answers, h.guards,
    h.twins.constructed (h.twins.settled h.settled).once h.unlocked _,
    ⟨h.settled.owner, OnceStatus.noConfusion⟩, h.unlocked⟩

/-- **A run shows what it shows without its setups.** -/
theorem run (haddrs : ∀ st, .perform st ∈ acts → .globalLock ∉ st.request.addrs) :
    (x.run b acts).map Progress.sight =
      (y.run b (acts.filter fun a => !a.isSetUp)).map Progress.sight := by
  induction acts generalizing x y with
  | nil => exact congrArg Except.ok h.sight
  | cons a acts ih =>
    have hrest : ∀ st, .perform st ∈ acts → .globalLock ∉ st.request.addrs :=
      fun st hst => haddrs st (List.mem_cons_of_mem _ hst)
    cases a with
    | setUp c base =>
      obtain ⟨x', hx, hsame⟩ := h.setUp (b := b) c base
      rw [List.filter_cons_of_neg (by simp [Act.isSetUp]), Progress.run, hx]
      exact ih hsame hrest
    | perform st =>
      rw [List.filter_cons_of_pos (by simp [Act.isSetUp]), Progress.run, Progress.run]
      obtain ⟨e, hx, hy⟩ | ⟨x', y', hx, hy, hsame⟩ :=
        h.perform (b := b) (haddrs st List.mem_cons_self)
      · rw [hx, hy]
        rfl
      · rw [hx, hy]
        exact ih hsame hrest

end Same

/-! ## One construction -/

/-- Nothing is going on, construction of the lock has come so far, and so much has been logged. -/
structure Stood (o : OnceStatus) (log : List Record) (x : Progress) : Prop where
  settled : x.session.state.Settled
  unlocked : x.session.state.shared.memory.Unlocked
  known : counting.At o log x.constructions x.session.state

namespace Stood

variable {o : OnceStatus} {log : List Record} (h : Stood o log x)

include h

theorem not_running : o ≠ .running := h.known.once ▸ h.settled.once

/-- A step constructs the lock if it goes through it and nobody has, and logs nothing. -/
theorem perform (haddrs : .globalLock ∉ st.request.addrs) (hact : x.act b (.perform st) = .ok y) :
    Stood (if st.entersLock then .complete else o) log y := by
  obtain ⟨p, a, hperform, ha, rfl⟩ := act_perform hact
  obtain ⟨gs, hr, hsession, hs, hm⟩ :=
    Session.done_of_answer haddrs h.settled h.unlocked hperform ha
  refine ⟨hs, hm, ?_⟩
  rw [hsession]
  cases henters : st.entersLock with
  | false =>
    exact counting.result (counting.aside (Step.aside haddrs henters x.session.guards)) h.known hr
  | true =>
    have hstill : counting.Still log x.constructions x.session.state := ⟨o, h.not_running, h.known⟩
    obtain ⟨o', -, hknown⟩ :=
      counting.result (counting.sectioned (Step.sectioned haddrs x.session.guards)) hstill hr
    have hcomplete :=
      counting.result (counting.enters (Step.enters henters x.session.guards)) hstill hr
    obtain rfl : o' = .complete := hknown.once.symm.trans hcomplete
    exact hknown

/-- A setup constructs the lock if nobody has. -/
theorem setUp {c : Controller} {base : Backend} (hact : x.act b (.setUp c base) = .ok y) :
    Stood .complete (log ++ b.setUpRecords o) y := by
  have hs : x.session.state.Constructible := .inr ⟨h.settled.once, h.unlocked⟩
  obtain ⟨hr, hstate⟩ := Backend.setUp_alone b c base hs
  rw [act_setUp hs] at hact
  obtain rfl := Except.ok.inj hact
  have hknown := counting.result (counting.setUp h.not_running b c base) h.known hr
  rw [hstate] at hknown
  exact ⟨⟨h.settled.owner, OnceStatus.noConfusion⟩, h.unlocked, hknown⟩

/-- **The first act that needs the lock constructs it**, and no other does. -/
theorem run (haddrs : ∀ st, .perform st ∈ acts → .globalLock ∉ st.request.addrs)
    (hrun : x.run b acts = .ok y) :
    Stood (Act.constructed o acts) (log ++ Act.logs b o acts) y := by
  induction acts generalizing x o log with
  | nil =>
    obtain rfl := Except.ok.inj hrun
    have hnone : Act.logs b o [] = [] := by simp [Act.logs, Act.announced]
    rw [hnone, List.append_nil]
    exact h
  | cons a acts ih =>
    have hrest : ∀ st, .perform st ∈ acts → .globalLock ∉ st.request.addrs :=
      fun st hst => haddrs st (List.mem_cons_of_mem _ hst)
    rw [Progress.run] at hrun
    obtain ⟨z, hact, hnext⟩ : ∃ z, x.act b a = .ok z ∧ z.run b acts = .ok y := by
      cases hact : x.act b a with
      | error e =>
        rw [hact] at hrun
        cases hrun
      | ok z =>
        rw [hact] at hrun
        exact ⟨z, rfl, hrun⟩
    cases a with
    | setUp c base =>
      have hend := ih (h.setUp hact) hrest hnext
      rw [List.append_assoc, ← Act.logs_setUp c base] at hend
      have hall : Act.constructed o (.setUp c base :: acts) = Act.constructed .complete acts := by
        simp [Act.constructed, Act.needsLock]
      rwa [hall]
    | perform st =>
      have hend := ih (h.perform (haddrs st List.mem_cons_self) hact) hrest hnext
      rw [← Act.logs_perform st] at hend
      have hall : Act.constructed o (.perform st :: acts) =
          Act.constructed (if st.entersLock then .complete else o) acts := by
        cases henters : st.entersLock <;> simp [Act.constructed, Act.needsLock, henters]
      rwa [hall]

end Stood

end Progress

/-! ## Idempotence -/

/-- What acts do to the global lock, from a state in which it has not been constructed. -/
structure Constructs (b : Build) (s : State) (acts : List Act) (x : Progress) : Prop where
  /-- The lock is constructed by the first act that needs it, and not again. -/
  once : x.constructions = if acts.any Act.needsLock then 1 else 0
  /-- The construction is logged if it is a setup's, and then the warning of every setup. -/
  logged : x.session.state.shared.log = s.shared.log ++ if b.logging then
      (if Act.announced acts then [.construction] else []) ++
        List.replicate (acts.countP Act.isSetUp) .singleCore
    else []
  /-- In a build that logs, the construction is logged if a setup comes before every step through
  the lock. -/
  announced : b.logging = true → .construction ∉ s.shared.log →
    (.construction ∈ x.session.state.shared.log ↔ ∃ before c base after,
      acts = before ++ .setUp c base :: after ∧ ∀ st, .perform st ∈ before → st.entersLock = false)
  free : x.session.state.shared.memory.Unlocked
  /-- Whatever backend a step goes through the lock of, it is one and the same lock that it
  takes. -/
  one : ∀ before st after y z, acts = before ++ .perform st :: after →
    (Progress.start s).run b before = .ok y →
    y.act b (.perform st) = .ok z → st.entersLock = true →
      .stored .w64 .globalLock 1 ∈ (st.prog y.session.guards).storesAlone .globalLock
        y.session.state

/-- **Setup is idempotent, and operations do not see it.** From a state in which the global lock has
not been constructed, acts show what they show without their setups; and if they come to their end,
they construct one lock, at most once, and log what setups say of it. -/
theorem setUp_idempotent (b : Build) {s : State} (hs : s.Settled) (hm : s.shared.memory.Unlocked)
    (honce : s.shared.once = .incomplete) (acts : List Act)
    (haddrs : ∀ st, .perform st ∈ acts → .globalLock ∉ st.request.addrs) :
    ((Progress.start s).run b acts).map Progress.sight =
        ((Progress.start s).run b (acts.filter fun a => !a.isSetUp)).map Progress.sight ∧
      ∀ x, (Progress.start s).run b acts = .ok x → Constructs b s acts x := by
  have hsame : (Progress.start s).Same (Progress.start s) :=
    ⟨rfl, rfl, ⟨⟨_, _, rfl⟩, .inr ⟨hs.once, hs.once, hm⟩⟩, hs, hm⟩
  have hstood : Progress.Stood .incomplete s.shared.log (Progress.start s) :=
    ⟨hs, hm, honce, rfl, rfl⟩
  refine ⟨hsame.run haddrs, fun x hx => ?_⟩
  obtain ⟨-, hfree, hknown⟩ := hstood.run haddrs hx
  refine ⟨?_, ?_, ?_, hfree, ?_⟩
  · rw [hknown.count]
    cases hneeds : acts.any Act.needsLock <;> simp [Act.constructed, hneeds]
  · rw [hknown.log]
    simp [Act.logs]
  · intro hlogging hbefore
    have hwarning : Record.construction ∉ List.replicate (acts.countP Act.isSetUp) .singleCore :=
      fun h => absurd (List.eq_of_mem_replicate h) (by decide)
    rw [hknown.log, ← Act.announced_iff]
    simp [Act.logs, hlogging, hbefore, hwarning]
  · intro before st after y z hacts hrun hact henters
    obtain ⟨o, a, hperform, ha, -⟩ := Progress.act_perform hact
    obtain ⟨-, r, hr, -⟩ := Session.perform_of_answer hperform (by rw [ha]; rfl)
    exact storing.result (storing.enters (Step.enters henters y.session.guards)) trivial hr

/-- A lock word is swapped, which does not go through the lock, then a backend is set up, a cell is
written on another one, and a third is set up. -/
def twoSetUps : List Act :=
  [.perform (.swapLockWord (.globalLock .hosted (.pair .armv7)) (.cell 0) 1),
    .setUp .hosted (.pair .armv7),
    .perform (.cell ⟨.globalLock .line .traced, .cell 1⟩ (.store (t := .bool) true)),
    .setUp .arm .traced]

theorem setUp_idempotent_of_two :
    ∃ x, (Progress.start (.start true true)).run ⟨true, false⟩ twoSetUps = .ok x ∧
      x.constructions = 1 ∧
      x.session.state.shared.log = [.construction, .singleCore, .singleCore] ∧
      ((Progress.start (.start true true)).run ⟨true, false⟩
        (twoSetUps.filter fun a => !a.isSetUp)).map Progress.sight = .ok x.sight := by
  have haddrs : ∀ st, .perform st ∈ twoSetUps → .globalLock ∉ st.request.addrs := by
    intro st hst
    simp only [twoSetUps, List.mem_cons, List.not_mem_nil, Act.perform.injEq,
      reduceCtorEq, or_false, false_or] at hst
    rcases hst with rfl | rfl <;> decide
  obtain ⟨hsight, hends⟩ :=
    setUp_idempotent ⟨true, false⟩ (s := .start true true) ⟨rfl, by decide⟩ rfl rfl twoSetUps haddrs
  obtain ⟨x, hx⟩ : ∃ x, (Progress.start (.start true true)).run ⟨true, false⟩ twoSetUps =
    .ok x := ⟨_, rfl⟩
  have h := hends x hx
  refine ⟨x, hx, h.once, h.logged, ?_⟩
  rw [← hsight, hx]
  rfl

end Atomicity
