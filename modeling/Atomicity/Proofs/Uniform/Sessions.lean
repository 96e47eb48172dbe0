import Atomicity.Proofs.Uniform.SpinLocks

/-!
# All backends are one machine

A session that nothing happens to from outside shows, step by step, what the machine of words shows
of the same requests (`Matches.perform`): the same answers, as far as they are promised, the same
memory after every step, the same refusals, and it waits where that machine waits. So does a whole
run (`Matches.run`). The machine of words does not know of backends, so **no run tells which
backends its steps are taken on** (`backends_are_one_machine`).
-/

namespace Atomicity

open Prog

/-! ## The word of the global lock -/

section

variable {a : Addr} (ha : a ≠ .globalLock)

include ha

theorem CellOp.effect_spares {t : Scalar} (op : CellOp t) : (op.effect a).Spares := by
  cases op <;> simp [CellOp.effect, ha]

theorem WordOp.effect_spares {w : Width} (op : WordOp w) : (op.effect a).Spares := by
  cases op with
  | fetchUpdate f =>
    unfold WordOp.effect
    exact .map (.replace ha f) _
  | _ => simp [WordOp.effect, ha]

theorem FlagOp.effect_spares (op : FlagOp) : (op.effect a).Spares := by
  cases op <;> simp [FlagOp.effect, ha]

end

theorem RawOp.effect_spares (l : RawLock) (hl : l.word ≠ .globalLock) (op : RawOp) :
    (op.effect l).Spares := by
  cases op <;> simp [RawOp.effect, hl]

theorem SpinOp.effect_spares {t : Scalar} (l : RawLock) (hl : l.word ≠ .globalLock) {d : Addr}
    (hd : d ≠ .globalLock) (op : SpinOp t) : (op.effect l d).Spares := by
  cases op with
  | renew =>
    intro m v
    simp only [SpinOp.effect, m.read_write_of_ne _ hd.symm, m.write_comm _ _ hl]
  | brief masked v =>
    exact .andThen (.andThen (.store hl 1) (.store hd v.toRepr)) (.map (.store hl 0) _)
  | _ => simp [SpinOp.effect, hl, hd]

/-- A request neither reads nor writes the word of the global lock, unless it is asked to. -/
theorem Request.effect_spares (r : Request) (haddrs : .globalLock ∉ r.addrs) : r.effect.Spares := by
  have haddr : ∀ a ∈ r.addrs, a ≠ .globalLock := fun a ha h => haddrs (h ▸ ha)
  unfold Request.effect
  cases r with
  | cell a op => exact op.effect_spares (haddr a (List.mem_singleton_self a))
  | word a op => exact op.effect_spares (haddr a (List.mem_singleton_self a))
  | flag a op => exact (op.effect_spares (haddr a (List.mem_singleton_self a))).map some
  | raw l op => exact (op.effect_spares l (haddr _ (List.mem_singleton_self _))).map some
  | spin l d op =>
    exact (op.effect_spares l (haddr _ List.mem_cons_self)
      (haddr _ (List.mem_cons_of_mem _ (List.mem_singleton_self _)))).map some
  | fetch a op v => exact .map (.replace (haddr a (List.mem_singleton_self a)) _) _
  | fetchNew a op v => exact .map (.replace (haddr a (List.mem_singleton_self a)) _) _
  | testSetLock a v => exact .map (.replace (haddr a (List.mem_singleton_self a)) _) _
  | swapLockWord a v => exact .map (.replace (haddr a (List.mem_singleton_self a)) _) _
  | storeLockWord a v => exact .map (.store (haddr a (List.mem_singleton_self a)) v) _
  | fence => exact .skip _
  | disable => exact .skip _
  | enableIf b => exact .skip _

/-! ## Steps -/

/-- What a step that does not wait leaves: its answer, as far as it is promised, the guards and
memory. -/
theorem Step.shows {m : Memory} (st : Step) (haddrs : .globalLock ∉ st.request.addrs)
    (gs : LiveGuards) (hm : m.Unlocked) (hlive : st.request.refused? gs.names = none)
    (hfree : st.request.waits m = false) :
    (st.prog gs).Completes 100 m fun r m' => ∃ a, r.1 = some a ∧
      (if st.request.isPromised then some a else none) = (st.request.effect m).1 ∧
      r.2.names = st.request.guards m gs.names ∧ m' = (st.request.effect m).2 := by
  have answering : ∀ {p : Prog Answer} {isPromised : Bool} {E : Effect (Option Answer)},
      p.Shows isPromised E → (p.bind fun a => .ret (some a, gs)).Completes 100 m fun r m' =>
        ∃ a, r.1 = some a ∧ (if isPromised then some a else none) = (E m).1 ∧
          r.2.names = gs.names ∧ m' = (E m).2 := by
    intro p isPromised E h
    refine Completes.map ((h m hm).mono fun a m' ha => ?_)
    exact ⟨a, rfl, ha.1, rfl, ha.2⟩
  have haddr : ∀ a ∈ st.request.addrs, a ≠ .globalLock := fun a ha h => haddrs (h ▸ ha)
  cases st with
  | cell c op => exact answering (op.shows c (haddr _ (List.mem_singleton_self _)))
  | fetch c op v =>
    have h := c.fetch_performs (haddr _ (List.mem_singleton_self _)) op v
    exact answering (h.shows (by decide) fun x => .value (t := .int _) x)
  | fetchNew c op v =>
    have h := c.fetchNew_performs (haddr _ (List.mem_singleton_self _)) op v
    exact answering (h.shows (by decide) fun x => .value (t := .int _) x)
  | testSetLock c v =>
    exact answering ((c.testSetLock_performs v).shows (by decide) fun x => .value (t := .int _) x)
  | word b a op => exact answering (op.shows b (haddr _ (List.mem_singleton_self _)))
  | swapLockWord b a v => exact answering ((Performs.testSetLock b v).shows (by decide) .word)
  | storeLockWord b a v =>
    exact answering ((Performs.privilegedStore b v).shows (by decide) fun _ => .done)
  | flag f op => exact answering (op.shows f (haddr _ (List.mem_singleton_self _)))
  | raw l b op =>
    by_cases hop : op = .acquire
    · subst hop
      have hzero : m.read .w64 l.word = 0 := by
        simpa [Step.request, Request.waits, Request.awaits] using hfree
      refine Completes.le (n := 41 + 0) ((Does.acquireFree hm b hzero).map.bind ?_) (by decide)
      exact Completes.ret ⟨.done, rfl, rfl, rfl, rfl⟩
    · exact answering (op.shows l b hop)
  | spin l op =>
    have hlock : l.lock.word ≠ .globalLock := haddr _ List.mem_cons_self
    have hdata : l.data ≠ .globalLock :=
      haddr _ (List.mem_cons_of_mem _ (List.mem_singleton_self _))
    refine (op.shows l hlock hdata gs hm hlive hfree).mono ?_
    rintro r m' ⟨hanswer, hguards, hmem⟩
    exact ⟨_, hanswer, rfl, hguards, hmem⟩
  | fence b => exact answering (Skips.shows_done (fun _ => Skips.fence) (by decide))
  | disable c => exact answering (Skips.shows (fun _ => Skips.disable c) (by decide) .truth)
  | enableIf c b => exact answering (Skips.shows_done (fun _ => Skips.enableIf c b) (by decide))

/-- A step that waits has no answer. -/
theorem Step.answer_of_waits (st : Step) (haddrs : .globalLock ∉ st.request.addrs) (gs : LiveGuards)
    {s s' : State} {n : Nat} {r : Option Answer × LiveGuards} (hs : s.Settled)
    (hm : s.shared.memory.Unlocked) (hwaits : st.request.waits s.shared.memory = true)
    (h : (st.prog gs).Evaluates s n r s') : r.1 = none := by
  have haddr : ∀ a ∈ st.request.addrs, a ≠ .globalLock := fun a ha h => haddrs (h ▸ ha)
  cases st with
  | raw l b op =>
    cases op with
    | acquire =>
      obtain ⟨_, _, _, _, hanswered, -, -⟩ := h.of_bind
      obtain ⟨_, _, _, _, hacquired, -, -⟩ := hanswered.of_bind
      have hheld : s.read .w64 l.word ≠ 0 := bne_iff_ne.mp hwaits
      exact absurd hacquired
        (l.not_evaluates_acquire hs hm b (haddr _ (List.mem_singleton_self _)) hheld)
    | _ => cases hwaits
  | spin l op => exact op.answer_of_waits hs hm l (haddr _ List.mem_cons_self) gs hwaits h
  | _ => cases hwaits

/-- A step that would wait unseen waits. -/
theorem Step.waits_of_waitsUnseen (st : Step) (s : State) (h : st.waitsUnseen s = true) :
    st.request.waits s.shared.memory = true := by
  cases st with
  | raw l b op =>
    cases op with
    | acquire => exact (Bool.and_eq_true_iff.mp h).2
    | _ => cases h
  | spin l op =>
    cases op with
    | acquire name => exact (Bool.and_eq_true_iff.mp h).2
    | acquireMasked name => exact (Bool.and_eq_true_iff.mp h).2
    | _ => cases h
  | _ => cases h

/-! ## Sessions -/

/-- A step is refused for the same reason on every backend. -/
theorem Step.refusal?_eq (st : Step) (gs : LiveGuards) :
    st.refusal? gs = st.request.refused? gs.names := by
  cases st with
  | spin l op => exact op.refusal?_eq l gs
  | _ => rfl

namespace Session

variable {σ : Session} {st : Step}

/-- A step that is begun does what its program does alone. -/
theorem perform_of_seen (hlive : st.refusal? σ.guards = none)
    (hseen : st.waitsUnseen σ.state = false) :
    let c := (st.prog σ.guards).alone σ.state
    σ.perform .none st = .ok ⟨c.result?.bind Prod.fst, c.events,
      ⟨c.state, (c.result?.map Prod.snd).getD σ.guards⟩⟩ := by
  intro c
  simp only [perform, hlive, hseen, Bool.false_eq_true, if_false]
  cases hresult : ((st.prog σ.guards).solo .none σ.state).result? with
  | none => simp only [c, alone, hresult, Option.bind_none, Option.map_none, Option.getD_none]
  | some r => simp only [c, alone, hresult, Option.bind_some, Option.map_some, Option.getD_some]

/-- A step that waits has no answer. -/
theorem perform_of_waits (hs : σ.state.Settled) (hm : σ.state.shared.memory.Unlocked)
    (haddrs : .globalLock ∉ st.request.addrs) (hlive : st.refusal? σ.guards = none)
    (hwaits : st.request.waits σ.state.shared.memory = true) :
    ∃ o, σ.perform .none st = .ok o ∧ o.answer = none := by
  cases hseen : st.waitsUnseen σ.state with
  | true => exact ⟨⟨none, [], σ⟩, by simp only [perform, hlive, hseen, if_true], rfl⟩
  | false =>
    refine ⟨_, perform_of_seen hlive hseen, ?_⟩
    cases hresult : ((st.prog σ.guards).alone σ.state).result? with
    | none => rfl
    | some r =>
      obtain ⟨n, s', he⟩ := evaluates_of_run hresult
      exact st.answer_of_waits haddrs σ.guards hs hm hwaits he

/-- A session and the machine of words have done the same. -/
structure Matches (σ : Session) (x : WordMachine) : Prop where
  settled : σ.state.Settled
  unlocked : x.memory.Unlocked
  memory : σ.state.shared.memory = x.memory
  guards : σ.guards.names = x.guards

/-- **A step shows what its request shows**, and if it has its answer, the session goes on as the
machine of words does. -/
theorem Matches.perform {x : WordMachine} (h : σ.Matches x)
    (haddrs : .globalLock ∉ st.request.addrs) :
    (∃ e, σ.perform .none st = .error e ∧ x.observe st.request = .error e) ∨
      ∃ o, σ.perform .none st = .ok o ∧ x.observe st.request = .ok (st.observe o) ∧
        (o.answer ≠ none → o.session.Matches (x.next st.request)) := by
  obtain ⟨m, gs⟩ := x
  obtain ⟨hs, hm, rfl, rfl⟩ := h
  change σ.state.shared.memory.Unlocked at hm
  have hsame := st.refusal?_eq σ.guards
  cases hlive : st.request.refused? σ.guards.names with
  | some e =>
    rw [hlive] at hsame
    refine .inl ⟨e, ?_, ?_⟩
    · simp only [Session.perform, hsame]
    · simp only [WordMachine.observe, hlive]
  | none =>
    rw [hlive] at hsame
    right
    cases hwaits : st.request.waits σ.state.shared.memory with
    | true =>
      obtain ⟨o, hperform, hanswer⟩ := perform_of_waits hs hm haddrs hsame hwaits
      refine ⟨o, hperform, ?_, fun hne => absurd hanswer hne⟩
      simp only [WordMachine.observe, hlive, hwaits, if_true, Step.observe, hanswer]
    | false =>
      have hseen : st.waitsUnseen σ.state = false := by
        refine Bool.eq_false_iff.mpr fun hunseen => ?_
        rw [st.waits_of_waitsUnseen _ hunseen] at hwaits
        cases hwaits
      obtain ⟨n, r, s', hn, he, hs', a, hanswer, hshown, hguards, hmem⟩ :=
        st.shows haddrs σ.guards hm hlive hwaits σ.state hs rfl
      obtain ⟨hresult, rfl⟩ := he.alone (Nat.le_trans hn (by decide))
      have hperform := perform_of_seen hsame hseen
      simp only [hresult] at hperform
      refine ⟨_, hperform, ?_, fun _ => ⟨hs', ?_, hmem, hguards⟩⟩
      · simp only [WordMachine.observe, hlive, hwaits, Step.observe, Option.bind_some,
          hanswer, hshown, hmem, Bool.false_eq_true, if_false]
      · exact (st.request.effect_spares haddrs).unlocked hm

theorem Matches.observes {x : WordMachine} (h : σ.Matches x)
    (haddrs : .globalLock ∉ st.request.addrs) :
    (σ.perform .none st).map st.observe = x.observe st.request := by
  obtain ⟨e, hperform, hobserve⟩ | ⟨o, hperform, hobserve, -⟩ := h.perform haddrs
  · rw [hperform, hobserve]
    rfl
  · rw [hperform, hobserve]
    rfl

/-- A session goes on as the machine of words does when a step has its answer. -/
theorem Matches.performed {x : WordMachine} (h : σ.Matches x)
    (haddrs : .globalLock ∉ st.request.addrs) {o : Outcome}
    (hperform : σ.perform .none st = .ok o) (answered : o.answer ≠ none) :
    o.session.Matches (x.next st.request) := by
  obtain ⟨e, hrefused, -⟩ | ⟨o', hperform', -, hnext⟩ := h.perform haddrs
  · rw [hperform] at hrefused
    cases hrefused
  · rw [hperform] at hperform'
    obtain rfl := Except.ok.inj hperform'
    exact hnext answered

/-- **A run shows what its requests show.** -/
theorem Matches.run {x : WordMachine} (h : σ.Matches x) (steps : List Step)
    (haddrs : ∀ st ∈ steps, .globalLock ∉ st.request.addrs) :
    (σ.run (steps.map fun st => (st, .none))).map (List.zipWith Step.observe steps) =
      x.run (steps.map Step.request) := by
  induction steps generalizing σ x with
  | nil => rfl
  | cons st steps ih =>
    simp only [List.map_cons, Session.run, WordMachine.run]
    obtain ⟨e, hperform, hobserve⟩ | ⟨o, hperform, hobserve, hnext⟩ :=
      h.perform (haddrs st List.mem_cons_self)
    · rw [hperform, hobserve]
      rfl
    · rw [hperform, hobserve]
      cases hanswer : o.answer with
      | none =>
        have hwaits : st.observe o = .waits := by simp only [Step.observe, hanswer]
        simp only [Bind.bind, Except.bind, Pure.pure, Except.pure, Except.map, hwaits, hanswer,
          List.zipWith_cons_cons, List.zipWith_nil_right]
      | some a =>
        have hrest := ih (hnext (by simp [hanswer])) fun st' hst' =>
          haddrs st' (List.mem_cons_of_mem _ hst')
        have hanswered : st.observe o = .answered (if st.request.isPromised then some a else none)
            o.session.state.shared.memory := by simp only [Step.observe, hanswer]
        simp only [Bind.bind, Except.bind, hanswered, hanswer, ← hrest]
        cases o.session.run (steps.map fun st => (st, .none)) with
        | error e => rfl
        | ok os => exact congrArg (fun e => Except.ok (e :: _)) hanswered

end Session

/-- **All backends are one machine.** Of a run without interference, whatever backend each of its
steps is taken on, nothing shows but what the machine of words has for the requests: its answers,
the values that are expected from then on, memory after every step, its refusals, and where it
waits. So a run with the same requests on other backends shows the same. -/
theorem backends_are_one_machine (s s' : State) (hs : s.Settled) (hs' : s'.Settled)
    (hm : s.shared.memory.Unlocked) (hmem : s'.shared.memory = s.shared.memory)
    (steps steps' : List Step) (haddrs : ∀ st ∈ steps, .globalLock ∉ st.request.addrs)
    (same : steps'.map Step.request = steps.map Step.request) :
    observed s steps = (WordMachine.start s.shared.memory).run (steps.map Step.request) ∧
      observed s' steps' = observed s steps := by
  have haddrs' : ∀ st ∈ steps', .globalLock ∉ st.request.addrs := by
    intro st' hst'
    have hrequest : st'.request ∈ steps.map Step.request := same ▸ List.mem_map_of_mem hst'
    obtain ⟨st, hst, heq⟩ := List.mem_map.mp hrequest
    rw [← heq]
    exact haddrs st hst
  have hstart : (Session.start s).Matches (WordMachine.start s.shared.memory) := ⟨hs, hm, rfl, rfl⟩
  have hstart' : (Session.start s').Matches (WordMachine.start s.shared.memory) :=
    ⟨hs', hm, hmem, rfl⟩
  have hrun : observed s steps = (WordMachine.start s.shared.memory).run (steps.map Step.request) :=
    hstart.run steps haddrs
  have hrun' :
      observed s' steps' = (WordMachine.start s.shared.memory).run (steps'.map Step.request) :=
    hstart'.run steps' haddrs'
  refine ⟨hrun, ?_⟩
  rw [hrun', same, hrun]

/-- Two is written to a byte, the byte is then looked at as a truth value, and a lock is taken. -/
def truthOfTwo (b b' b'' : Backend) : List Step :=
  [.word b (.cell 0) (.store (2 : Word .w8)),
    .cell (t := .bool) ⟨b', .cell 0⟩ (.compareExchange true false),
    .raw ⟨.cell 1⟩ b'' .tryAcquire]

/-- Two is true, but not the true that a comparison expects. -/
theorem truthOfTwo_on_other_backends :
    let m := Memory.zero.write .w8 (.cell 0) 2
    let shown : List Observation := [.answered (some .done) m,
      .answered (some (.compared (t := .bool) ⟨false, true⟩)) m,
      .answered (some (.truth true)) (m.write .w64 (.cell 1) 1)]
    observed (.start true true) (truthOfTwo (.pair .armv7) (.globalLock .hosted .casOnly) .native) =
        .ok shown ∧
      observed (.start false true) (truthOfTwo .casOnly (.singleCore .arm .armv5 .full)
        (.globalLock .line (.globalLock .x86 .native))) = .ok shown := by
  intro m shown
  have hstart : ∀ line, (State.start line true).Settled := fun _ => ⟨rfl, nofun⟩
  obtain ⟨hrun, hsame⟩ :=
    backends_are_one_machine (.start true true) (.start false true) (hstart true)
      (hstart false) rfl rfl (truthOfTwo (.pair .armv7) (.globalLock .hosted .casOnly) .native)
      (truthOfTwo .casOnly (.singleCore .arm .armv5 .full)
        (.globalLock .line (.globalLock .x86 .native)))
      (by decide) rfl
  have hshown : observed (.start true true)
      (truthOfTwo (.pair .armv7) (.globalLock .hosted .casOnly) .native) = .ok shown :=
        hrun.trans rfl
  exact ⟨hshown, hsame.trans hshown⟩

end Atomicity
