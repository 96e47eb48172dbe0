import Atomicity.Backend.Pair
import Atomicity.Proofs.Interference.ToCome

/-!
# Exclusive pairs under interference

Exchange and compare-and-exchange by load-exclusive and store-exclusive, run by one context under
any finite schedule of foreign writes and rejections.

**Both operations act once, and return** (`exclusive_pair_acts_once`): there is one instant at which
the word is loaded and, if it is to be replaced, stored, with nothing in between; the context stores
at no other instant; and the answer says what was found there. Both are one loop, in which a round
either ends it or uses up a foreign write or a rejection (`Solo.round`). So there are no more rounds
than are left of these, and one (`Solo.loop_ends`), wherever in a schedule the loop is begun and
whatever follows it.
-/

namespace Atomicity

/-- What happens to memory while a program runs under interference. -/
def Prog.trace {α : Type} (x : Interference) (p : Prog α) (s : State) : List Access :=
  (Solo.start p s).trace x x.fuel

section

variable {α β : Type} (x : Interference) (g : α → β) (p : Prog α) (s : State)

theorem Prog.solo_map : (p.bind fun r => .ret (g r)).solo x s = (p.solo x s).map g :=
  (Solo.start p s).run_map x g x.fuel

theorem Prog.trace_map : (p.bind fun r => .ret (g r)).trace x s = p.trace x s :=
  (Solo.start p s).trace_map x g x.fuel

end

/-- A program that comes to an answer in fewer steps than there is fuel for returns, and what
happens to memory is what has happened in these steps. -/
theorem Prog.run_of_steps {α : Type} {x : Interference} {p : Prog α} {s : State} {n : Nat}
    {tr : List Access} {d : Solo α} {r : α} (h : Solo.Steps x n (Solo.start p s) tr d)
    (hn : n ≤ x.fuel) (hd : d.rest = .ret r) :
    p.solo x s = d ∧ p.trace x s = tr ∧ (p.solo x s).result? = some r ∧
      (p.solo x s).state.shared.memory = (p.trace x s).foldl Access.apply s.shared.memory := by
  have hresult : d.result? = some r := by
    rw [Solo.result?, hd]
    rfl
  have hrun := h.extend hn hresult
  have hsolo : p.solo x s = d := hrun.run_eq
  have htrace : p.trace x s = tr := hrun.trace_eq
  rw [hsolo, htrace]
  exact ⟨rfl, rfl, hresult, h.replay.symm⟩

/-- A program returns, and reads a word and perhaps writes it at one instant. `found` is what the
word is then, and `written` what it is made, if anything: nothing happens between the two, and the
program stores nothing else. -/
structure ActsOnce {α : Type} (x : Interference) (p : Prog α) (s : State) {w : Width} (a : Addr)
    (found : Word w) (written : Option (Word w)) (answer : α) : Prop where
  returns : (p.solo x s).result? = some answer
  memory : (p.solo x s).state.shared.memory = (p.trace x s).foldl Access.apply s.shared.memory
  instant : ∃ before after,
    p.trace x s = before ++ .loaded w a found :: (written.toList.map (.stored w a) ++ after) ∧
      (before.foldl Access.apply s.shared.memory).read w a = found ∧
      (∀ e ∈ before, e.isStored = false) ∧ ∀ e ∈ after, e.isForeign = true

namespace PairIsa

open Prog

/-- One round: loads the word, stores if the word is one that is wanted, and gives up if not. -/
def attempt (isa : PairIsa) (w : Width) (a : Addr) (wanted : Register w → Prop)
    [DecidablePred wanted] (v : Register w) : Prog (Unit ⊕ Register w) := do
  let found ← perform (.loadExclusive isa w a)
  if wanted found then
    let stored ← perform (.storeExclusive isa w a v)
    return if stored then .inr found else .inl ()
  else
    perform (.clearExclusive isa)
    return .inr found

/-- Rounds until one answers, between two fences. -/
def attempts {α : Type} (isa : PairIsa) (w : Width) (a : Addr) (wanted : Register w → Prop)
    [DecidablePred wanted] (v : Register w) (answer : Register w → α) : Prog α := do
  perform (.fence (.pair isa))
  let found ← iterate (fun _ => isa.attempt w a wanted v) ()
  perform (.fence (.pair isa))
  return answer found

theorem exchange_eq (isa : PairIsa) (w : Width) (a : Addr) (v : Word w) : isa.exchange w a v =
    isa.attempts w a (fun _ => True) (Word.toRegister v) Register.toWord := rfl

theorem compareExchange_eq (isa : PairIsa) (w : Width) (a : Addr) (e d : Word w) :
    isa.compareExchange w a e d = isa.attempts w a (· = Word.toRegister e) (Word.toRegister d)
      fun found => .ofFound e (Register.toWord found) := rfl

end PairIsa

/-! ## A round -/

namespace PairIsa

open Prog

/-- What is left of a round, and of what follows the loop, once the word has been loaded. -/
def afterLoad {α : Type} (isa : PairIsa) (w : Width) (a : Addr) (wanted : Register w → Prop)
    [DecidablePred wanted] (v : Register w) (k : Register w → Prog α) (found : Register w) :
    Prog α :=
  if wanted found then
    .instr (.storeExclusive isa w a v) fun stored =>
      if stored then k found else .loop (fun _ => isa.attempt w a wanted v) () k
  else .instr (.clearExclusive isa) fun _ => k found

theorem unroll_attempt {α : Type} (isa : PairIsa) (w : Width) (a : Addr)
    (wanted : Register w → Prop) [DecidablePred wanted] (v : Register w) (k : Register w → Prog α) :
    Prog.unroll (fun _ => isa.attempt w a wanted v) () k =
      .instr (.loadExclusive isa w a) (isa.afterLoad w a wanted v k) := by
  refine congrArg (Prog.instr (.loadExclusive isa w a)) (funext fun found => ?_)
  by_cases h : wanted found
  · simp only [afterLoad, if_pos h, ret_bind, bind_eq, pure_eq]
    refine congrArg (Prog.instr (.storeExclusive isa w a v)) (funext fun stored => ?_)
    cases stored <;> rfl
  · simp only [afterLoad, if_neg h, ret_bind, bind_eq, pure_eq]
    rfl

end PairIsa

namespace Solo

variable {α : Type} {x : Interference} {c : Solo α} {isa : PairIsa} {w : Width} {a : Addr}
  {wanted : Register w → Prop} [DecidablePred wanted] {v : Register w} {k : Register w → Prog α}

/-- The load-exclusive of a round, and what is done from outside before it. -/
theorem steps_load (hx : x.budget = none)
    (hc : c.rest = .loop (fun _ => isa.attempt w a wanted v) () k) {s : State}
    (hs : x.disturb x.pokes c.events.length c.state = s) :
    Steps x 2 c (x.due x.pokes c.events.length ++ [.loaded w a (s.read w a)])
      ⟨isa.afterLoad w a wanted v k (Word.toRegister (s.read w a)), s.reserve (some ⟨w, a⟩),
        c.events ++ [.loadExclusive isa w], c.updates, c.attempts⟩ := by
  have hopen := Steps.loop (x := x) hc
  rw [PairIsa.unroll_attempt] at hopen
  have hload := hopen.trans (Steps.seen hx (i := .loadExclusive isa w a) rfl rfl rfl rfl)
  simp only [hs, List.nil_append, Instr.accesses, Register.toWord_toRegister] at hload
  exact hload

theorem not_isStored_of_isForeign {e : Access} (h : e.isForeign = true) : e.isStored = false := by
  cases e with
  | foreign w a v => rfl
  | loaded w a v => cases h
  | stored w a v => cases h

theorem due_not_isStored (schedule : List (Nat × Word x.width)) (n : Nat) :
    ∀ e ∈ x.due schedule n, e.isStored = false :=
  fun e he => not_isStored_of_isForeign (x.due_isForeign schedule n e he)

/-- The trace has one instant at which a word is loaded, and stored if it is a word that is
wanted. -/
def Instant (m : Memory) (tr : List Access) (w : Width) (a : Addr) (wanted : Register w → Prop)
    [DecidablePred wanted] (v : Register w) (word : Word w) : Prop :=
  ∃ before after, tr = before ++ .loaded w a word ::
      ((if wanted (Word.toRegister word) then [.stored w a (Register.toWord v)] else []) ++ after) ∧
    (before.foldl Access.apply m).read w a = word ∧
    (∀ e ∈ before, e.isStored = false) ∧ ∀ e ∈ after, e.isForeign = true

/-- A store-exclusive after a load-exclusive of the same word stores if nothing has come in between
and it is not rejected. -/
theorem exec_storeExclusive (isa : PairIsa) (a : Addr) (v : Register w) (n : Nat) (refused : Bool)
    (s : State) :
    (Instr.storeExclusive isa w a v).exec refused (x.disturb x.pokes n (s.reserve (some ⟨w, a⟩))) =
      if x.due x.pokes n = [] ∧ refused = false then
        (true, ((x.disturb x.pokes n (s.reserve (some ⟨w, a⟩))).write w a
          (Register.toWord v)).reserve none)
      else (false, (x.disturb x.pokes n (s.reserve (some ⟨w, a⟩))).reserve none) := by
  have hmonitor := x.monitor_disturb x.pokes n (s.reserve (some ⟨w, a⟩))
  by_cases hdue : x.due x.pokes n = []
  · rw [if_pos hdue] at hmonitor
    simp [Instr.exec, hmonitor, hdue]
  · rw [if_neg hdue] at hmonitor
    simp [Instr.exec, hmonitor, hdue]

/-- The loop is over after a round: its instant is in the trace. -/
structure Ends (isa : PairIsa) (c : Solo α) (tr : List Access) (d : Solo α) (w : Width) (a : Addr)
    (wanted : Register w → Prop) [DecidablePred wanted] (v : Register w) (k : Register w → Prog α)
    (word : Word w) : Prop where
  rest : d.rest = k (Word.toRegister word)
  instant : Instant c.state.shared.memory tr w a wanted v word
  events : d.events = c.events ++ [.loadExclusive isa w,
    if wanted (Word.toRegister word) then .storeExclusive isa w else .clearExclusive]
  updates : d.updates = c.updates

/-- The loop is where it was before a round, nothing has been stored, and there is a cause for that:
the store has been rejected, or there has been a foreign write between the load and the store. -/
structure Repeats (x : Interference) (isa : PairIsa) (w : Width) (c : Solo α) (tr : List Access)
    (d : Solo α) : Prop where
  rest : d.rest = c.rest
  quiet : ∀ e ∈ tr, e.isStored = false
  events : d.events = c.events ++ [.loadExclusive isa w, .storeExclusive isa w]
  updates : d.updates = c.updates
  attempts : d.attempts = c.attempts + 1
  cause : c.attempts ∈ x.rejects ∨ x.due x.pokes (c.events.length + 1) ≠ []

/-- What causes a round to be repeated is used up. -/
theorem Repeats.toCome_lt {tr : List Access} (h : Repeats x isa w c tr d) :
    d.toCome x < c.toCome x := by
  have hlength : d.events.length = c.events.length + 2 := by simp [h.events]
  rcases h.cause with hreject | hdue
  · exact toCome_lt_of_reject hreject h.attempts (by omega)
  · exact toCome_lt_of_due hdue (Nat.le_succ _) (by omega) (by simp [h.attempts])

/-- The word that a round loads is in memory after what is due before the load. -/
theorem read_due {s : State} (hs : x.disturb x.pokes c.events.length c.state = s) :
    ((x.due x.pokes c.events.length).foldl Access.apply c.state.shared.memory).read w a =
      s.read w a := by
  rw [← Interference.memory_disturb, hs]
  rfl

/-- A round that has loaded a word that is not wanted gives up. -/
theorem round_unwanted (hx : x.budget = none)
    (hc : c.rest = .loop (fun _ => isa.attempt w a wanted v) () k) {s : State}
    (hs : x.disturb x.pokes c.events.length c.state = s)
    (hw : ¬ wanted (Word.toRegister (s.read w a))) :
    ∃ tr d, Steps x 3 c tr d ∧ Ends isa c tr d w a wanted v k (s.read w a) := by
  have hload := steps_load hx hc hs
  rw [PairIsa.afterLoad, if_neg hw] at hload
  refine ⟨_, _, hload.trans (Steps.seen hx (i := .clearExclusive isa) rfl rfl rfl rfl), rfl,
    ⟨_, x.due x.pokes (c.events.length + 1), ?_, read_due hs, due_not_isStored _ _,
      x.due_isForeign x.pokes _⟩, ?_, rfl⟩
  · rw [if_neg hw]
    simp [Instr.accesses]
  · simp [hw]

/-- A round stores if nothing comes between its load and its store and the store is not rejected. -/
theorem round_stored (hx : x.budget = none)
    (hc : c.rest = .loop (fun _ => isa.attempt w a wanted v) () k) {s : State}
    (hs : x.disturb x.pokes c.events.length c.state = s)
    (hw : wanted (Word.toRegister (s.read w a)))
    (hdue : x.due x.pokes (c.events.length + 1) = []) (hr : x.rejects.contains c.attempts = false) :
    ∃ tr d, Steps x 3 c tr d ∧ Ends isa c tr d w a wanted v k (s.read w a) := by
  have hload := steps_load hx hc hs
  rw [PairIsa.afterLoad, if_pos hw] at hload
  have hseen : (c.events ++ [Event.loadExclusive isa w]).length = c.events.length + 1 := by simp
  have hexec := (exec_storeExclusive (x := x) isa a v (c.events.length + 1)
    (x.rejects.contains c.attempts) s).trans (if_pos ⟨hdue, hr⟩)
  rw [← hseen] at hexec
  refine ⟨_, _, hload.trans (Steps.seen hx (i := .storeExclusive isa w a v) rfl rfl rfl hexec), rfl,
    ⟨_, [], ?_, read_due hs, due_not_isStored _ _, fun e he => nomatch he⟩, ?_, rfl⟩
  · rw [if_pos hw]
    simp [Instr.accesses, hdue]
  · simp [hw]

/-- A round that has found a word that is wanted, and stores nothing, is repeated. -/
theorem round_repeated (hx : x.budget = none)
    (hc : c.rest = .loop (fun _ => isa.attempt w a wanted v) () k) {s : State}
    (hs : x.disturb x.pokes c.events.length c.state = s)
    (hw : wanted (Word.toRegister (s.read w a)))
    (hno : ¬ (x.due x.pokes (c.events.length + 1) = [] ∧ x.rejects.contains c.attempts = false)) :
    ∃ tr d, Steps x 3 c tr d ∧ Repeats x isa w c tr d := by
  have hload := steps_load hx hc hs
  rw [PairIsa.afterLoad, if_pos hw] at hload
  have hseen : (c.events ++ [Event.loadExclusive isa w]).length = c.events.length + 1 := by simp
  have hexec := (exec_storeExclusive (x := x) isa a v (c.events.length + 1)
    (x.rejects.contains c.attempts) s).trans (if_neg hno)
  rw [← hseen] at hexec
  refine ⟨_, _, hload.trans (Steps.seen hx (i := .storeExclusive isa w a v) rfl rfl rfl hexec),
    hc.symm, ?_, by simp, rfl, rfl, ?_⟩
  · intro e he
    simp only [Instr.accesses, Bool.false_eq_true, if_false, List.append_nil, List.mem_append,
      List.mem_singleton] at he
    rcases he with (he | rfl) | he
    · exact due_not_isStored _ _ e he
    · rfl
    · exact due_not_isStored _ _ e he
  -- nothing came in between, so it was a rejection
  · by_cases hdue : x.due x.pokes (c.events.length + 1) = []
    · exact .inl (by simpa [hdue] using hno)
    · exact .inr hdue

/-- **A round ends the loop, or there is a cause for repeating it.** -/
theorem round (hx : x.budget = none)
    (hc : c.rest = .loop (fun _ => isa.attempt w a wanted v) () k) :
    ∃ tr d, Steps x 3 c tr d ∧
      ((∃ word, Ends isa c tr d w a wanted v k word) ∨ Repeats x isa w c tr d) := by
  obtain ⟨s, hs⟩ : ∃ s, x.disturb x.pokes c.events.length c.state = s := ⟨_, rfl⟩
  by_cases hw : wanted (Word.toRegister (s.read w a))
  · by_cases hst : x.due x.pokes (c.events.length + 1) = [] ∧ x.rejects.contains c.attempts = false
    · obtain ⟨tr, d, hsteps, h⟩ := round_stored hx hc hs hw hst.1 hst.2
      exact ⟨tr, d, hsteps, .inl ⟨_, h⟩⟩
    · obtain ⟨tr, d, hsteps, h⟩ := round_repeated hx hc hs hw hst
      exact ⟨tr, d, hsteps, .inr h⟩
  · obtain ⟨tr, d, hsteps, h⟩ := round_unwanted hx hc hs hw
    exact ⟨tr, d, hsteps, .inl ⟨_, h⟩⟩

/-! ## The loop -/

/-- The loop is over after so many rounds that were repeated and one that was not, and there was a
cause for each repetition. -/
structure EndsAfter (x : Interference) (isa : PairIsa) (repeats : Nat) (c : Solo α)
    (tr : List Access) (d : Solo α) (w : Width) (a : Addr) (wanted : Register w → Prop)
    [DecidablePred wanted] (v : Register w) (k : Register w → Prog α) (word : Word w) : Prop where
  rest : d.rest = k (Word.toRegister word)
  instant : Instant c.state.shared.memory tr w a wanted v word
  events : d.events = c.events ++
    ((List.replicate repeats [.loadExclusive isa w, .storeExclusive isa w]).flatten ++
      [.loadExclusive isa w,
        if wanted (Word.toRegister word) then .storeExclusive isa w else .clearExclusive])
  updates : d.updates = c.updates
  causes : ∀ i < repeats,
    c.attempts + i ∈ x.rejects ∨ x.due x.pokes (c.events.length + 2 * i + 1) ≠ []
  used : d.toCome x + repeats ≤ c.toCome x

theorem Ends.endsAfter {tr : List Access} {word : Word w} {n : Nat} (hsteps : Steps x n c tr d)
    (h : Ends isa c tr d w a wanted v k word) : EndsAfter x isa 0 c tr d w a wanted v k word where
  rest := h.rest
  instant := h.instant
  events := h.events
  updates := h.updates
  causes i hi := absurd hi (Nat.not_lt_zero i)
  used := hsteps.toCome_le

theorem Instant.prepend {m : Memory} {tr tr' : List Access} {word : Word w}
    (hquiet : ∀ e ∈ tr, e.isStored = false)
    (h : Instant (tr.foldl Access.apply m) tr' w a wanted v word) :
    Instant m (tr ++ tr') w a wanted v word := by
  obtain ⟨before, after, rfl, hword, hbefore, hafter⟩ := h
  refine ⟨tr ++ before, after, (List.append_assoc ..).symm, ?_, fun e he => ?_, hafter⟩
  · rw [List.foldl_append]
    exact hword
  · rcases List.mem_append.mp he with he | he
    · exact hquiet e he
    · exact hbefore e he

/-- One more round before the others. -/
theorem Repeats.endsAfter {tr tr' : List Access} {word : Word w} {n repeats : Nat} {e : Solo α}
    (hsteps : Steps x n c tr d) (h : Repeats x isa w c tr d)
    (h' : EndsAfter x isa repeats d tr' e w a wanted v k word) :
    EndsAfter x isa (repeats + 1) c (tr ++ tr') e w a wanted v k word where
  rest := h'.rest
  instant := .prepend h.quiet (hsteps.replay ▸ h'.instant)
  events := by
    rw [h'.events, h.events]
    simp [List.replicate_succ]
  updates := h'.updates.trans h.updates
  causes i hi := by
    cases i with
    | zero => exact h.cause
    | succ i =>
      have hcause := h'.causes i (Nat.lt_of_succ_lt_succ hi)
      rw [h.attempts, h.events, List.length_append] at hcause
      have hattempt : c.attempts + 1 + i = c.attempts + (i + 1) := by omega
      have hevent : c.events.length + 2 + 2 * i + 1 = c.events.length + 2 * (i + 1) + 1 := by omega
      rw [← hattempt, ← hevent]
      exact hcause
  used := by
    have hlt := h.toCome_lt
    have hused := h'.used
    omega

/-- **The loop acts once, and ends**, three steps for each round. -/
theorem loop_ends (hx : x.budget = none)
    (hc : c.rest = .loop (fun _ => isa.attempt w a wanted v) () k) :
    ∃ repeats tr d word, Steps x (3 * repeats + 3) c tr d ∧
      EndsAfter x isa repeats c tr d w a wanted v k word := by
  -- on what is still to come: it is less after every round that does not end the loop
  induction hm : c.toCome x using Nat.strongRecOn generalizing c with
  | ind m ih =>
    obtain ⟨tr, d, hsteps, ⟨word, hround⟩ | hround⟩ := round hx hc
    · exact ⟨0, tr, d, word, hsteps, hround.endsAfter hsteps⟩
    · obtain ⟨repeats, tr', e, word, hsteps', hends⟩ :=
        ih (d.toCome x) (hm ▸ hround.toCome_lt) (hround.rest.trans hc) rfl
      have hall := hsteps.trans hsteps'
      have hcount : 3 + (3 * repeats + 3) = 3 * (repeats + 1) + 3 := by omega
      rw [hcount] at hall
      exact ⟨repeats + 1, tr ++ tr', e, word, hall, hround.endsAfter hsteps hends⟩

end Solo

/-! ## The operations -/

namespace PairIsa

open Solo

variable {α : Type} {x : Interference} {isa : PairIsa} {w : Width} {a : Addr}

/-- What is left after the first fence, with more to do in the end: the loop, and the other
fence. -/
def rounds {β : Type} (isa : PairIsa) (w : Width) (a : Addr) (wanted : Register w → Prop)
    [DecidablePred wanted] (v : Register w) (answer : Register w → α) (k : α → Prog β) : Prog β :=
  .loop (fun _ => isa.attempt w a wanted v) () fun found =>
    .instr (.fence (.pair isa)) fun _ => k (answer found)

theorem attempts_bind {β : Type} (wanted : Register w → Prop) [DecidablePred wanted]
    (v : Register w) (answer : Register w → α) (k : α → Prog β) :
      (isa.attempts w a wanted v answer).bind k =
      .instr (.fence (.pair isa)) fun _ => isa.rounds w a wanted v answer k := rfl

/-- What a context has seen and done of rounds between two fences, wherever it was when it began. -/
structure Passed {β : Type} (x : Interference) (isa : PairIsa) (repeats : Nat) (c : Solo β)
    (tr : List Access) (d : Solo β) (w : Width) (a : Addr) (wanted : Register w → Prop)
    [DecidablePred wanted] (v : Word w) (word : Word w) : Prop where
  instant : Instant c.state.shared.memory tr w a wanted (Word.toRegister v) word
  events : d.events = c.events ++ .fence (.pair isa) ::
    ((List.replicate repeats [.loadExclusive isa w, .storeExclusive isa w]).flatten ++
      [.loadExclusive isa w,
        if wanted (Word.toRegister word) then .storeExclusive isa w else .clearExclusive,
        .fence (.pair isa)])
  updates : d.updates = c.updates
  causes : ∀ i < repeats,
    c.attempts + i ∈ x.rejects ∨ x.due x.pokes (c.events.length + 2 * i + 2) ≠ []
  used : d.toCome x + repeats ≤ c.toCome x

/-- **Rounds between two fences act once, and answer**, whatever follows them. -/
theorem attempts_passed {β : Type} (hx : x.budget = none) (isa : PairIsa) (a : Addr)
    (wanted : Register w → Prop) [DecidablePred wanted] (v : Word w) (answer : Register w → α)
    (k : α → Prog β) {c : Solo β}
    (hc : c.rest = (isa.attempts w a wanted (Word.toRegister v) answer).bind k) :
    ∃ repeats tr d word, Steps x (3 * repeats + 5) c tr d ∧
      d.rest = k (answer (Word.toRegister word)) ∧
        Passed x isa repeats c tr d w a wanted v word := by
  rw [attempts_bind] at hc
  have hbegin := Steps.seen hx hc rfl rfl rfl
  obtain ⟨repeats, tr, d, word, hloop, hends⟩ :=
    loop_ends hx (c := ⟨isa.rounds w a wanted (Word.toRegister v) answer k,
      x.disturb x.pokes c.events.length c.state, c.events ++ [.fence (.pair isa)], c.updates,
      c.attempts⟩) rfl
  have hend := Steps.seen hx hends.rest rfl rfl rfl
  have hall := (hbegin.trans hloop).trans hend
  have hcount : 1 + (3 * repeats + 3) + 1 = 3 * repeats + 5 := by omega
  rw [hcount] at hall
  refine ⟨repeats, _, _, word, hall, rfl, ?_, ?_, hends.updates, fun i hi => ?_, ?_⟩
  · obtain ⟨before, after, rfl, hword, hbefore, hafter⟩ := hends.instant
    refine ⟨x.due x.pokes c.events.length ++ before, after ++ x.due x.pokes d.events.length, ?_, ?_,
      fun e he => ?_, fun e he => ?_⟩
    · simp [Instr.accesses]
    · rw [List.foldl_append, ← hword, ← Interference.memory_disturb]
    · rcases List.mem_append.mp he with he | he
      · exact due_not_isStored _ _ e he
      · exact hbefore e he
    · rcases List.mem_append.mp he with he | he
      · exact hafter e he
      · exact x.due_isForeign _ _ e he
  · rw [hends.events]
    simp
  · have hcause := hends.causes i hi
    rw [List.length_append] at hcause
    have hevent : c.events.length + 1 + 2 * i + 1 = c.events.length + 2 * i + 2 := by omega
    rw [← hevent]
    exact hcause
  · calc _ ≤ d.toCome x + repeats := Nat.add_le_add_right hend.toCome_le _
      _ ≤ _ := hends.used
      _ ≤ _ := hbegin.toCome_le

/-- **Rounds between two fences return.** -/
theorem attempts_run (hx : x.budget = none) (isa : PairIsa) (a : Addr) (wanted : Register w → Prop)
    [DecidablePred wanted] (v : Word w) (answer : Register w → α) (s : State) :
    let p := isa.attempts w a wanted (Word.toRegister v) answer
    ∃ repeats word, (p.solo x s).result? = some (answer (Word.toRegister word)) ∧
      (p.solo x s).state.shared.memory = (p.trace x s).foldl Access.apply s.shared.memory ∧
      Passed x isa repeats (Solo.start p s) (p.trace x s) (p.solo x s) w a wanted v word := by
  intro p
  obtain ⟨repeats, tr, d, word, hall, hd, hpassed⟩ :=
    attempts_passed hx isa a wanted v answer .ret (c := Solo.start p s) (Prog.bind_ret _).symm
  have hfuel : 3 * repeats + 5 ≤ x.fuel := by
    have hused := hpassed.used
    have htoCome := Solo.toCome_le (x := x) (Solo.start p s)
    unfold Interference.fuel
    omega
  obtain ⟨rfl, rfl, hresult, hmemory⟩ := Prog.run_of_steps hall hfuel hd
  exact ⟨repeats, word, hresult, hmemory, hpassed⟩

/-- **Rounds between two fences act once.** -/
theorem attempts_acts_once (hx : x.budget = none) (isa : PairIsa) (a : Addr)
    (wanted : Register w → Prop) [DecidablePred wanted] (v : Word w)
    (answer : Register w → α) (s : State) :
    ∃ found : Word w, ActsOnce x (isa.attempts w a wanted (Word.toRegister v) answer) s a found
      (if wanted (Word.toRegister found) then some v else none)
      (answer (Word.toRegister found)) := by
  obtain ⟨repeats, word, hresult, hmemory, hpassed⟩ := attempts_run hx isa a wanted v answer s
  obtain ⟨before, after, htr, hword, hbefore, hafter⟩ := hpassed.instant
  refine ⟨word, hresult, hmemory, before, after, ?_, hword, hbefore, hafter⟩
  rw [htr]
  by_cases h : wanted (Word.toRegister word)
  · simp [h]
  · simp [h]

/-- **Exclusive pairs act once, whatever interferes.** Under any finite schedule of foreign writes
and of store-exclusives that are rejected, both operations return, and have one instant. Exchange
answers what it found then and stored its operand in place of it. Compare-and-exchange stored if
what it found was what it expected, and says so; if not, it stored nothing, and expects what it
found from now on. -/
theorem exclusive_pair_acts_once (isa : PairIsa) (x : Interference)
    (hx : x.budget = none) (w : Width) (a : Addr) (s : State) :
    (∀ v : Word w, ∃ found, ActsOnce x (isa.exchange w a v) s a found (some v) found) ∧
      ∀ expected desired : Word w, ∃ found,
        ActsOnce x (isa.compareExchange w a expected desired) s a found
          (if found = expected then some desired else none)
          (if found = expected then ⟨true, expected⟩ else ⟨false, found⟩) := by
  refine ⟨fun v => ?_, fun expected desired => ?_⟩
  · obtain ⟨found, h⟩ := attempts_acts_once hx isa a (fun _ => True) v Register.toWord s
    refine ⟨found, ?_⟩
    rw [Register.toWord_toRegister, if_pos trivial] at h
    exact h
  · obtain ⟨found, h⟩ := attempts_acts_once hx isa a (· = Word.toRegister expected) desired
      (fun r => Comparison.ofFound expected (Register.toWord r)) s
    refine ⟨found, ?_⟩
    simp only [Register.toWord_toRegister, Word.toRegister_inj] at h
    exact h

/-- A foreign write before the first store-exclusive, and a rejection of the second. -/
def pokeAndRejection : Interference := { addr := .cell 0, pokes := [(2, 7)], rejects := [1] }

/-- The third round of an exchange finds the word written from outside, and stores. -/
theorem exchange_after_poke_and_rejection :
    ActsOnce pokeAndRejection (PairIsa.exchange .aarch64 .w8 (.cell 0) 9) (State.start true true)
      (.cell 0) (7 : Word .w8) (some 9) 7 := by
  obtain ⟨found, h⟩ := (exclusive_pair_acts_once .aarch64 pokeAndRejection rfl .w8 (.cell 0)
    (State.start true true)).1 9
  have hfound : some found = some 7 := h.returns.symm.trans (by decide)
  obtain rfl := Option.some.inj hfound
  exact h

end PairIsa

end Atomicity
