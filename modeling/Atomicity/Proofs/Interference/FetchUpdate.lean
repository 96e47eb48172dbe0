import Atomicity.Atomic
import Atomicity.Proofs.Interference.Primitives

/-!
# Fetch-and-update under interference

`fetchUpdate` calls the caller's function on what it has read, and again on what it has found
instead each time that its compare-and-exchange fails. `Readings` is that history: the words that
the function has been called with and the one that it is about to be called with, each read at an
instant of its own and other than the one before.

**Exactly one call counts** (`fetch_update_applies_once`): the last. Its result is written, once, in
place of the word that it was called with, which is the answer; and there are no more calls than
foreign writes, and one. A call can fail only if the word is another than the one read, so each
failure is accounted for by a foreign write, also one that brings an old word back
(`Readings.account`): that is what bounds the loop, however many store-exclusives are rejected.

A foreign write follows an event or opens a call. Where a backend's load is not seen, one before it
is one before the start; and where its compare-and-exchange is not, one before that is one in the
call.
-/

namespace Atomicity

/-- One, if memory holds another word than this. -/
def Memory.stale (m : Memory) {w : Width} (a : Addr) (v : Word w) : Nat :=
  if m.read w a = v then 0 else 1

section

variable {w : Width} {a : Addr} {m : Memory} {tr : List Access}

/-- A word is another than before only after a foreign write, where a context stores nothing. -/
theorem Memory.stale_le (hquiet : ∀ e ∈ tr, e.storesTo a = false) (v : Word w) :
    (tr.foldl Access.apply m).stale a v ≤ m.stale a v + tr.countP Access.isForeign := by
  induction tr generalizing m with
  | nil => exact Nat.le_refl _
  | cons e tr ih =>
    have hrest := ih (m := e.apply m) fun e he => hquiet e (List.mem_cons_of_mem _ he)
    have hone : (e.apply m).stale a v ≤ m.stale a v + if e.isForeign then 1 else 0 := by
      cases e with
      | foreign w' b u =>
        unfold stale
        simp only [Access.isForeign, if_true]
        split <;> omega
      | loaded w' b u => exact Nat.le_refl _
      | stored w' b u =>
        have hb : b ≠ a := of_decide_eq_false (hquiet _ List.mem_cons_self)
        simp [Access.apply, stale, Memory.read_write_of_ne _ _ hb]
    rw [List.foldl_cons, List.countP_cons]
    omega

/-- The foreign writes of a trace that only finds a word: those before the instant, without which
the word found is the one in memory before, and those after it, without which it is the one in
memory after. -/
theorem Effective.foreign {found : Word w} (h : Effective m tr a found none) :
    ∃ i j, tr.countP Access.isForeign = i + j ∧ (∀ v, found ≠ v → 1 ≤ m.stale a v + i) ∧
      (tr.foldl Access.apply m).stale a found ≤ j := by
  obtain ⟨before, after, rfl, hfound, hquiet⟩ := h
  refine ⟨before.countP Access.isForeign, after.countP Access.isForeign, ?_, fun v hv => ?_, ?_⟩
  · simp [Access.isForeign]
  · have hbefore : (before.foldl Access.apply m).stale a v ≤
        m.stale a v + before.countP Access.isForeign :=
      Memory.stale_le (fun e he => hquiet e (List.mem_append_left _ he)) v
    rwa [Memory.stale, hfound, if_neg hv] at hbefore
  · have hafter : (after.foldl Access.apply (before.foldl Access.apply m)).stale a found ≤
        (before.foldl Access.apply m).stale a found + after.countP Access.isForeign :=
      Memory.stale_le (fun e he => hquiet e (List.mem_append_right _ he)) found
    have hread : (before.foldl Access.apply m).stale a found = 0 := if_pos hfound
    rw [hread, Nat.zero_add] at hafter
    simpa [Access.apply] using hafter

/-- Nothing is stored at the address in a trace that only finds a word there. -/
theorem Effective.quiet {found : Word w} (h : Effective m tr a found none) :
    ∀ e ∈ tr, e.storesTo a = false := by
  obtain ⟨before, after, rfl, -, hquiet⟩ := h
  intro e he
  rcases List.mem_append.mp he with he | he
  · exact hquiet e (List.mem_append_left _ he)
  · rcases List.mem_cons.mp he with rfl | he
    · rfl
    · exact hquiet e (List.mem_append_right _ he)

end

/-- The history of a context from `c` to `d`, where it is about to call an update function: the
words that it has called the function with, first word first, and the one that it calls it with now.
The first is what a load has found. Every other is what has been found after a call, when nothing
was written, and is another word than that of the call. -/
inductive Readings (x : Interference) {w : Width} (a : Addr) {β : Type} (c : Solo β) :
    List (Word w) → Word w → List Access → Solo β → Prop
  | load {n : Nat} {tr : List Access} {d : Solo β} {k : Unit → Prog β} {v : Word w}
      (run : Solo.Steps x n c tr d) (updates : d.updates = c.updates)
      (enters : d.rest = .instr .enterUpdate k)
      (finds : Effective c.state.shared.memory tr a v none) :
      Readings x a c [] v tr d
  | refresh {n : Nat} {earlier : List (Word w)} {u v : Word w} {tr tr' : List Access} {d e : Solo β}
      {k : Unit → Prog β} (before : Readings x a c earlier u tr d) (run : Solo.Steps x n d tr' e)
      (updates : e.updates = d.updates + 1) (enters : e.rest = .instr .enterUpdate k)
      (differs : v ≠ u) (finds : Effective d.state.shared.memory tr' a v none) :
      Readings x a c (earlier ++ [u]) v (tr ++ tr') e

namespace Readings

variable {x : Interference} {w : Width} {a : Addr} {β : Type} {c d : Solo β}
  {earlier : List (Word w)} {v : Word w} {tr : List Access}

theorem steps (h : Readings x a c earlier v tr d) : ∃ n, Solo.Steps x n c tr d := by
  induction h with
  | load run => exact ⟨_, run⟩
  | refresh before run updates enters differs finds ih =>
    obtain ⟨n, ih⟩ := ih
    exact ⟨_, ih.trans run⟩

theorem updates (h : Readings x a c earlier v tr d) : d.updates = c.updates + earlier.length := by
  induction h with
  | load run updates => exact updates
  | refresh before run updates enters differs finds ih =>
    rw [updates, ih, List.length_append, List.length_singleton, Nat.add_assoc]

theorem quiet (h : Readings x a c earlier v tr d) : ∀ e ∈ tr, e.storesTo a = false := by
  induction h with
  | load run updates enters finds => exact finds.quiet
  | refresh before run updates enters differs finds ih =>
    exact fun e he => (List.mem_append.mp he).elim (ih e) (finds.quiet e)

/-- **Every call that has been in vain is accounted for by a foreign write**, and so is a word that
is not what is in memory any more. -/
theorem account (h : Readings x a c earlier v tr d) :
    earlier.length + d.state.shared.memory.stale a v ≤ tr.countP Access.isForeign := by
  induction h with
  | load run updates enters finds =>
    obtain ⟨i, j, hcount, -, hkept⟩ := finds.foreign
    rw [run.replay] at hkept
    rw [hcount, List.length_nil, Nat.zero_add]
    exact Nat.le_trans hkept (Nat.le_add_left j i)
  | refresh before run updates enters differs finds ih =>
    obtain ⟨i, j, hcount, hfound, hkept⟩ := finds.foreign
    have hone := hfound _ differs
    rw [run.replay] at hkept
    rw [List.countP_append, hcount, List.length_append, List.length_singleton]
    omega

end Readings

/-! ## Rounds -/

namespace Backend

open Prog

variable {τ β : Type} {x : Interference} {w : Width} {a : Addr} {m : Bool}

/-- The state of an update function after it has been called with these words. -/
def afterCalls (f : τ → Word w → Word w × τ) (start : τ) (calls : List (Word w)) : τ :=
  calls.foldl (fun t v => (f t v).2) start

theorem afterCalls_append (f : τ → Word w → Word w × τ) (start : τ) (calls : List (Word w))
    (v : Word w) :
    afterCalls f start (calls ++ [v]) = (f (afterCalls f start calls) v).2 :=
  List.foldl_append

/-- One round, from the word read and the state of the function: calls it, and tries to write its
result. -/
def updateRound (b : Backend) (w : Width) (a : Addr) (f : τ → Word w → Word w × τ)
    (y : Word w × τ) :
    Prog ((Word w × τ) ⊕ (Word w × τ)) := do
  perform .enterUpdate
  let outcome ← b.compareExchange w a y.1 (f y.2 y.1).1
  return if outcome.swapped then .inr (y.1, (f y.2 y.1).2)
    else .inl (outcome.expected, (f y.2 y.1).2)

theorem fetchUpdate_eq (b : Backend) (f : τ → Word w → Word w × τ) (start : τ) :
    b.fetchUpdate w a (fun t v => .ret (f t v)) start =
      (b.load w a).bind fun first => iterate (b.updateRound w a f) (first, start) := rfl

/-- What is left after the compare-and-exchange of a round: what follows, or the other rounds. -/
def afterExchange (b : Backend) (w : Width) (a : Addr) (f : τ → Word w → Word w × τ)
    (y : Word w × τ) (next : Word w × τ → Prog β) (outcome : Comparison (Word w)) : Prog β :=
  if outcome.swapped then next (y.1, (f y.2 y.1).2)
  else .loop (b.updateRound w a f) (outcome.expected, (f y.2 y.1).2) next

theorem unroll_updateRound (b : Backend) (f : τ → Word w → Word w × τ) (y : Word w × τ)
    (next : Word w × τ → Prog β) : unroll (b.updateRound w a f) y next =
      .instr .enterUpdate fun _ =>
        (b.compareExchange w a y.1 (f y.2 y.1).1).bind (b.afterExchange w a f y next) := by
  refine congrArg (Prog.instr .enterUpdate) (funext fun _ => ?_)
  refine (Prog.bind_assoc (b.compareExchange w a y.1 (f y.2 y.1).1) _ _).trans
    (congrArg (Prog.bind _) (funext fun outcome => ?_))
  unfold afterExchange
  cases outcome.swapped with
  | true => simp
  | false => simp

variable (hx : x.budget = none) (b : Backend)
  (hspared : b.strategy = .globalLock → x.addr ≠ .globalLock ∧ a ≠ .globalLock)

include hx hspared

/-- **A round writes the result of its call, in place of the word that the function was called with,
or it finds another word** and is about to call the function with that. -/
theorem updateRound_passes (f : τ → Word w → Word w × τ) (y : Word w × τ)
    (next : Word w × τ → Prog β) {d : Solo β} (hd : d.rest = unroll (b.updateRound w a f) y next)
    (hs : b.Stands m d.state) :
    ∃ n tr e, n + 3 * e.toCome x ≤ 42 + 3 * d.toCome x ∧ Solo.Steps x n d tr e ∧
      e.updates = d.updates + 1 ∧ b.Stands m e.state ∧
      ((e.rest = next (y.1, (f y.2 y.1).2) ∧
          Effective d.state.shared.memory tr a y.1 (some (f y.2 y.1).1)) ∨
        ∃ found ≠ y.1, e.rest = unroll (b.updateRound w a f) (found, (f y.2 y.1).2) next ∧
          Effective d.state.shared.memory tr a found none) := by
  rw [unroll_updateRound] at hd
  have henter := Solo.Steps.instr hx hd
  have hquiet : ∀ e ∈ d.due x .enterUpdate ++ [], e.storesTo a = false := by
    intro e he
    rw [List.append_nil, Solo.due] at he
    exact Access.storesTo_of_isForeign (x.due_isForeign _ _ e he) a
  have hs' : b.Stands m (d.finds x .enterUpdate) :=
    Solo.finds_induction x (b.leaves_stands hspared) .enterUpdate hs
  obtain ⟨n, tr, r, e, hn, hsteps, he, hupdates, ⟨found, rfl, heffect⟩, hs''⟩ :=
    b.acts_compareExchange hx hspared m y.1 (f y.2 y.1).1 _ hs' (b.afterExchange w a f y next)
      (d.after x .enterUpdate fun _ => _) rfl rfl
  have hall := henter.trans hsteps
  have hcome := henter.toCome_le
  replace heffect := Effective.prepend hquiet (henter.replay ▸ heffect)
  by_cases hfound : found = y.1
  · subst hfound
    simp only [if_true] at heffect
    refine ⟨_, _, e, by omega, hall, hupdates, hs'', .inl ⟨?_, heffect⟩⟩
    simpa [Comparison.ofFound, afterExchange] using he
  · simp only [if_neg hfound] at heffect
    have hloop : e.rest = .loop (b.updateRound w a f) (found, (f y.2 y.1).2) next := by
      simpa [Comparison.ofFound, hfound, afterExchange] using he
    have hopen := Solo.Steps.loop (x := x) hloop
    have hall := hall.trans hopen
    rw [List.append_nil] at hall
    refine ⟨_, _, _, ?_, hall, hupdates, hs'', .inr ⟨found, hfound, rfl, heffect⟩⟩
    calc _ ≤ 1 + n + 1 + 3 * e.toCome x := Nat.le_refl _
      _ ≤ _ := by omega

end Backend

/-! ## The loop -/

/-- From `c` to `e` a context has updated the word at an address, by calls of a function in all but
the last of which another word came in between. The result of the last call is written in place of
the word that the function was called with. -/
structure Updates (x : Interference) {w : Width} (a : Addr) {τ β : Type}
    (f : τ → Word w → Word w × τ) (start : τ) (c : Solo β) (earlier : List (Word w))
    (final : Word w) (tr : List Access) (e : Solo β) :
    Prop where
  calls : ∃ reading last d n, tr = reading ++ last ∧ Readings x a c earlier final reading d ∧
    Solo.Steps x n d last e ∧ e.updates = d.updates + 1 ∧
    Effective d.state.shared.memory last a final
      (some (f (Backend.afterCalls f start earlier) final).1)

namespace Updates

variable {x : Interference} {w : Width} {a : Addr} {τ β : Type}
  {f : τ → Word w → Word w × τ} {start : τ}
  {c e : Solo β} {earlier : List (Word w)} {final : Word w} {tr : List Access}

theorem updates (h : Updates x a f start c earlier final tr e) :
    e.updates = c.updates + earlier.length + 1 := by
  obtain ⟨reading, last, d, n, -, hreadings, -, hone, -⟩ := h.calls
  rw [hone, hreadings.updates]

/-- The word is written once, when it is what the function was last called with. -/
theorem effective (h : Updates x a f start c earlier final tr e) :
    Effective c.state.shared.memory tr a final
      (some (f (Backend.afterCalls f start earlier) final).1) := by
  obtain ⟨reading, last, d, n, rfl, hreadings, -, -, heffect⟩ := h.calls
  obtain ⟨m, hsteps⟩ := hreadings.steps
  exact .prepend hreadings.quiet (hsteps.replay ▸ heffect)

/-- There are no more calls than foreign writes, and one. -/
theorem length_le (h : Updates x a f start c earlier final tr e) :
    earlier.length ≤ tr.countP Access.isForeign := by
  obtain ⟨reading, last, d, n, rfl, hreadings, -, -, -⟩ := h.calls
  have haccount := hreadings.account
  rw [List.countP_append]
  omega

end Updates

namespace Backend

open Prog

variable {τ β : Type} {x : Interference} {w : Width} {a : Addr} {m : Bool} (hx : x.budget = none)
  (b : Backend) (hspared : b.strategy = .globalLock → x.addr ≠ .globalLock ∧ a ≠ .globalLock)

include hx hspared

/-- The rounds come to an end, in so many steps for each that is in vain. -/
theorem rounds_end (f : τ → Word w → Word w × τ) (start : τ) (next : Word w × τ → Prog β)
    {c d : Solo β} {earlier : List (Word w)} {v : Word w} {tr : List Access} {n : Nat}
    (hreadings : Readings x a c earlier v tr d) (hsteps : Solo.Steps x n c tr d)
    (hd : d.rest = unroll (b.updateRound w a f) (v, afterCalls f start earlier) next)
    (hs : b.Stands m d.state)
    (hn : n + 3 * d.toCome x ≤ 41 + 42 * earlier.length + 3 * c.toCome x) :
    ∃ n earlier final tr e, n + 3 * e.toCome x ≤ 41 + 42 * (earlier.length + 1) + 3 * c.toCome x ∧
      Solo.Steps x n c tr e ∧ Updates x a f start c earlier final tr e ∧
      e.rest = next (final, (f (afterCalls f start earlier) final).2) ∧ b.Stands m e.state := by
  -- on the foreign writes to come, and on whether the word is another already: after a round in
  -- vain there are fewer of them, since one has made it so
  induction hmeasure : d.state.shared.memory.stale a v + d.writesToCome x using Nat.strongRecOn
    generalizing d earlier v tr n with
  | ind k ih =>
    obtain ⟨i, tr', e, hi, hround, hupdates, hs', h⟩ :=
      b.updateRound_passes hx hspared f _ next hd hs
    rcases h with ⟨he, heffect⟩ | ⟨found, hne, he, heffect⟩
    · refine ⟨n + i, earlier, v, tr ++ tr', e, by omega, hsteps.trans hround, ⟨?_⟩, he, hs'⟩
      exact ⟨tr, tr', d, i, rfl, hreadings, hround, hupdates, heffect⟩
    · have hopen :=
        unroll_updateRound (a := a) b f (found, (f (afterCalls f start earlier) v).2) next
      have hmore := Readings.refresh hreadings hround hupdates (he.trans hopen) hne heffect
      rw [← afterCalls_append] at he
      obtain ⟨p, q, hcount, hfound, hkept⟩ := heffect.foreign
      have hone := hfound v hne
      have hwrites := hround.writes
      rw [hround.replay] at hkept
      refine ih _ ?_ hmore (hsteps.trans hround) he hs' ?_ rfl
      · omega
      · rw [List.length_append, List.length_singleton]
        omega

/-- **A word is updated by the last of finitely many calls**, whatever follows. -/
theorem fetchUpdate_updates (f : τ → Word w → Word w × τ) (start : τ) (next : Word w × τ → Prog β)
    {c : Solo β} (hc : c.rest = (b.fetchUpdate w a (fun t v => .ret (f t v)) start).bind next)
    (hs : b.Stands m c.state) :
    ∃ n earlier final tr e, n + 3 * e.toCome x ≤ 41 + 42 * (earlier.length + 1) + 3 * c.toCome x ∧
      Solo.Steps x n c tr e ∧ Updates x a f start c earlier final tr e ∧
      e.rest = next (final, (f (afterCalls f start earlier) final).2) ∧ b.Stands m e.state := by
  rw [fetchUpdate_eq, Prog.bind_assoc] at hc
  obtain ⟨n, tr, v, d, hn, hload, hd, hupdates, ⟨_, rfl, heffect⟩, hs'⟩ :=
    b.acts_load hx hspared m w c.state hs _ c hc rfl
  have hloop : d.rest = .loop (b.updateRound w a f) (v, start) next := hd
  have hopen := hload.trans (Solo.Steps.loop (x := x) hloop)
  rw [List.append_nil] at hopen
  exact b.rounds_end hx hspared f start next
    (.load hopen hupdates (unroll_updateRound b f (v, start) next) heffect) hopen rfl hs' (by
      calc _ ≤ n + 1 + 3 * d.toCome x := Nat.le_refl _
        _ ≤ _ := by simp; omega)

/-- An update from the start of a program answers within its fuel. -/
theorem fetchUpdate_runs {α : Type} (f : τ → Word w → Word w × τ) (start : τ)
    (answer : Word w × τ → α) {p : Prog α} {s : State}
    (hp : p = (b.fetchUpdate w a (fun t v => .ret (f t v)) start).bind fun r => .ret (answer r))
    (hs : b.Stands m s) :
    ∃ earlier final,
      (p.solo x s).result? = some (answer (final, (f (afterCalls f start earlier) final).2)) ∧
      Updates x a f start (Solo.start p s) earlier final (p.trace x s) (p.solo x s) ∧
      (p.solo x s).state.shared.memory = (p.trace x s).foldl Access.apply s.shared.memory ∧
      (p.trace x s).countP Access.isForeign ≤ x.pokes.length + x.updatePokes.length := by
  obtain ⟨n, earlier, final, tr, e, hn, hsteps, hupdates, he, -⟩ :=
    b.fetchUpdate_updates hx hspared f start (fun r => .ret (answer r)) (c := Solo.start p s) hp hs
  have hwrites := hsteps.writes
  have hwritesToCome := Solo.writesToCome_le (x := x) (Solo.start p s)
  have hfuel : n ≤ x.fuel := by
    have hlength := hupdates.length_le
    have htoCome := Solo.toCome_le (x := x) (Solo.start p s)
    unfold Interference.fuel
    omega
  obtain ⟨rfl, rfl, hresult, hmemory⟩ := Prog.run_of_steps hsteps hfuel he
  exact ⟨earlier, final, hresult, hupdates, hmemory, by omega⟩

end Backend

/-- A program that updates a word applies exactly one call of a function, to the word that it
answers: it has called the function with `earlier`, in vain, and with `final`. -/
structure AppliesOnce {α τ : Type} (x : Interference) (p : Prog (α × τ)) (s : State)
    {w : Width} (a : Addr) (f : τ → Word w → Word w × τ) (start : τ) (answer : Word w → α)
    (earlier : List (Word w)) (final : Word w) : Prop where
  returns : (p.solo x s).result? =
    some (answer final, (f (Backend.afterCalls f start earlier) final).2)
  calls : Updates x a f start (Solo.start p s) earlier final (p.trace x s) (p.solo x s)
  updates : (p.solo x s).updates = earlier.length + 1
  memory : (p.solo x s).state.shared.memory = (p.trace x s).foldl Access.apply s.shared.memory
  effective : Effective s.shared.memory (p.trace x s) a final
    (some (f (Backend.afterCalls f start earlier) final).1)
  bounded : earlier.length ≤ (p.trace x s).countP Access.isForeign
  foreign : (p.trace x s).countP Access.isForeign ≤ x.pokes.length + x.updatePokes.length

/-- An update on a backend that nobody keeps waiting applies one call, also if something is made of
the word that it answers. -/
theorem Backend.Unhindered.applies_once {α τ : Type} {b : Backend} {x : Interference}
    {w : Width} {a : Addr} {s : State} (hx : x.budget = none) (hs : b.Unhindered x a s)
    (f : τ → Word w → Word w × τ) (start : τ) (answer : Word w → α) {p : Prog (α × τ)}
    (hp : p = (b.fetchUpdate w a (fun t v => .ret (f t v)) start).bind fun r =>
      .ret (answer r.1, r.2)) :
    ∃ earlier final, AppliesOnce x p s a f start answer earlier final := by
  obtain ⟨earlier, final, hreturns, hupdates, hmemory, hforeign⟩ :=
    b.fetchUpdate_runs hx hs.spared f start (fun r => (answer r.1, r.2)) hp hs.stands
  refine ⟨earlier, final, hreturns, hupdates, ?_, hmemory, hupdates.effective,
    hupdates.length_le, hforeign⟩
  rw [hupdates.updates]
  exact congrArg (· + 1) (Nat.zero_add _)

/-- **Fetch-and-update applies one call of its function, to the word that it answers, whatever
interferes.** For every backend that nobody keeps waiting, every function with a state of its own,
and every finite schedule of foreign writes and rejections, the operation returns. It has called the
function first with what its load has found, and then with what each compare-and-exchange that
failed has found, always another word than before. It answers the word of the last call, and has
written the result of that call, once, when the word was that one. No more calls were made than
there were foreign writes, and one. A cell does the same, with the function's arguments and results
converted. -/
theorem fetch_update_applies_once (b : Backend) (x : Interference) (hx : x.budget = none) {τ : Type}
    (start : τ) :
    (∀ (w : Width) (a : Addr) (s : State) (f : τ → Word w → Word w × τ), b.Unhindered x a s →
      ∃ earlier final, AppliesOnce x (b.fetchUpdate w a (fun u v => .ret (f u v)) start)
        s a f start id earlier final) ∧
    ∀ (t : Scalar) (a : Addr) (s : State) (f : τ → t.Value → t.Value × τ), b.Unhindered x a s →
      ∃ earlier final,
        AppliesOnce x ((⟨b, a⟩ : Atomic t).fetchUpdate (fun u v => .ret (f u v)) start) s a
        (fun u v => ((f u (.ofRepr v)).1.toRepr, (f u (.ofRepr v)).2)) start Scalar.Value.ofRepr
        earlier final := by
  constructor
  · intro w a s f hs
    exact hs.applies_once hx f start id (Prog.bind_ret _).symm
  · intro t a s f hs
    exact hs.applies_once hx _ start Scalar.Value.ofRepr rfl

/-- A function that adds one, and lists what it has been called with. -/
def Backend.incrementing (calls : List (Word .w8)) (v : Word .w8) : Word .w8 × List (Word .w8) :=
  (v + 1, calls ++ [v])

/-- A foreign write in the first call of an update function; and in the second call one that brings
another word and one that brings the old one back. -/
def Backend.thereAndBack : Interference :=
  { addr := .cell 0, updatePokes := [(0, 5), (1, 9), (1, 5)] }

/-- A cell of zero is incremented to six, by the second call. -/
theorem Backend.second_call_applied :
    AppliesOnce thereAndBack
      (Backend.fetchUpdate (.pair .aarch64) .w8 (.cell 0) (fun u v => .ret (incrementing u v)) [])
      (State.start true true) (.cell 0) incrementing [] id [0] 5 := by
  have hs : Backend.Unhindered (.pair .aarch64) thereAndBack (.cell 0) (State.start true true) :=
    ⟨Controller.noConfusion, Strategy.noConfusion, Strategy.noConfusion⟩
  obtain ⟨earlier, final, h⟩ :=
    (fetch_update_applies_once (.pair .aarch64) thereAndBack rfl []).1 .w8 (.cell 0) _
      incrementing hs
  have hcount : earlier.length = 1 := Nat.succ.inj (h.updates.symm.trans (by decide))
  obtain ⟨v, rfl⟩ := List.length_eq_one_iff.mp hcount
  have hresult : some (final, [v, final]) = some (5, [0, 5]) := h.returns.symm.trans (by decide)
  obtain ⟨rfl, hv⟩ := Prod.mk.inj (Option.some.inj hresult)
  obtain rfl : v = 0 := (List.cons.inj hv).1
  exact h

end Atomicity
