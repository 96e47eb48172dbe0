import Atomicity.Proofs.Interference.Sequences

/-!
# An update calls its function outside

`fetchUpdate` calls a program of the caller between two operations of its own, the one that has read
the word and the one that is to write it. `Updating` is such an update, with any function at all,
and `Updating.Calls` are its calls: each with the states in which the calls before it have returned,
with what the function is called with, and with what the update itself has done to memory meanwhile.
`Updating.At` says where an update can be in the middle of a run: reading the word, in one of these
calls, in a compare-and-exchange after it, or at its end. It is always in one of these places
(`Updating.at_run`), so nothing else ever calls the function.

**An update holds nothing while the function runs** (`fetch_update_calls_outside`). It begins every
call outside of every lock and mask, if the earlier ones have returned there; so a function of
operations is always called there, and never waits for the global lock. What it writes to the word
of the update counts as a foreign write does: the compare-and-exchange after it finds what is there
by then. And since the update has stored nothing before it is the last, a function that gives up in
the middle leaves nothing behind but what it has done itself.
-/

namespace Atomicity

open Prog

namespace Solo

variable {α β : Type}

/-- A context that goes on after a program is in the program still, or has its answer behind it. -/
theorem run_andThen_cases (x : Interference) (n : Nat) (c : Solo α) (f : α → Prog β) :
    (c.andThen f).run x n = (c.run x n).andThen f ∨
      ∃ m r, m ≤ n ∧ (c.run x m).rest = .ret r ∧
        (c.andThen f).run x n = ((c.run x m).resume (f r)).run x (n - m) := by
  induction n generalizing c with
  | zero => exact .inl rfl
  | succ n ih =>
    cases hr : c.result? with
    | some r =>
      exact .inr ⟨0, r, Nat.zero_le _, rest_of_result hr, by rw [andThen_of_result f hr]; rfl⟩
    | none =>
      have hthen := step_andThen x f hr
      cases hs : c.step x with
      | none =>
        rw [hs] at hthen
        exact .inl (by rw [run_of_step_none x _ hs, run_of_step_none x _ hthen])
      | some d =>
        rw [hs] at hthen
        rw [run_succ x n hs, run_succ x n hthen]
        rcases ih d with h | ⟨m, r, hm, hd, h⟩
        · exact .inl h
        · refine .inr ⟨m + 1, r, Nat.succ_le_succ hm, ?_, ?_⟩
          · rw [run_succ x m hs]
            exact hd
          · rw [run_succ x m hs, Nat.add_sub_add_right]
            exact h

/-- What a context has left to execute is no part of its state. -/
theorem state_resume {γ : Type} (c : Solo α) (p : Prog β) (q : Prog γ) :
    (c.resume p).state = (c.resume q).state :=
  rfl

/-- A context whose program begins with another is one that goes on after that. -/
theorem eq_andThen {p : Prog α} {f : α → Prog β} {c : Solo β} (h : c.rest = p.bind f) :
    c = (c.resume p).andThen f := by
  obtain ⟨rest, s, es, u, i⟩ := c
  cases h
  rfl

end Solo

/-- Where nothing is written from outside, the word found is the one in memory. -/
theorem Effective.found_of_no_foreign {m : Memory} {tr : List Access} {w : Width} {a : Addr}
    {found : Word w} {written : Option (Word w)} (h : Effective m tr a found written)
    (hforeign : ∀ e ∈ tr, e.isForeign = false) :
    found = m.read w a := by
  obtain ⟨before, after, rfl, hfound, hquiet⟩ := h
  have hkept :=
    Memory.stale_le (m := m) (fun e he => hquiet e (List.mem_append_left _ he)) (m.read w a)
  have hnone : before.countP Access.isForeign = 0 :=
    List.countP_eq_zero.mpr fun e he =>
      Bool.eq_false_iff.mp (hforeign e (List.mem_append_left _ he))
  rw [hnone, Memory.stale, Memory.stale, if_pos rfl, hfound] at hkept
  split at hkept
  · assumption
  · omega

/-- An update of a word by a function that is a program with a state of its own. -/
structure Updating (w : Width) (τ : Type) where
  backend : Backend
  addr : Addr
  function : τ → Word w → Prog (Word w × τ)

namespace Updating

variable {w : Width} {τ β : Type} (u : Updating w τ)

def prog (start : τ) : Prog (Word w × τ) := u.backend.fetchUpdate w u.addr u.function start

/-- The function is called. -/
def call (t : τ) (v : Word w) : Prog (Word w × τ) :=
  (perform .enterUpdate).bind fun _ => u.function t v

/-- Calls the function and tries to write what it answers. -/
def round (y : Word w × τ) : Prog ((Word w × τ) ⊕ (Word w × τ)) := do
  perform .enterUpdate
  let (new, t) ← u.function y.2 y.1
  let outcome ← u.backend.compareExchange w u.addr y.1 new
  return if outcome.swapped then .inr (y.1, t) else .inl (outcome.expected, t)

theorem prog_eq (start : τ) : u.prog start =
    (u.backend.load w u.addr).bind fun first => iterate u.round (first, start) := rfl

variable (next : Word w × τ → Prog β)

/-- What follows when the function has been called on a word and has answered, and the
compare-and-exchange too: the end, or another call. -/
def afterExchange (v : Word w) (t : τ) (outcome : Comparison (Word w)) : Prog β :=
  if outcome.swapped then next (v, t) else .loop u.round (outcome.expected, t) next

/-- What follows when the function has been called on a word and has answered. -/
def afterCall (v : Word w) (y : Word w × τ) : Prog β :=
  (u.backend.compareExchange w u.addr v y.1).bind (u.afterExchange next v y.2)

theorem unroll_round (t : τ) (v : Word w) :
    unroll u.round (v, t) next = (u.call t v).bind (u.afterCall next v) := by
  refine congrArg (Prog.instr .enterUpdate) (funext fun _ => ?_)
  refine (Prog.bind_assoc (u.function t v) _ _).trans (congrArg (Prog.bind _) (funext fun y => ?_))
  refine (Prog.bind_assoc (u.backend.compareExchange w u.addr v y.1) _ _).trans
    (congrArg (Prog.bind _) (funext fun outcome => ?_))
  unfold afterExchange
  cases outcome.swapped with
  | true => simp
  | false => simp

theorem prog_bind (start : τ) : (u.prog start).bind next =
    (u.backend.load w u.addr).bind fun first => .loop u.round (first, start) next := by
  rw [prog_eq, Prog.bind_assoc]
  rfl

/-- The step that opens another round is one to another call. -/
theorem open_round (x : Interference) {α : Type} (g : Solo α) (t : τ) (v : Word w) :
    Solo.Steps x 1 (g.resume (.loop u.round (v, t) next)) []
      (g.resume ((u.call t v).bind (u.afterCall next v))) := by
  have h := Solo.Steps.loop (x := x) (c := g.resume (.loop u.round (v, t) next)) rfl
  rw [unroll_round] at h
  exact h

/-! ## The calls -/

/-- A context from `c` on calls the function of an update: `returned` are the states in which the
earlier calls have returned, `t` and `v` are what the function is called with now, the trace is that
of the update's own operations so far, and the context is in the state in which the function is
called. -/
inductive Calls (x : Interference) (start : τ) (c : Solo β) :
    List State → τ → Word w → List Access → Solo β → Prop
  /-- The first call, on the word that has been read. -/
  | first {n : Nat} {tr : List Access} {d : Solo (Word w)} {v : Word w}
      (read : Solo.Steps x n (c.resume (u.backend.load w u.addr)) tr d)
      (answers : d.rest = .ret v) :
      Calls x start c [] start v tr (d.resume ((u.call start v).bind (u.afterCall next v)))
  /-- Another call, on the word that a compare-and-exchange has found after the call before. -/
  | again {returned : List State} {t : τ} {v found : Word w} {tr tr' tr'' : List Access}
      {d : Solo β} {m n : Nat} {y : Word w × τ} {e : Solo (Word w × τ)}
      {g : Solo (Comparison (Word w))}
      (before : Calls x start c returned t v tr d)
      (calls : Solo.Steps x m (d.resume (u.call t v)) tr' e) (answers : e.rest = .ret y)
      (exchanges : Solo.Steps x n (e.resume (u.backend.compareExchange w u.addr v y.1)) tr'' g)
      (fails : g.rest = .ret ⟨false, found⟩) :
      Calls x start c (returned ++ [e.state]) y.2 found (tr ++ tr'')
        (g.resume ((u.call y.2 found).bind (u.afterCall next found)))

/-- Where a context from `c` on can be in an update, or after it. -/
inductive At (x : Interference) (start : τ) (c : Solo β) : Solo β → Prop
  | loading (n : Nat) : At x start c
      (((c.resume (u.backend.load w u.addr)).run x n).andThen fun first =>
        .loop u.round (first, start) next)
  | calling {returned : List State} {t : τ} {v : Word w} {tr : List Access} {d : Solo β}
      (history : u.Calls next x start c returned t v tr d) (n : Nat) :
      At x start c (((d.resume (u.call t v)).run x n).andThen (u.afterCall next v))
  | exchanging {returned : List State} {t : τ} {v : Word w} {tr : List Access}
      {d : Solo β} {m : Nat} {y : Word w × τ} (history : u.Calls next x start c returned t v tr d)
      (answers : ((d.resume (u.call t v)).run x m).rest = .ret y) (n : Nat) :
      At x start c ((((((d.resume (u.call t v)).run x m).resume
        (u.backend.compareExchange w u.addr v y.1))).run x n).andThen (u.afterExchange next v y.2))
  | done {returned : List State} {t : τ} {v found : Word w} {tr : List Access}
      {d : Solo β} {m k : Nat} {y : Word w × τ} {g : Solo (Comparison (Word w))}
      (history : u.Calls next x start c returned t v tr d)
      (answers : ((d.resume (u.call t v)).run x m).rest = .ret y)
      (exchanges : (((d.resume (u.call t v)).run x m).resume
        (u.backend.compareExchange w u.addr v y.1)).run x k = g)
        (succeeds : g.rest = .ret ⟨true, found⟩) (n : Nat) :
      At x start c ((g.resume (next (v, y.2))).run x n)

variable {u next} {x : Interference} {start : τ} {c d : Solo β} {returned : List State}
  {t : τ} {v : Word w} {tr : List Access}

namespace Calls

theorem rest (h : u.Calls next x start c returned t v tr d) :
    d.rest = (u.call t v).bind (u.afterCall next v) := by
  cases h <;> rfl

/-- The calls are those of a run. -/
theorem steps (hc : c.rest = (u.prog start).bind next)
    (h : u.Calls next x start c returned t v tr d) :
    ∃ n, c.run x n = d := by
  suffices h : ∃ n tr', Solo.Steps x n c tr' d by
    obtain ⟨n, tr', hsteps⟩ := h
    exact ⟨n, hsteps.run_eq⟩
  induction h with
  | first read answers =>
    rw [prog_bind] at hc
    obtain ⟨n, -, hsteps⟩ := read.andThen answers fun first => .loop u.round (first, start) next
    rw [← Solo.eq_andThen hc] at hsteps
    exact ⟨_, _, hsteps.trans (u.open_round next x _ _ _)⟩
  | again before calls answers exchanges fails ih =>
    obtain ⟨n, tr', hsteps⟩ := ih
    obtain ⟨i, -, hcall⟩ := calls.andThen answers (u.afterCall next _)
    rw [← Solo.eq_andThen before.rest] at hcall
    obtain ⟨j, -, hexchange⟩ := exchanges.andThen fails (u.afterExchange next _ _)
    exact ⟨_, _, ((hsteps.trans hcall).trans hexchange).trans (u.open_round next x _ _ _)⟩

/-- From a call on, the context is in one of the places. -/
theorem at_run (h : u.Calls next x start c returned t v tr d) (n : Nat) :
    u.At next x start c (d.run x n) := by
  -- a call that is in vain takes at least the step that opens the next round
  induction n using Nat.strongRecOn generalizing d returned t v tr with
  | ind n ih =>
    rw [Solo.eq_andThen h.rest]
    rcases Solo.run_andThen_cases x n (d.resume (u.call t v)) (u.afterCall next v) with hin |
      ⟨m, y, hm, hy, hout⟩
    · rw [hin]
      exact .calling h n
    · rw [hout]
      let e := (d.resume (u.call t v)).run x m
      have hexchange :=
        Solo.run_andThen_cases x (n - m) (e.resume (u.backend.compareExchange w u.addr v y.1))
          (u.afterExchange next v y.2)
      rcases hexchange with hin | ⟨k, ⟨swapped, found⟩, hk, hg, hout⟩
      · exact hin ▸ .exchanging h hy (n - m)
      · change u.At next x start c (((e.resume (u.backend.compareExchange w u.addr v y.1)).andThen
          (u.afterExchange next v y.2)).run x (n - m))
        rw [hout]
        cases swapped with
        | true => exact .done h hy rfl hg _
        | false =>
          cases hleft : n - m - k with
          | zero =>
            have hloop :=
              Solo.andThen_of_result (u.afterExchange next v y.2) (congrArg Prog.result? hg)
            exact hloop ▸ .exchanging h hy k
          | succ left =>
            rw [Nat.add_comm, Solo.run_add]
            have hopen := (u.open_round next x
              ((e.resume (u.backend.compareExchange w u.addr v y.1)).run x k) y.2 found).run_eq
            have hmore := ih left (by omega) (.again h ⟨rfl, rfl⟩ hy ⟨rfl, rfl⟩ hg)
            rw [← hopen] at hmore
            exact hmore

end Calls

/-- **A context is always in one of the places of its update**, or after it. -/
theorem at_run (hc : c.rest = (u.prog start).bind next) (n : Nat) :
    u.At next x start c (c.run x n) := by
  rw [prog_bind] at hc
  have hread := Solo.run_andThen_cases x n (c.resume (u.backend.load w u.addr))
    fun first => .loop u.round (first, start) next
  rw [← Solo.eq_andThen hc] at hread
  rcases hread with hin | ⟨m, first, hm, hanswer, hout⟩
  · exact hin ▸ .loading n
  · rw [hout]
    cases hleft : n - m with
    | zero =>
      have hloop := Solo.andThen_of_result (fun first => .loop u.round (first, start) next)
        (congrArg Prog.result? hanswer)
      exact hloop ▸ .loading m
    | succ left =>
      rw [Nat.add_comm, Solo.run_add, (u.open_round next x _ start first).run_eq]
      exact Calls.at_run (.first ⟨rfl, rfl⟩ hanswer) left

/-! ## Outside -/

section

variable {core : Core} (hlock : x.addr ≠ .globalLock) (ha : u.addr ≠ .globalLock)

include hlock ha

/-- **A call is made outside, if the update has been begun there and the earlier calls have returned
there.** -/
theorem Calls.outside (h : u.Calls next x start c returned t v tr d) (hs : c.state.Outside core)
    (hreturned : ∀ s ∈ returned, s.Outside core) : d.state.Outside core := by
  cases h with
  | first read answers =>
    have hload : Tidy u.backend (u.backend.load w u.addr) := .operation ha (.load w)
    have hend :=
      (hload.run hlock (c := c.resume (u.backend.load w u.addr)) rfl hs _).2.2 v
        (read.run_eq ▸ answers)
    exact read.run_eq ▸ hend
  | @again _ _ v' _ _ _ _ _ _ _ y e _ before calls answers exchanges fails =>
    have hexchange : Tidy u.backend (u.backend.compareExchange w u.addr v' y.1) :=
      .operation ha (.compareExchange _ _)
    have he : e.state.Outside core :=
      hreturned e.state (List.mem_append_right _ (List.mem_singleton_self _))
    have hend := (hexchange.run hlock (c := e.resume (u.backend.compareExchange w u.addr v' y.1))
      rfl he _).2.2 _ (exchanges.run_eq ▸ fails)
    exact exchanges.run_eq ▸ hend

variable (hx : x.budget = none)

include hx

/-- After a call that returns ready, the compare-and-exchange comes to its end. It finds the word as
it is by then, and writes what the function has answered only where that is the word of the call. -/
theorem exchange_ends {s : State} (hs : u.backend.Ready core s) (v new : Word w) :
    (u.backend.compareExchange w u.addr v new).Ends x s fun outcome tr s' =>
      u.backend.Ready core s' ∧
      ∃ found, outcome = .ofFound v found ∧
        Effective s.shared.memory tr u.addr found (if found = v then some new else none) :=
  ((u.backend.acts_compareExchange hx (fun _ => ⟨hlock, ha⟩) core.masked v new s
    hs.stands).ends.ready (fun _ _ _ hr => hr.2) (.operation ha (.compareExchange v new)) hlock
      hs.outside).mono fun _ _ _ hr => ⟨hr.1, hr.2.1⟩

/-- A call is made ready, if the update has been begun so and the earlier calls have returned so;
and the update has stored nothing until then. -/
theorem Calls.ready (h : u.Calls next x start c returned t v tr d)
    (hs : u.backend.Ready core c.state) (hreturned : ∀ s ∈ returned, u.backend.Ready core s) :
    u.backend.Ready core d.state ∧ ∀ e ∈ tr, e.storesTo u.addr = false := by
  induction h with
  | first read answers =>
    have hload :=
      (u.backend.acts_load hx (fun _ => ⟨hlock, ha⟩) core.masked w c.state hs.stands).ends.ready
        (fun _ _ _ hr => hr.2) (.operation ha (.load w)) hlock hs.outside
    obtain ⟨m, tr', r, d', hsteps, hd', hready, ⟨found, -, heffect⟩, -⟩ :=
      hload (c.resume (u.backend.load w u.addr)) rfl rfl
    obtain ⟨rfl, rfl⟩ := read.unique hsteps answers hd'
    exact ⟨hready, heffect.quiet⟩
  | @again _ _ v' found' _ _ _ _ _ _ y e _ before calls answers exchanges fails ih =>
    have he : u.backend.Ready core e.state :=
      hreturned e.state (List.mem_append_right _ (List.mem_singleton_self _))
    have hquiet := (ih fun s hs => hreturned s (List.mem_append_left _ hs)).2
    obtain ⟨m, tr', r, g', hsteps, hg', hready, found, rfl, heffect⟩ :=
      exchange_ends hlock ha hx he v' y.1
        (e.resume (u.backend.compareExchange w u.addr v' y.1)) rfl rfl
    obtain ⟨rfl, rfl⟩ := exchanges.unique hsteps fails hg'
    have houtcome : (⟨false, found'⟩ : Comparison (Word w)) = .ofFound v' found :=
      Prog.ret.inj (fails.symm.trans hg')
    have hne : found ≠ v' := by
      rintro rfl
      simp [Comparison.ofFound] at houtcome
    rw [if_neg hne] at heffect
    exact ⟨hready, fun s hs => (List.mem_append.mp hs).elim (hquiet s) (heffect.quiet s)⟩

end

/-- What a call of the function can rely on, and what comes of it. -/
structure SafeCall (u : Updating w τ) (x : Interference) (core : Core) (t : τ) (v : Word w)
    (tr : List Access) (d : Solo β) : Prop where
  ready : u.backend.Ready core d.state
  /-- The update has stored nothing so far. -/
  quiet : ∀ e ∈ tr, e.storesTo u.addr = false
  /-- Operations that the function begins with come to their end, whatever it does then, and leave
  the context ready. Whenever they take the global lock, it is free. -/
  performs : ∀ {α : Type} {q : Prog α} {k : α → Prog (Word w × τ)}, Sequence u.backend q →
    u.function t v = q.bind k →
      ((perform .enterUpdate).bind fun _ => q).Ends x d.state
        (fun _ _ s => u.backend.Ready core s) ∧
      ∀ n k', ((d.resume ((perform .enterUpdate).bind fun _ => q)).run x n).rest =
          .instr (.write .w64 .globalLock 1) k' →
        ((d.resume ((perform .enterUpdate).bind fun _ => q)).run x n).state.read .w64
          .globalLock = 0
  /-- Where the function has answered, the compare-and-exchange comes to its end. It finds what is
  in memory by then, and writes only where that is the word of the call. -/
  exchanges : ∀ {m : Nat} {tr' : List Access} {y : Word w × τ} {e : Solo (Word w × τ)},
    Solo.Steps x m (d.resume (u.call t v)) tr' e → e.rest = .ret y → u.backend.Ready core e.state →
      (u.backend.compareExchange w u.addr v y.1).Ends x e.state fun outcome tr'' s =>
        u.backend.Ready core s ∧ ∃ found, outcome = .ofFound v found ∧
          Effective e.state.shared.memory tr'' u.addr found (if found = v then some y.1 else none) ∧
          ((∀ a ∈ tr'', a.isForeign = false) → found = e.state.read w u.addr)

/-- A sequence of operations comes to its end also where a function begins with it. -/
theorem enters_ends {α : Type} {q : Prog α} {core : Core} {s : State} {b : Backend}
    (hq : Sequence b q) (hx : x.budget = none) (hlock : x.addr ≠ .globalLock)
    (hs : b.Ready core s) :
    ((perform .enterUpdate).bind fun _ => q).Ends x s fun _ _ s' => b.Ready core s' := by
  intro c hc hcs
  have henter := Solo.Steps.instr hx hc
  have hready : b.Ready core (c.finds x .enterUpdate) :=
    Solo.finds_induction x (Backend.Ready.leaves hlock) .enterUpdate (hcs ▸ hs)
  obtain ⟨m, tr, r, d, hsteps, hd, hend⟩ :=
    hq.ends hx hlock hready (c.after x .enterUpdate fun _ => q) rfl rfl
  exact ⟨1 + m, _, r, d, henter.trans hsteps, hd, hend⟩

theorem Calls.safe {core : Core} (hlock : x.addr ≠ .globalLock) (ha : u.addr ≠ .globalLock)
    (hx : x.budget = none) (h : u.Calls next x start c returned t v tr d)
    (hs : u.backend.Ready core c.state)
    (hreturned : ∀ s ∈ returned, u.backend.Ready core s) : u.SafeCall x core t v tr d := by
  obtain ⟨hready, hquiet⟩ := h.ready hlock ha hx hs hreturned
  refine ⟨hready, hquiet, fun {α q k} hq _ => ⟨enters_ends hq hx hlock hready, fun n k' hk => ?_⟩,
    fun _ _ he => (exchange_ends hlock ha hx he v _).mono fun _ _ _ hr => ?_⟩
  · have htidy : Tidy u.backend ((perform .enterUpdate).bind fun _ => q) :=
      .bind (.operation ha .enterUpdate) fun _ => hq.tidy
    exact (htidy.run hlock (c := d.resume ((perform .enterUpdate).bind fun _ => q)) rfl
      hready.outside n).2.1 k' hk
  · obtain ⟨hready', found, houtcome, heffect⟩ := hr
    exact ⟨hready', found, houtcome, heffect, heffect.found_of_no_foreign⟩

end Updating

/-- Subtraction is addition of the negated operand, so it goes through an update where addition
does. -/
theorem Backend.fetch_eq_fetchUpdate (b : Backend) {w : Width} (a : Addr)
    (op : FetchOp) (v : Word w) (h : b.addsAtOnce = true → op ≠ .add ∧ op ≠ .sub) :
    b.fetch op w a v = (b.fetchUpdate w a (fun _ y => .ret (op.combine y v, ())) ()).bind fun r =>
      .ret r.1 := by
  have hadd : ∀ v : Word w, b.addsAtOnce = false → b.fetchAdd w a v =
      (b.fetchUpdate w a (fun _ y => .ret (y + v, ())) ()).bind fun r => .ret r.1 := by
    intro v hb
    cases b <;> first | rfl | cases hb
  cases hb : b.addsAtOnce with
  | false =>
    cases op with
    | add => exact hadd v hb
    | sub => exact hadd (-v) hb
    | _ => rfl
  | true =>
    cases op with
    | add => exact absurd rfl (h hb).1
    | sub => exact absurd rfl (h hb).2
    | _ => rfl

open Updating in
/-- **An update calls its function outside of every lock and mask.** For every backend, every entry
state in which the global lock is free and the monitor closed, every function and every finite
interference, the context is always reading the word, in a call, in the compare-and-exchange after
one, or past the update; and each call is a call of the run. It is made with the lock free,
interrupts as the caller had them, and the monitor closed, if the earlier calls have returned so;
that is never in question for a tidy function, which also never waits for the lock.

Where nothing else keeps the context waiting, a call is safe: the operations that the function
performs come to their end, so that it leaves everything as it found it but for what they do, also
if it gives up after them; and where it answers, the update writes the answer only if the word is
still that of the call. -/
theorem fetch_update_calls_outside {w : Width} {τ β : Type} (u : Updating w τ) {x : Interference}
    (hlock : x.addr ≠ .globalLock) (ha : u.addr ≠ .globalLock) (start : τ)
    (next : Word w × τ → Prog β) {c : Solo β}
    (hc : c.rest = (u.backend.fetchUpdate w u.addr u.function start).bind next)
    (hs : c.state.Outside c.state.core) :
    (∀ n, u.At next x start c (c.run x n)) ∧
    (∀ {returned t v tr d}, u.Calls next x start c returned t v tr d →
      (∃ n, c.run x n = d) ∧
      ((∀ s ∈ returned, s.Outside c.state.core) → d.state.Outside c.state.core) ∧
      (x.budget = none → u.backend.Ready c.state.core c.state →
        (∀ s ∈ returned, u.backend.Ready c.state.core s) → u.SafeCall x c.state.core t v tr d)) ∧
    ((∀ t v, Tidy u.backend (u.function t v)) → ∀ n,
      (∀ k, ((c.resume (u.prog start)).run x n).rest = .instr .enterUpdate k →
        ((c.resume (u.prog start)).run x n).state.Outside c.state.core) ∧
      (∀ k, ((c.resume (u.prog start)).run x n).rest = .instr (.write .w64 .globalLock 1) k →
        ((c.resume (u.prog start)).run x n).state.read .w64 .globalLock = 0) ∧
      ∀ r, ((c.resume (u.prog start)).run x n).rest = .ret r →
        ((c.resume (u.prog start)).run x n).state.Outside c.state.core) ∧
    ∀ (op : FetchOp) (v : Word w), (u.backend.addsAtOnce = true → op ≠ .add ∧ op ≠ .sub) →
      u.backend.fetch op w u.addr v =
        (u.backend.fetchUpdate w u.addr (fun _ y => .ret (op.combine y v, ())) ()).bind fun r =>
          .ret r.1 := by
  refine ⟨at_run hc, fun h => ⟨h.steps hc, h.outside hlock ha hs, fun hx hready hreturned => ?_⟩,
    fun htidy n => ?_, u.backend.fetch_eq_fetchUpdate u.addr⟩
  · exact h.safe hlock ha hx hready hreturned
  · have hprog : Tidy u.backend (u.prog start) := .fetchUpdate ha htidy start
    exact hprog.run hlock (c := c.resume (u.prog start)) rfl hs n

namespace Selfish

/-- A function that first adds one to the very word that is to be updated, if that is zero, on the
same two global locks, and then answers ten more than what it was called with. -/
def update : Updating .w8 Unit where
  backend := .globalLock .arm (.globalLock .line .traced)
  addr := .cell 0
  function _ v := ((Operation.fetch .add .w8 (.cell 0) (if v = 0 then 1 else 0)).prog
    (.globalLock .arm (.globalLock .line .traced))).bind fun _ => .ret (v + 10, ())

theorem sequence (t : Unit) (v : Word .w8) : Sequence update.backend (update.function t v) :=
  .next (.fetch .add .w8 (.cell 0) (if v = 0 then 1 else 0)) Addr.noConfusion fun _ => .ret _

def begun : Solo (Word .w8 × Unit) := Solo.start (update.prog ()) (.start true true)

/-- The word has been read. -/
def read : Solo (Word .w8) := (begun.resume (update.backend.load .w8 (.cell 0))).run .none 60

/-- The function has been called for the first time, and has returned. -/
def returned : Solo (Word .w8 × Unit) := (read.resume (update.call () 0)).run .none 120

/-- The compare-and-exchange after that has failed. -/
def exchanged : Solo (Comparison (Word .w8)) :=
  (returned.resume (update.backend.compareExchange .w8 (.cell 0) 0 10)).run .none 60

theorem returned_rest : returned.rest = .ret (10, ()) := Solo.rest_of_result (by decide +kernel)

theorem first_call : ∃ tr, update.Calls .ret .none () begun [] () 0 tr
    (read.resume ((update.call () 0).bind (update.afterCall .ret 0))) :=
  ⟨_, .first ⟨rfl, rfl⟩ (Solo.rest_of_result (by decide +kernel))⟩

theorem second_call : ∃ tr, update.Calls .ret .none () begun [returned.state] () 1 tr
    (exchanged.resume ((update.call () 1).bind (update.afterCall .ret 1))) := by
  obtain ⟨tr, h⟩ := first_call
  exact ⟨_, .again h (e := returned) (g := exchanged) ⟨rfl, rfl⟩ returned_rest ⟨rfl, rfl⟩
    (Solo.rest_of_result (by decide +kernel))⟩

/-- The first call is in vain, since it has changed the word. The second is made outside of both
locks, on the word that the first has left, and is safe; and eleven is written. -/
theorem second_call_safe : ∃ tr,
    update.Calls .ret .none () begun [returned.state] () 1 tr
      (exchanged.resume ((update.call () 1).bind (update.afterCall .ret 1))) ∧
    exchanged.state.Outside begun.state.core ∧
    update.SafeCall .none begun.state.core () 1 tr
      (exchanged.resume ((update.call () 1).bind (update.afterCall .ret 1))) ∧
    (begun.run .none 400).rest = .ret (1, ()) ∧
    (begun.run .none 400).state.Outside begun.state.core ∧
    (begun.run .none 400).state.read .w8 (.cell 0) = 11 := by
  have hs : begun.state.Outside begun.state.core := ⟨rfl, rfl, rfl⟩
  have hready : update.backend.Ready begun.state.core begun.state :=
    ⟨hs, Controller.noConfusion, fun _ => ⟨OnceStatus.noConfusion, OnceStatus.noConfusion⟩⟩
  have h := fetch_update_calls_outside update (x := .none) Addr.noConfusion Addr.noConfusion () .ret
    (Prog.bind_ret _).symm hs
  obtain ⟨tr, hfirst⟩ := first_call
  obtain ⟨tr', hsecond⟩ := second_call
  have hsafe := (h.2.1 hfirst).2.2 rfl hready fun _ hmem => absurd hmem List.not_mem_nil
  -- the first call returns where its operation ends
  have hreturned : update.backend.Ready begun.state.core returned.state := by
    have hwhole : update.function () 0 = (update.function () 0).bind .ret := (Prog.bind_ret _).symm
    obtain ⟨m, tr, r, e, hsteps, he, hend⟩ := (hsafe.performs (sequence () 0) hwhole).1
      (read.resume (update.call () 0)) rfl (Solo.state_resume ..)
    have heq : returned = e := (Solo.Steps.unique (x := .none) ⟨rfl, rfl⟩ hsteps returned_rest he).1
    exact heq ▸ hend
  have hall : ∀ s ∈ [returned.state], update.backend.Ready begun.state.core s :=
    fun s hmem => List.mem_singleton.mp hmem ▸ hreturned
  have hanswer : (begun.run .none 400).rest = .ret (1, ()) :=
    Solo.rest_of_result (by decide +kernel)
  have hend := (h.2.2.1 (fun t v => (sequence t v).tidy) 400).2.2 _ hanswer
  exact ⟨tr', hsecond, (h.2.1 hsecond).2.1 fun s hmem => (hall s hmem).outside,
    (h.2.1 hsecond).2.2 rfl hready hall, hanswer, hend, by decide +kernel⟩

end Selfish

end Atomicity
