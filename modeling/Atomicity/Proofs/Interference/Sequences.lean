import Atomicity.Proofs.Interference.FetchUpdate
import Atomicity.Proofs.Interference.Framing
import Atomicity.Proofs.Interference.Operations
import Atomicity.Proofs.Interference.Outside

/-!
# Sequences of operations under interference

`Prog.Ends` is the judgment for programs that may contain updates: begun in a state under
interference, the program comes to its end, and of its answer, its trace and the state it leaves
something is so. It is `Passes` without the count of steps, and without the condition that no
function is entered.

`Backend.Ready core s` says where that is so for every operation: outside of every lock and mask,
with nobody who keeps the context waiting. **An operation that is begun ready comes to its end, and
is ready there** (`Operation.ends`), whatever foreign writes and rejections there are; and so does
any finite sequence of operations in which each may depend on the answers before it
(`Sequence.ends`).
-/

namespace Atomicity

open Prog

/-- There is another address besides any, and besides that of the global lock. -/
theorem Addr.exists_other (a : Addr) : ∃ a', a ≠ a' ∧ a' ≠ .globalLock := by
  by_cases h : a = .cell 0
  · exact ⟨.cell 1, by simp [h], by simp⟩
  · exact ⟨.cell 0, h, by simp⟩

namespace Prog

variable {α β : Type} {x : Interference} {p : Prog α} {s : State}
  {Q Q' : α → List Access → State → Prop}

/-- Begun in a state under interference, the program comes to its end, wherever in the schedule it
is begun. -/
def Ends (x : Interference) (p : Prog α) (s : State) (Q : α → List Access → State → Prop) : Prop :=
  ∀ c : Solo α, c.rest = p → c.state = s →
    ∃ m tr r d, Solo.Steps x m c tr d ∧ d.rest = .ret r ∧ Q r tr d.state

theorem Passes.ends {n : Nat} (h : p.Passes x n s Q) : p.Ends x s Q := by
  intro c hc hs
  obtain ⟨m, tr, r, d, -, hsteps, hd, -, hq⟩ := h .ret c (hc.trans (bind_ret p).symm) hs
  exact ⟨m, tr, r, d, hsteps, hd, hq⟩

namespace Ends

theorem ret {r : α} (h : Q r [] s) : (Prog.ret r).Ends x s Q := by
  intro c hc hs
  subst hs
  exact ⟨0, [], r, c, ⟨rfl, rfl⟩, hc, h⟩

theorem mono (h : p.Ends x s Q) (hQ : ∀ r tr s', Q r tr s' → Q' r tr s') : p.Ends x s Q' := by
  intro c hc hs
  obtain ⟨m, tr, r, d, hsteps, hd, hq⟩ := h c hc hs
  exact ⟨m, tr, r, d, hsteps, hd, hQ r tr _ hq⟩

theorem bind {f : α → Prog β} {M : β → State → Prop} (h : p.Ends x s Q)
    (next : ∀ r tr s', Q r tr s' → (f r).Ends x s' fun r' _ => M r') :
    (p.bind f).Ends x s fun r' _ => M r' := by
  intro c hc hs
  obtain ⟨m, tr, r, d, hsteps, hd, hq⟩ := h (c.resume p) rfl hs
  obtain ⟨j, -, hfirst⟩ := hsteps.andThen hd f
  have hwhole : (c.resume p).andThen f = c := by
    obtain ⟨rest, t, es, u, i⟩ := c
    obtain rfl : rest = p.bind f := hc
    rfl
  rw [hwhole] at hfirst
  obtain ⟨k, tr', r', e, hrest, he, hm⟩ := next r tr _ hq (d.resume (f r)) rfl rfl
  exact ⟨j + k, tr ++ tr', r', e, hfirst.trans hrest, he, hm⟩

/-- What is so of every run to an answer is so of the one there is. -/
theorem and {I : State → Prop} (h : p.Ends x s Q)
    (hI : ∀ (c : Solo α) n r, c.rest = p → c.state = s → (c.run x n).rest = .ret r →
      I (c.run x n).state) :
    p.Ends x s fun r tr s' => I s' ∧ Q r tr s' := by
  intro c hc hs
  obtain ⟨m, tr, r, d, hsteps, hd, hq⟩ := h c hc hs
  have hanswer : (c.run x m).rest = .ret r := hsteps.run_eq ▸ hd
  exact ⟨m, tr, r, d, hsteps, hd, hsteps.run_eq ▸ hI c m r hc hs hanswer, hq⟩

end Ends

end Prog

/-! ## Operations -/

/-- Outside of every lock and mask, and nobody keeps the context waiting. -/
structure Backend.Ready (b : Backend) (core : Core) (s : State) : Prop where
  outside : s.Outside core
  stands : b.Stands core.masked s

/-- A foreign write leaves a ready context ready. -/
theorem Backend.Ready.leaves {b : Backend} {x : Interference} {core : Core}
    (hlock : x.addr ≠ .globalLock) :
    x.Leaves (b.Ready core) := by
  have ha : Addr.cell 0 ≠ .globalLock := Addr.noConfusion
  intro s v hs
  have hfree : (s.write x.width x.addr v).read .w64 .globalLock = 0 :=
    (Memory.read_write_of_ne _ _ hlock).trans hs.outside.free
  exact ⟨⟨hs.outside.core, rfl, hfree⟩, b.leaves_stands (fun _ => ⟨hlock, ha⟩) s v hs.stands⟩

/-- A program that ends where nobody keeps the context waiting, and is tidy, ends ready. -/
theorem Prog.Ends.ready {α : Type} {b : Backend} {x : Interference} {p : Prog α}
    {core : Core} {s : State} {Q : α → List Access → State → Prop} (h : p.Ends x s Q)
    (hQ : ∀ r tr s', Q r tr s' → b.Stands core.masked s')
    (hp : Tidy b p) (hlock : x.addr ≠ .globalLock) (hs : s.Outside core) :
    p.Ends x s fun r tr s' => b.Ready core s' ∧ Q r tr s' := by
  refine (h.and (I := fun s' => s'.Outside core) fun c n r hc hs' hr => ?_).mono
    fun r tr s' hr => ?_
  · exact (hp.run hlock hc (hs' ▸ hs) n).2.2 r hr
  · exact ⟨⟨hr.1, hQ r tr s' hr.2⟩, hr.2⟩

namespace Operation

theorem tidy (b : Backend) {o : Operation} (ho : o.addr ≠ .globalLock) : Tidy b (o.prog b) := by
  cases o with
  | load w a => exact .operation ho (.load w)
  | store w a v => exact .operation ho (.store v)
  | exchange w a v => exact .operation ho (.exchange v)
  | compareExchange w a expected desired => exact .operation ho (.compareExchange expected desired)
  | fetch op w a v => exact .operation ho (.fetch op v)
  | fetchNew op w a v => exact .operation ho (.fetchNew op v)
  | update w a f => exact .operation ho (.fetchApply f)
  | testSetLock a v => exact .operation ho (.testSetLock v)
  | privilegedStore a v => exact .operation ho (.privilegedStore v)

end Operation

namespace Backend

variable {x : Interference} (hx : x.budget = none) (hlock : x.addr ≠ .globalLock)
  (b : Backend) {m : Bool} {s : State} {w : Width} {a : Addr} (ha : a ≠ .globalLock)

include hx hlock ha

theorem fetchApply_ends (f : Word w → Word w) (hs : b.Stands m s) :
    (b.fetchApply w a f).Ends x s fun _ _ s' => b.Stands m s' := by
  intro c hc hcs
  obtain ⟨n, earlier, final, tr, e, -, hsteps, -, he, hs'⟩ :=
    b.fetchUpdate_updates hx (fun _ => ⟨hlock, ha⟩)
      (fun _ v => (f v, ())) () (fun r => .ret r.1) hc (hcs ▸ hs)
  exact ⟨n, tr, _, e, hsteps, he, hs'⟩

theorem fetchAdd_ends (v : Word w) (hs : b.Stands m s) :
    (b.fetchAdd w a v).Ends x s fun _ _ s' => b.Stands m s' := by
  cases hb : b.addsAtOnce with
  | true =>
    exact (b.acts_addAtOnce hx (fun _ => ⟨hlock, ha⟩) m hb v s hs).ends.mono fun _ _ _ hr => hr.2
  | false =>
    cases b with
    | native => cases hb
    | traced => cases hb
    | globalLock c base => cases hb
    | casOnly => exact fetchApply_ends hx hlock _ ha (· + v) hs
    | pair isa => exact fetchApply_ends hx hlock _ ha (· + v) hs
    | singleCore c isa widths => exact fetchApply_ends hx hlock _ ha (· + v) hs

theorem fetch_ends (op : FetchOp) (v : Word w) (hs : b.Stands m s) :
    (b.fetch op w a v).Ends x s fun _ _ s' => b.Stands m s' := by
  cases op with
  | add => exact b.fetchAdd_ends hx hlock ha v hs
  | sub => exact b.fetchAdd_ends hx hlock ha (-v) hs
  | and => exact b.fetchApply_ends hx hlock ha _ hs
  | or => exact b.fetchApply_ends hx hlock ha _ hs
  | xor => exact b.fetchApply_ends hx hlock ha _ hs

omit hx in
/-- The operations on the word of a lock leave what is said of a ready state as it is. -/
theorem allows_stands (m : Bool) (v : Word .w64) : b.Allows x m a v (b.Stands m) where
  leaves := b.leaves_stands fun _ => ⟨hlock, ha⟩
  write s := b.stands_write (fun _ => ⟨hlock, ha⟩) s v
  pair hb s := by
    refine ⟨fun hc => ?_, fun hl => ?_⟩
    · cases b with
      | pair isa => cases isa <;> cases hc
      | casOnly => cases hc
      | _ => cases hb
    · rw [hb] at hl
      cases hl
  lock hb := ⟨State.Lockable, .lockable hlock, fun s hs => ⟨hs.once, fun ho =>
    (Memory.read_write_of_ne _ _ ha).trans (hs.unlocked ho)⟩, fun s => ⟨fun hs => ⟨hs.1, hs.2 hb⟩,
      fun hs => ⟨hs.1, fun _ => hs.2⟩⟩⟩

end Backend

section

variable {b : Backend} {x : Interference} {core : Core} {s : State} (hx : x.budget = none)
  (hlock : x.addr ≠ .globalLock)

include hx hlock

namespace Operation

/-- An operation comes to its end, and nobody keeps the context waiting after it. -/
theorem ends_stands (o : Operation) (ho : o.addr ≠ .globalLock) {m : Bool} (hs : b.Stands m s) :
    (o.prog b).Ends x s fun _ _ s' => b.Stands m s' := by
  cases o with
  | load w a =>
    exact (b.acts_load hx (fun _ => ⟨hlock, ho⟩) m w s hs).ends.mono fun _ _ _ hr => hr.2
  | store w a v =>
    obtain ⟨a', ha', hglobal⟩ := Addr.exists_other a
    have hstore := b.bypasses_store hx (fun _ => ⟨hlock, ho⟩) ha' (fun _ => hglobal) m v
    exact (hstore s hs).ends.mono fun _ _ _ hr => hr.2
  | exchange w a v =>
    exact (b.acts_exchange hx (fun _ => ⟨hlock, ho⟩) m v s hs).ends.mono fun _ _ _ hr => hr.2
  | compareExchange w a expected desired =>
    exact (b.acts_compareExchange hx (fun _ => ⟨hlock, ho⟩) m expected desired s hs).ends.mono
      fun _ _ _ hr => hr.2
  | fetch op w a v => exact b.fetch_ends hx hlock ho op v hs
  | fetchNew op w a v => exact (b.fetch_ends hx hlock ho op v hs).bind fun _ _ _ hs' => .ret hs'
  | update w a f => exact b.fetchApply_ends hx hlock ho f hs
  | testSetLock a v =>
    exact (Backend.acts_testSetLock hx (b.allows_stands hlock ho m v) s hs).ends.mono
      fun _ _ _ hr => hr.2
  | privilegedStore a v =>
    obtain ⟨a', ha', -⟩ := Addr.exists_other a
    exact (Backend.bypasses_privilegedStore hx (b.allows_stands hlock ho m v) ha' s hs).ends.mono
      fun _ _ _ hr => hr.2

/-- **An operation that is begun ready comes to its end**, and is ready there. -/
theorem ends (o : Operation) (ho : o.addr ≠ .globalLock) (hs : b.Ready core s) :
    (o.prog b).Ends x s fun _ _ s' => b.Ready core s' :=
  ((o.ends_stands hx hlock ho hs.stands).ready (fun _ _ _ h => h) (o.tidy b ho) hlock
    hs.outside).mono fun _ _ _ hr => hr.1

end Operation

end

/-- A finite sequence of operations, each of which may depend on what those before it have
answered. -/
inductive Sequence (b : Backend) {α : Type} : Prog α → Prop where
  | ret (r : α) : Sequence b (.ret r)
  | next (o : Operation) (ho : o.addr ≠ .globalLock) {k : o.Answer → Prog α}
      (rest : ∀ r, Sequence b (k r)) :
      Sequence b ((o.prog b).bind k)

namespace Sequence

variable {b : Backend} {α : Type} {p : Prog α}

theorem tidy (h : Sequence b p) : Tidy b p := by
  induction h with
  | ret r => exact .ret r
  | next o ho rest ih => exact (o.tidy b ho).bind ih

/-- **A sequence of operations that is begun ready comes to its end**, and is ready there. -/
theorem ends (h : Sequence b p) {x : Interference} (hx : x.budget = none)
    (hlock : x.addr ≠ .globalLock)
    {core : Core} {s : State} (hs : b.Ready core s) : p.Ends x s fun _ _ s' => b.Ready core s' := by
  induction h generalizing s with
  | ret r => exact .ret hs
  | next o ho rest ih => exact (o.ends hx hlock ho hs).bind fun r _ _ hs' => ih r hs'

end Sequence

end Atomicity
