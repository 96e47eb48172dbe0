import Atomicity.Proofs.ManyCores.Run
import Mathlib.Algebra.Group.Nat.Defs

/-!
# Read-modify-write on many cores

Calls that replace one shared word by its image under a function: with any function, and the fetch
operations in both forms (`Modification`). On a backend with native instructions and on one with
exclusive pairs, any number of contexts may make any calls, interleaved in any way.

**No call is lost** (`no_modification_lost`): when all have returned there is an order of all calls,
and in it every one was applied to what the one before left. **Counting counts**: calls that add one
leave the word as many higher as there are calls, and answer all words on the way, each once if
there are not more of them than words.

That every call returns is not claimed: on any of these backends others can keep one from it for
ever.
-/

namespace Atomicity

/-- A call that replaces a word by its image under a function. -/
inductive Modification (w : Width) where
  /-- With any function. -/
  | update (f : Word w → Word w)
  /-- With an operand; answers the word before. -/
  | fetch (op : FetchOp) (v : Word w)
  /-- With an operand; answers the new word. -/
  | fetchNew (op : FetchOp) (v : Word w)

namespace Modification

variable {w : Width}

/-- What the word is replaced by. -/
def apply : Modification w → Word w → Word w
  | update f, u => f u
  | fetch op v, u => op.combine u v
  | fetchNew op v, u => op.combine u v

/-- What is answered, going by the word before. -/
def answer : Modification w → Word w → Word w
  | update _, u => u
  | fetch _ _, u => u
  | fetchNew op v, u => op.combine u v

def prog (b : Backend) (a : Addr) : Modification w → Prog (Word w)
  | update f => b.fetchApply w a f
  | fetch op v => b.fetch op w a v
  | fetchNew op v => b.fetchNew op w a v

/-- What a call does, done all at once. -/
def effect (a : Addr) (c : Modification w) : Effect (Word w) := fun m =>
  (c.answer (m.read w a), m.write w a (c.apply (m.read w a)))

theorem indivisible {Γ : Type} {W : World Γ} {b : Backend} (h : W.Provides b) {a : Addr}
    (ha : a ≠ .globalLock) (c : Modification w) : W.Indivisible (c.prog b a) (c.effect a) := by
  cases c with
  | update f => exact h.fetchApply ha w f
  | fetch op v => exact h.fetch ha op w v
  | fetchNew op v => exact (h.fetch ha op w v).map (op.combine · v)

end Modification

def Backend.modifications (b : Backend) (w : Width) (a : Addr) : Service where
  Request := Modification w
  Answer _ := Word w
  prog c := c.prog b a

namespace ManyCores

variable {b : Backend} {w : Width} {a : Addr}

/-- The backends with native instructions and those with exclusive pairs. -/
theorem provides_of_strategy (hb : b.strategy = .nativeCas ∨ b.strategy = .exclusivePair) :
    world.Provides b := by
  cases b with
  | native => exact provides_native
  | traced => exact provides_traced
  | casOnly => exact provides_casOnly
  | pair isa => exact provides_pair isa
  | singleCore c isa widths => simp [Backend.strategy] at hb
  | globalLock c base => simp [Backend.strategy] at hb

/-- The call of a request that has returned. -/
def callOf (e : Answered (b.modifications w a)) : Modification w := e.1

def resultOf (e : Answered (b.modifications w a)) : Word w := e.2

/-- What a word is after some calls, one after another. -/
def after (u : Word w) (order : List (Answered (b.modifications w a))) : Word w :=
  order.foldl (fun u e => (callOf e).apply u) u

/-- The first of some calls, and the others after it. -/
theorem serially_cons {m m' : Memory} {d : Answered (b.modifications w a)}
    {order : List (Answered (b.modifications w a))}
    (h : Serially (fun c => Modification.effect a c) m (d :: order) m') :
    resultOf d = (callOf d).answer (m.read w a) ∧
      ∃ next : Memory, next.read w a = (callOf d).apply (m.read w a) ∧
        Serially (fun c => Modification.effect a c) next order m' := by
  obtain ⟨hresult, hrest⟩ := h
  exact ⟨hresult, _, Memory.read_write_self _ _ _ _, hrest⟩

/-- Calls done one after another leave what their functions, composed, make of the word, and each
answers by what it was applied to. -/
theorem serially_after {m m' : Memory} {order : List (Answered (b.modifications w a))}
    (h : Serially (fun c => Modification.effect a c) m order m') :
    m'.read w a = after (m.read w a) order ∧ ∀ before e rest, order = before ++ e :: rest →
      resultOf e = (callOf e).answer (after (m.read w a) before) := by
  induction order generalizing m with
  | nil =>
    cases h
    refine ⟨rfl, ?_⟩
    intro before e rest heq
    simp at heq
  | cons d order ih =>
    obtain ⟨hresult, next, hword, hrest⟩ := serially_cons h
    obtain ⟨hlast, hall⟩ := ih hrest
    rw [hword] at hlast hall
    refine ⟨hlast, ?_⟩
    intro before e rest heq
    cases before with
    | nil =>
      obtain ⟨rfl, rfl⟩ := List.cons.inj heq
      exact hresult
    | cons d' before =>
      obtain ⟨rfl, rfl⟩ := List.cons.inj heq
      exact hall before e rest rfl

theorem add_one_add (u : Word w) (i : Nat) :
    u + 1 + BitVec.ofNat w.bits i = u + BitVec.ofNat w.bits (i + 1) := by
  rw [BitVec.ofNat_add, BitVec.add_assoc]
  exact congrArg (u + ·) (BitVec.add_comm _ _)

/-- Calls that add one, done one after another, count. -/
theorem serially_count {m m' : Memory} {order : List (Answered (b.modifications w a))}
    (h : Serially (fun c => Modification.effect a c) m order m')
    (hone : ∀ e ∈ order, callOf e = .fetch .add 1) :
    m'.read w a = m.read w a + BitVec.ofNat w.bits order.length ∧
      order.map resultOf =
        (List.range order.length).map fun i => m.read w a + BitVec.ofNat w.bits i := by
  induction order generalizing m with
  | nil =>
    cases h
    exact ⟨(BitVec.add_zero _).symm, rfl⟩
  | cons d order ih =>
    obtain ⟨hresult, next, hword, hrest⟩ := serially_cons h
    obtain ⟨hlast, hall⟩ := ih hrest fun e he => hone e (List.mem_cons_of_mem _ he)
    rw [hone d List.mem_cons_self] at hresult hword
    change next.read w a = m.read w a + 1 at hword
    change resultOf d = m.read w a at hresult
    rw [hword] at hlast hall
    refine ⟨by rw [hlast, List.length_cons, add_one_add], ?_⟩
    rw [List.length_cons, List.range_succ_eq_map, List.map_cons, List.map_cons, hall, List.map_map,
      hresult]
    refine List.cons_eq_cons.mpr ⟨(BitVec.add_zero _).symm, List.map_congr_left fun i _ => ?_⟩
    exact add_one_add _ i

/-- Cores about to make calls on one word. -/
def begin {n : Nat} (b : Backend) (w : Width) (a : Addr) (shared : Shared) (core : Fin n → Core)
    (calls : Fin n → List (Modification w)) : ManyCores (b.modifications w a) n :=
  .start shared core calls

/-- What all contexts have answered, context by context. -/
def results {n : Nat} (x : ManyCores (b.modifications w a) n) : List (Word w) :=
  (List.finRange n).flatMap fun k => (x.context k).answered.map resultOf

def total {n : Nat} (calls : Fin n → List (Modification w)) : Nat :=
  ((List.finRange n).flatMap calls).length

/-- Consecutive words are different as long as there are not more of them than words. -/
theorem nodup_range_words (u : Word w) {k : Nat} (hk : k ≤ 2 ^ w.bits) :
    ((List.range k).map fun i => u + BitVec.ofNat w.bits i).Nodup := by
  refine List.Nodup.map_on (fun i hi j hj h => ?_) List.nodup_range
  rw [List.mem_range] at hi hj
  have h := congrArg BitVec.toNat ((BitVec.add_right_inj u).mp h)
  rw [BitVec.toNat_ofNat, BitVec.toNat_ofNat, Nat.mod_eq_of_lt (by omega),
    Nat.mod_eq_of_lt (by omega)] at h
  exact h

section

variable {n : Nat} {calls : Fin n → List (Modification w)} {x : ManyCores (b.modifications w a) n}

/-- A context that is done has answered all of its calls, in the order in which it has them. -/
theorem answered_of_isDone {shared : Shared} {core : Fin n → Core} {choices : List (Fin n × Bool)}
    (hdone : ((begin b w a shared core calls).run choices).isDone) (k : Fin n) :
    (((begin b w a shared core calls).run choices).context k).answered.map callOf = calls k :=
  answered_requests hdone k

variable {order : List (Fin n × Answered (b.modifications w a))}

/-- What the contexts have answered is what has been answered in an order of their calls. -/
theorem results_perm (hrecord : ∀ k, recordOf k order = (x.context k).answered) :
    (results x).Perm ((order.map Prod.snd).map resultOf) := by
  have h := (flatMap_recordOf_perm (List.nodup_finRange n) List.mem_finRange order).map resultOf
  rw [List.map_flatMap] at h
  simpa only [results, hrecord] using h

theorem length_results (hcalls : ∀ k, (x.context k).answered.map callOf = calls k) :
    (results x).length = total calls := by
  rw [results, List.length_flatMap, total, List.length_flatMap]
  refine congrArg List.sum (List.map_congr_left fun k _ => ?_)
  rw [← hcalls k, List.length_map, List.length_map]

/-- Calls that add one count, whatever the order of them. -/
theorem count_of_serially {m : Memory} (hcalls : ∀ k, (x.context k).answered.map callOf = calls k)
    (hrecord : ∀ k, recordOf k order = (x.context k).answered)
    (hserial : Serially (fun c => Modification.effect a c) m (order.map Prod.snd) x.shared.memory)
    (hone : ∀ k, ∀ c ∈ calls k, c = .fetch .add 1) :
    x.shared.memory.read w a = m.read w a + BitVec.ofNat w.bits (total calls) ∧
      (results x).Perm
        ((List.range (total calls)).map fun i => m.read w a + BitVec.ofNat w.bits i) ∧
      (total calls ≤ 2 ^ w.bits → (results x).Nodup) := by
  have hall : ∀ e ∈ order.map Prod.snd, callOf e = .fetch .add 1 := by
    intro e he
    obtain ⟨⟨k, e⟩, hmem, rfl⟩ := List.mem_map.mp he
    have hin : e ∈ (x.context k).answered := hrecord k ▸ mem_recordOf hmem
    exact hone k _ (hcalls k ▸ List.mem_map_of_mem hin)
  obtain ⟨hlast, hresults⟩ := serially_count hserial hall
  have hperm := results_perm hrecord
  have htotal : (order.map Prod.snd).length = total calls := by
    have h := hperm.length_eq
    rw [List.length_map, length_results hcalls] at h
    exact h.symm
  rw [htotal] at hlast
  rw [hresults, htotal] at hperm
  refine ⟨hlast, hperm, ?_⟩
  intro hk
  exact hperm.nodup_iff.mpr (nodup_range_words _ hk)

end

/-- **No read-modify-write is lost**, whatever the interleaving. When all calls have returned, there
is an order of all of them, with those of every context as it made them, in which every call was
applied to what the calls before it had made of the word, and the word is what all of them make of
it. In particular, calls that add one count: the word is as much higher as there are calls, and what
they have answered is every word on the way, none of them twice if there are not more calls than
words. -/
theorem no_modification_lost {n : Nat} (b : Backend)
    (hb : b.strategy = .nativeCas ∨ b.strategy = .exclusivePair) (w : Width) (target : Nat)
    (shared : Shared) (core : Fin n → Core) (calls : Fin n → List (Modification w))
    (choices : List (Fin n × Bool))
    (hdone : ((begin b w (.cell target) shared core calls).run choices).isDone) :
    let x := (begin b w (.cell target) shared core calls).run choices
    (∀ k, (x.context k).answered.map callOf = calls k) ∧
      (∃ order : List (Fin n × Answered (b.modifications w (.cell target))),
        (∀ k, recordOf k order = (x.context k).answered) ∧
        x.shared.memory.read w (.cell target) =
          after (shared.memory.read w (.cell target)) (order.map Prod.snd) ∧
        ∀ before e rest, order.map Prod.snd = before ++ e :: rest →
          resultOf e = (callOf e).answer (after (shared.memory.read w (.cell target)) before)) ∧
      ((∀ k, ∀ c ∈ calls k, c = .fetch .add 1) →
        x.shared.memory.read w (.cell target) =
          shared.memory.read w (.cell target) + BitVec.ofNat w.bits (total calls) ∧
        (results x).Perm ((List.range (total calls)).map fun i =>
          shared.memory.read w (.cell target) + BitVec.ofNat w.bits i) ∧
        (total calls ≤ 2 ^ w.bits → (results x).Nodup)) := by
  intro x
  have serves : ∀ c : Modification w, world.Indivisible (c.prog b (.cell target))
      (c.effect (.cell target)) := by
    intro c
    exact c.indivisible (provides_of_strategy hb) Addr.noConfusion
  have hcalls := answered_of_isDone hdone
  obtain ⟨order, hserial, hrecord⟩ := serial_run (S := b.modifications w (.cell target))
    (E := fun c => Modification.effect (.cell target) c) serves shared core calls choices hdone
  refine ⟨hcalls, ⟨order, hrecord, serially_after hserial⟩, ?_⟩
  intro hone
  exact count_of_serially (x := x) hcalls hrecord hserial hone

/-- Two contexts, a step at a time. -/
def turns : List (Fin 2 × Bool) :=
  [(0, false), (1, false), (1, false), (0, false), (0, false), (1, false)]

/-- Two contexts that add one each. -/
theorem two_increments :
    let x := (begin .native .w8 (.cell 0) Shared.start (fun _ => .start true true)
      fun _ : Fin 2 => [.fetch .add 1]).run turns
    x.shared.memory.read .w8 (.cell 0) = 2 ∧ (results x).Perm [0, 1] := by
  have h := (no_modification_lost .native (.inl rfl) .w8 0 Shared.start (fun _ => .start true true)
    (fun _ => [.fetch .add 1]) turns (by decide)).2.2 (fun _ c hc => List.mem_singleton.mp hc)
  exact ⟨h.1, h.2.1⟩

end ManyCores

end Atomicity
