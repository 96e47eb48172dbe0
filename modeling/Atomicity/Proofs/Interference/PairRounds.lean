import Mathlib.Data.Finset.Card
import Mathlib.Order.Interval.Finset.Nat
import Atomicity.Proofs.Interference.FetchUpdate

/-!
# Exclusive pairs end under interference

What an observer sees of an exchange or a compare-and-exchange by an exclusive pair: rounds between
two fences, of which all but the last are repeated. **Each repetition has a cause of its own**
(`PairIsa.EndsInRounds.causes`): its store-exclusive is one that is rejected, or a foreign write is
placed right after it has been seen, that is between the load and the store. So there are no more
load-exclusives than rejections and foreign writes, and one.

The fetch family repeats these operations, in a loop of its own. That one does not see rejections:
its update function is called no more often than there are foreign writes, and once
(`exclusive_pairs_end`).
-/

namespace Atomicity

/-- What has happened `n` times has as many causes, if each is in one of two lists, and differs from
time to time. -/
theorem le_of_causes {rejects others : List Nat} {n : Nat} {f : Nat → Nat}
    (hf : Function.Injective f) (h : ∀ i < n, i ∈ rejects ∨ f i ∈ others) :
    n ≤ rejects.toFinset.card + others.length := by
  have hsplit : Finset.range n ⊆ rejects.toFinset ∪ (Finset.range n).filter (f · ∈ others) := by
    intro i hi
    rw [Finset.mem_union, List.mem_toFinset, Finset.mem_filter]
    exact (h i (Finset.mem_range.mp hi)).imp id fun ho => ⟨hi, ho⟩
  have hothers : ((Finset.range n).filter (f · ∈ others)).card ≤ others.toFinset.card :=
    Finset.card_le_card_of_injOn f
      (fun i hi => List.mem_toFinset.mpr (Finset.mem_filter.mp hi).2) hf.injOn
  calc n = (Finset.range n).card := (Finset.card_range n).symm
    _ ≤ _ := Finset.card_le_card hsplit
    _ ≤ _ := Finset.card_union_le _ _
    _ ≤ _ := Nat.add_le_add_left (Nat.le_trans hothers others.toFinset_card_le) _

namespace PairIsa

open Prog

variable {α : Type} {x : Interference} {w : Width} {a : Addr}

/-- What is seen of rounds between two fences, of which so many are repeated. -/
def seen (isa : PairIsa) (w : Width) (repeats : Nat) (last : Event) : List Event :=
  .fence (.pair isa) ::
    ((List.replicate repeats [.loadExclusive isa w, .storeExclusive isa w]).flatten ++
    [.loadExclusive isa w, last, .fence (.pair isa)])

theorem count_seen (isa : PairIsa) (w : Width) (repeats : Nat) {last : Event}
    (hlast : last ≠ .loadExclusive isa w) :
    (isa.seen w repeats last).count (.loadExclusive isa w) = repeats + 1 := by
  have hrounds :
      (List.replicate repeats [Event.loadExclusive isa w, .storeExclusive isa w]).flatten.count
        (.loadExclusive isa w) = repeats := by
    induction repeats with
    | zero => rfl
    | succ n ih => simp [List.replicate_succ, ih]
  simp [seen, hrounds, hlast]

/-- A program returns after rounds of which so many are repeated, each because its store-exclusive
is rejected or because a foreign write comes between its load and its store. -/
structure EndsInRounds (isa : PairIsa) (x : Interference) (p : Prog α) (s : State) (w : Width)
    (repeats : Nat) (last : Event) (answer : α) : Prop where
  returns : (p.solo x s).result? = some answer
  events : (p.solo x s).events = isa.seen w repeats last
  causes : ∀ i < repeats, i ∈ x.rejects ∨ 2 * i + 2 ∈ x.pokes.map Prod.fst
  loads : (p.solo x s).events.count (.loadExclusive isa w) ≤
    1 + x.rejects.toFinset.card + x.pokes.length

/-- **Rounds between two fences end**, and each repetition has a cause of its own. -/
theorem attempts_end (hx : x.budget = none) (isa : PairIsa) (a : Addr) (wanted : Register w → Prop)
    [DecidablePred wanted] (v : Word w) (answer : Register w → α) (s : State) :
    ∃ repeats word,
      isa.EndsInRounds x (isa.attempts w a wanted (Word.toRegister v) answer) s w repeats
      (if wanted (Word.toRegister word) then .storeExclusive isa w else .clearExclusive)
      (answer (Word.toRegister word)) := by
  obtain ⟨repeats, word, hresult, -, hpassed⟩ := attempts_run hx isa a wanted v answer s
  let last : Event :=
    if wanted (Word.toRegister word) then .storeExclusive isa w else .clearExclusive
  have hlast : last ≠ .loadExclusive isa w := by
    unfold last
    split <;> exact Event.noConfusion
  have hevents : ((isa.attempts w a wanted (Word.toRegister v) answer).solo x s).events =
      isa.seen w repeats last := hpassed.events.trans (List.nil_append _)
  have hcauses : ∀ i < repeats, i ∈ x.rejects ∨ 2 * i + 2 ∈ x.pokes.map Prod.fst := by
    intro i hi
    have hcause := hpassed.causes i hi
    simp only [Solo.start, List.length_nil, Nat.zero_add] at hcause
    refine hcause.imp id fun hdue => ?_
    obtain ⟨e, he, hen⟩ := x.exists_of_due hdue
    exact List.mem_map.mpr ⟨e, he, hen⟩
  refine ⟨repeats, word, hresult, hevents, hcauses, ?_⟩
  have hle := le_of_causes (f := (2 * · + 2)) (fun i j hij => by simp only at hij; omega) hcauses
  rw [hevents, count_seen isa w repeats hlast]
  rw [List.length_map] at hle
  omega

end PairIsa

/-- A program returns, and calls an update function no more often than foreign writes come, and
once. -/
structure ReturnsInCalls {α : Type} (x : Interference) (p : Prog α) (s : State) : Prop where
  returns : ∃ answer, (p.solo x s).result? = some answer
  calls : (p.solo x s).updates ≤ 1 + (p.trace x s).countP Access.isForeign
  foreign : (p.trace x s).countP Access.isForeign ≤ x.pokes.length + x.updatePokes.length

section

variable {α β τ : Type} {x : Interference} {w : Width} {a : Addr} {s : State}

theorem ReturnsInCalls.map {p : Prog α} (g : α → β) (h : ReturnsInCalls x p s) :
    ReturnsInCalls x (p.bind fun r => .ret (g r)) s := by
  obtain ⟨answer, hanswer⟩ := h.returns
  refine ⟨⟨g answer, ?_⟩, ?_, ?_⟩
  · rw [p.solo_map]
    exact Solo.result?_map g hanswer
  · rw [p.solo_map, p.trace_map]
    exact h.calls
  · rw [p.trace_map]
    exact h.foreign

namespace Backend

/-- Nobody keeps a context waiting in an operation by an exclusive pair. -/
theorem unhindered_pair (isa : PairIsa) (x : Interference) (a : Addr) (s : State) :
    (Backend.pair isa).Unhindered x a s :=
  ⟨fun hc => (by cases isa <;> cases hc), Strategy.noConfusion, Strategy.noConfusion⟩

variable {b : Backend} (hx : x.budget = none) (h : b.Unhindered x a s)

include hx h

theorem Unhindered.fetchUpdate_in_calls (f : τ → Word w → Word w × τ) (start : τ) :
    ReturnsInCalls x (b.fetchUpdate w a (fun t v => .ret (f t v)) start) s := by
  obtain ⟨earlier, final, happlies⟩ := h.applies_once hx f start id (Prog.bind_ret _).symm
  refine ⟨⟨_, happlies.returns⟩, ?_, happlies.foreign⟩
  have hbounded := happlies.bounded
  rw [happlies.updates]
  omega

theorem Unhindered.fetchApply_in_calls (f : Word w → Word w) :
    ReturnsInCalls x (b.fetchApply w a f) s :=
  (h.fetchUpdate_in_calls hx (fun _ v => (f v, ())) ()).map Prod.fst

end Backend

end

/-- **Exclusive pairs end under every finite interference.** Under every finite schedule of foreign
writes and of rejections, an exchange and a compare-and-exchange return, after so many rounds that
are repeated and one that is not: each repetition has a rejection of its own, or a foreign write of
its own between its load and its store, and there are no more load-exclusives than rejections and
foreign writes, and one. The fetch family on top of them returns as well, and calls an update
function no more often than there are foreign writes, and once, however many store-exclusives are
rejected. -/
theorem exclusive_pairs_end (isa : PairIsa) (x : Interference) (hx : x.budget = none)
    (w : Width) (a : Addr) (s : State) :
    (∀ v : Word w, ∃ repeats found,
      isa.EndsInRounds x (isa.exchange w a v) s w repeats (.storeExclusive isa w) found) ∧
    (∀ expected desired : Word w, ∃ repeats outcome,
      isa.EndsInRounds x (isa.compareExchange w a expected desired) s w repeats
        (if outcome.swapped then .storeExclusive isa w else .clearExclusive) outcome) ∧
    (∀ {τ : Type} (f : τ → Word w → Word w × τ) (start : τ),
      ReturnsInCalls x ((Backend.pair isa).fetchUpdate w a (fun t v => .ret (f t v)) start) s) ∧
    ∀ (op : FetchOp) (v : Word w), ReturnsInCalls x ((Backend.pair isa).fetch op w a v) s ∧
      ReturnsInCalls x ((Backend.pair isa).fetchNew op w a v) s := by
  have hs := Backend.unhindered_pair isa x a s
  refine ⟨fun v => ?_, fun expected desired => ?_, fun f start =>
    hs.fetchUpdate_in_calls hx f start, fun op v => ?_⟩
  · obtain ⟨repeats, word, h⟩ := PairIsa.attempts_end hx isa a (fun _ => True) v Register.toWord s
    rw [if_pos trivial] at h
    exact ⟨repeats, _, h⟩
  · obtain ⟨repeats, word, h⟩ :=
      PairIsa.attempts_end hx isa a (· = Word.toRegister expected) desired
        (fun r => Comparison.ofFound expected (Register.toWord r)) s
    rw [← PairIsa.compareExchange_eq, Register.toWord_toRegister] at h
    simp only [Word.toRegister_inj] at h
    refine ⟨repeats, .ofFound expected word, ?_⟩
    by_cases hfound : word = expected
    · simpa [Comparison.ofFound, hfound] using h
    · simpa [Comparison.ofFound, hfound] using h
  · have hfetch : ReturnsInCalls x ((Backend.pair isa).fetch op w a v) s := by
      cases op with
      | add => exact hs.fetchApply_in_calls hx (· + v)
      | sub => exact hs.fetchApply_in_calls hx (· + -v)
      | and => exact hs.fetchApply_in_calls hx _
      | or => exact hs.fetchApply_in_calls hx _
      | xor => exact hs.fetchApply_in_calls hx _
    exact ⟨hfetch, hfetch.map _⟩

/-- An exchange of which the first round is repeated for a foreign write and the second for a
rejection. -/
theorem exchange_in_three_rounds :
    PairIsa.aarch64.EndsInRounds PairIsa.pokeAndRejection
      (PairIsa.exchange .aarch64 .w8 (.cell 0) 9)
      (State.start true true) .w8 2 (.storeExclusive .aarch64 .w8) (7 : Word .w8) := by
  obtain ⟨repeats, found, h⟩ :=
    (exclusive_pairs_end .aarch64 PairIsa.pokeAndRejection rfl .w8 (.cell 0)
      (State.start true true)).1 9
  have hlast : Event.storeExclusive .aarch64 .w8 ≠ .loadExclusive .aarch64 .w8 := Event.noConfusion
  have hloads : repeats + 1 = 3 := by
    rw [← PairIsa.count_seen .aarch64 .w8 repeats hlast, ← h.events]
    decide
  obtain rfl : repeats = 2 := Nat.succ.inj hloads
  have hfound : some found = some 7 := h.returns.symm.trans (by decide)
  obtain rfl := Option.some.inj hfound
  exact h

end Atomicity
