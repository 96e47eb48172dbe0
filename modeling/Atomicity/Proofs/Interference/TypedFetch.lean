import Mathlib.Data.Int.Bitwise
import Atomicity.Proofs.Interference.FetchUpdate

/-!
# Typed fetch-and-modify under interference

The operations of the fetch family work on words, and what they are asked and answer are integers of
a type. `FetchOp.onValue` says what an operation is in the type: that on integers, brought into the
range of the type by wrapping around; for the bitwise ones, that on two's complement without end.
**What the words say is the same** (`FetchOp.combine_toBits`), signed or not.

**A typed fetch takes effect at one instant** (`typed_fetch_is_arithmetic`), on every backend,
whatever foreign writes there are: it replaces the value that it holds the cell to have then by what
the operation makes of it and its operand. It answers the former, and the form that answers the new
value answers what has been stored, also where the word has been overwritten by the time it answers.
-/

namespace Atomicity

/-! ## Arithmetic of a type -/

/-- The operation on integers, without limits. -/
def FetchOp.onInt : FetchOp → Int → Int → Int
  | add, x, v => x + v
  | sub, x, v => x - v
  | and, x, v => Int.land x v
  | or, x, v => Int.lor x v
  | xor, x, v => Int.xor x v

/-- The operation on the values of a type, with wraparound. -/
def FetchOp.onValue {k : IntType} (op : FetchOp) (x v : k.Value) : k.Value :=
  .wrap k (op.onInt x.val v.val)

/-- Wraparound makes of an integer the value in range that differs from it by a multiple of the
number of words. -/
theorem FetchOp.onValue_congr {k : IntType} (op : FetchOp) (x v : k.Value) :
    ((1 <<< k.width.bits : Nat) : Int) ∣ op.onInt x.val v.val - (op.onValue x v).val := by
  obtain ⟨w, signed⟩ := k
  generalize hz : op.onInt x.val v.val = z
  have hread :
      (op.onValue x v).val = IntType.read ⟨w, signed⟩ (BitVec.ofInt w.bits z) := by rw [← hz]; rfl
  rw [hread, IntType.read, Nat.one_shiftLeft]
  cases signed with
  | false =>
    have hpos : (0 : Int) < (2 ^ w.bits : Nat) := Int.natCast_pos.mpr (Nat.two_pow_pos _)
    rw [if_neg Bool.false_ne_true, BitVec.toNat_ofInt,
      Int.toNat_of_nonneg (Int.emod_nonneg _ (Int.ne_of_gt hpos))]
    exact Int.dvd_self_sub_emod
  | true =>
    rw [if_pos rfl, BitVec.toInt_ofInt]
    exact Int.dvd_self_sub_bmod

/-- The low bits of an integer are those of its two's complement without end. -/
theorem getLsbD_ofInt (n : Nat) (z : Int) (i : Nat) :
    (BitVec.ofInt n z).getLsbD i = (decide (i < n) && z.testBit i) := by
  cases z with
  | ofNat m =>
    rw [Int.ofNat_eq_natCast, BitVec.ofInt_natCast, BitVec.getLsbD_ofNat]
    rfl
  | negSucc m =>
    rw [BitVec.ofInt_negSucc_eq_not_ofNat, BitVec.getLsbD_not, BitVec.getLsbD_ofNat]
    cases hi : decide (i < n) <;> rfl

namespace FetchOp

variable {k : IntType}

/-- **The operation on words is that on the values which they represent.** -/
theorem combine_toBits (op : FetchOp) (x v : k.Value) :
    op.combine x.toBits v.toBits = (op.onValue x v).toBits := by
  rw [onValue, IntType.Value.wrap, IntType.Value.toBits_ofBits]
  unfold IntType.Value.toBits
  cases op with
  | add => exact (BitVec.ofInt_add _ _).symm
  | sub => simp only [combine, onInt, Int.sub_eq_add_neg, BitVec.ofInt_add, BitVec.ofInt_neg]
  | and =>
    refine BitVec.eq_of_getLsbD_eq fun i hi => ?_
    simp only [combine, onInt, BitVec.getLsbD_and, getLsbD_ofInt, Int.testBit_land, hi, decide_true,
      Bool.true_and]
  | or =>
    refine BitVec.eq_of_getLsbD_eq fun i hi => ?_
    simp only [combine, onInt, BitVec.getLsbD_or, getLsbD_ofInt, Int.testBit_lor, hi, decide_true,
      Bool.true_and]
  | xor =>
    refine BitVec.eq_of_getLsbD_eq fun i hi => ?_
    simp only [combine, onInt, BitVec.getLsbD_xor, getLsbD_ofInt, Int.testBit_lxor, hi, decide_true,
      Bool.true_and]

end FetchOp

/-! ## One instant -/

/-- A program returns, and takes effect at one instant: it finds a word then, and writes another in
its place. It stores nothing else there. -/
structure TakesEffect {α : Type} (x : Interference) (p : Prog α) (s : State) {w : Width} (a : Addr)
    (found written : Word w) (answer : α) : Prop where
  returns : (p.solo x s).result? = some answer
  memory : (p.solo x s).state.shared.memory = (p.trace x s).foldl Access.apply s.shared.memory
  effective : Effective s.shared.memory (p.trace x s) a found (some written)

section

variable {α β : Type} {x : Interference} {w : Width} {a : Addr} {s : State} {p : Prog α}

/-- To make something of the answer takes no step. -/
theorem TakesEffect.map {found written : Word w} {answer : α} (g : α → β)
    (h : TakesEffect x p s a found written answer) :
    TakesEffect x (p.bind fun r => .ret (g r)) s a found written (g answer) := by
  constructor
  · rw [p.solo_map]
    exact Solo.result?_map g h.returns
  · rw [p.solo_map, p.trace_map]
    exact h.memory
  · rw [p.trace_map]
    exact h.effective

/-- A program that acts takes effect, if it always writes. -/
theorem Prog.Acts.takesEffect {n : Nat} {R S : State → Prop} {answer : Word w → α}
    {written : Word w → Word w} (h : p.Acts x a n R answer (fun found => some (written found)) S)
    (hn : n ≤ 40) (hs : R s) :
    ∃ found, TakesEffect x p s a found (written found) (answer found) := by
  obtain ⟨m, tr, _, d, hm, hsteps, hd, -, ⟨found, rfl, heffect⟩, -⟩ :=
    h s hs .ret (Solo.start p s) (Prog.bind_ret p).symm rfl
  have hfuel : m ≤ x.fuel := by
    have htoCome := Solo.toCome_le (x := x) (Solo.start p s)
    unfold Interference.fuel
    omega
  obtain ⟨-, rfl, hresult, hmemory⟩ := Prog.run_of_steps hsteps hfuel hd
  exact ⟨found, hresult, hmemory, heffect⟩

end

namespace Backend.Unhindered

variable {x : Interference} {w : Width} {a : Addr} {b : Backend} {s : State} (hx : x.budget = none)
  (h : b.Unhindered x a s)

include hx h

theorem fetchApply (f : Word w → Word w) :
    ∃ found, TakesEffect x (b.fetchApply w a f) s a found (f found) found := by
  obtain ⟨earlier, final, hreturns, hupdates, hmemory, -⟩ :=
    b.fetchUpdate_runs (p := b.fetchApply w a f) hx h.spared (fun _ v => (f v, ())) ()
      Prod.fst rfl h.stands
  exact ⟨final, hreturns, hmemory, hupdates.effective⟩

theorem fetchAdd (v : Word w) :
    ∃ found, TakesEffect x (b.fetchAdd w a v) s a found (found + v) found := by
  cases hb : b.addsAtOnce with
  | true => exact (b.acts_addAtOnce hx h.spared _ hb v).takesEffect (Nat.le_refl 40) h.stands
  | false =>
    cases b with
    | native => cases hb
    | traced => cases hb
    | globalLock c base => cases hb
    | casOnly => exact h.fetchApply hx (· + v)
    | pair isa => exact h.fetchApply hx (· + v)
    | singleCore c isa widths => exact h.fetchApply hx (· + v)

/-- **An operation of the fetch family takes effect at one instant.** -/
theorem fetch (op : FetchOp) (v : Word w) :
    ∃ found, TakesEffect x (b.fetch op w a v) s a found (op.combine found v) found := by
  cases op with
  | add => exact h.fetchAdd hx v
  | sub => exact h.fetchAdd hx (-v)
  | and => exact h.fetchApply hx _
  | or => exact h.fetchApply hx _
  | xor => exact h.fetchApply hx _

end Backend.Unhindered

/-- **The typed fetch-and-modify family is the arithmetic of its type, whatever interferes.** For
every integer type, signed or not, on every backend that nobody keeps waiting, and under every
finite schedule of foreign writes and rejections, an operation with an operand returns, and takes
effect at one instant. It replaces the value that the cell holds then by what the operation makes of
it and of the operand, with wraparound. It answers the value replaced, and its other form, which
does the same, answers the value stored: what the operation makes of the one answered and of the
operand. That is the integer result up to a multiple of the number of words. -/
theorem typed_fetch_is_arithmetic (b : Backend) (x : Interference)
    (hx : x.budget = none) (k : IntType)
    (a : Addr) (s : State) (hs : b.Unhindered x a s) (op : FetchOp) (v : k.Value) :
    ∃ held : k.Value,
      TakesEffect x (Atomic.fetch ⟨b, a⟩ op v) s a held.toBits (op.onValue held v).toBits held ∧
      TakesEffect x (Atomic.fetchNew ⟨b, a⟩ op v) s a held.toBits (op.onValue held v).toBits
        (op.onValue held v) ∧
      ((1 <<< k.width.bits : Nat) : Int) ∣ op.onInt held.val v.val - (op.onValue held v).val := by
  obtain ⟨found, h⟩ := hs.fetch hx op v.toBits
  obtain ⟨held, rfl⟩ : ∃ held : k.Value, held.toBits = found :=
    ⟨.ofBits found, IntType.Value.toBits_ofBits found⟩
  rw [op.combine_toBits] at h
  refine ⟨held, ?_, ?_, op.onValue_congr held v⟩
  · have hvalue := h.map (IntType.Value.ofBits (k := k))
    rwa [IntType.Value.ofBits_toBits] at hvalue
  · have hnew := (h.map (op.combine · v.toBits)).map (IntType.Value.ofBits (k := k))
    rwa [op.combine_toBits, IntType.Value.ofBits_toBits] at hnew

/-- A foreign write between the first load-exclusive and its store-exclusive, and one after the last
store-exclusive. -/
def beforeAndAfter : Interference := { addr := .cell 0, pokes := [(4, 1), (11, 3)] }

/-- The least byte is subtracted from one, which wraps around, and is answered although the word has
been overwritten. -/
theorem least_byte_subtracted :
    let least : IntType.Value (.signed .w8) := .wrap _ (-128)
    let p := Atomic.fetchNew (k := .signed .w8) ⟨.pair .armv7, .cell 0⟩ .sub least
    TakesEffect beforeAndAfter p (State.start true true) (.cell 0) (1 : Word .w8) 129
      (.wrap _ (-127)) ∧
      (p.solo beforeAndAfter (State.start true true)).state.read .w8 (.cell 0) = 3 := by
  intro least p
  have hs : Backend.Unhindered (.pair .armv7) beforeAndAfter (.cell 0) (State.start true true) :=
    ⟨Controller.noConfusion, Strategy.noConfusion, Strategy.noConfusion⟩
  obtain ⟨held, h, hnew, -⟩ :=
    typed_fetch_is_arithmetic (.pair .armv7) beforeAndAfter rfl (.signed .w8) (.cell 0)
      _ hs .sub least
  have hheld : some held = some (.wrap _ 1) := h.returns.symm.trans (by decide +kernel)
  obtain rfl := Option.some.inj hheld
  exact ⟨hnew, by decide +kernel⟩

end Atomicity
