import Atomicity.Proofs.Uniform.Primitives
import Atomicity.Proofs.Uniform.WordMachine

/-!
# Operations on every backend

Alone, every operation on a cell, a bare word, a flag or a raw lock does on every backend what the
machine of words has for it. Fetch and modify needs one round (`Performs.fetchUpdate`), so the
function is called once; and whether addition is an instruction, a section under the global lock or
such a round, it is one addition (`Performs.fetchAdd`).

An answer that is not promised may be any (`Performs.promised`).
-/

namespace Atomicity

namespace Effect

variable {α β : Type} {E : Effect α} {E' : Effect β}

@[simp]
theorem Spares.map (h : E.Spares) (g : α → β) : (E.map g).Spares := by
  intro m v
  simp only [Effect.map, h m v]

@[simp]
theorem Spares.andThen (h : E.Spares) (h' : E'.Spares) : (E.andThen E').Spares := by
  intro m v
  simp only [Effect.andThen, h m v, h' _ v]

@[simp]
theorem Spares.skip (a : α) : (Effect.skip a).Spares := fun _ _ => rfl

end Effect

namespace Prog.Performs

variable {α β : Type} {p : Prog α} {n : Nat} {E : Effect α}

theorem map (g : α → β) (h : p.Performs n E) : (p.bind fun a => .ret (g a)).Performs n (E.map g) :=
  fun m hm => Does.map (h m hm)

theorem congr {E' : Effect α} (h : p.Performs n E) (hE : ∀ m, E m = E' m) : p.Performs n E' := by
  intro m hm
  rw [← hE m]
  exact h m hm

variable {w : Width} {a : Addr} (ha : a ≠ .globalLock) (b : Backend)

include ha

/-- **Fetch and modify answers after one round.** -/
theorem fetchUpdate {τ : Type} {f : τ → Word w → Prog (Word w × τ)} {start : τ}
    {g : Word w → Word w} {last : Word w → τ} (hf : ∀ x, f start x = .ret (g x, last x)) :
    (b.fetchUpdate w a f start).Performs 82 ((Effect.replace w a g).map fun x => (x, last x)) := by
  intro m hm
  refine Completes.le (n := 40 + (1 + 40 + 1)) (Does.bind (load ha b w m hm) ?_) (by decide)
  refine Completes.iterate ((Skips.instr fun _ => ⟨rfl, rfl⟩).bind fun _ => ?_)
  change ((f start (m.read w a)).bind _).Completes _ _ _
  rw [hf, ret_bind]
  refine Completes.map ?_
  have hswap := compareExchange ha b (m.read w a) (g (m.read w a)) m hm
  have hfound : Effect.compareExchange w a (m.read w a) (g (m.read w a)) m =
      (⟨true, m.read w a⟩, m.write w a (g (m.read w a))) := if_pos rfl
  rw [hfound] at hswap
  refine hswap.mono fun o m' ho => ?_
  obtain ⟨rfl, rfl⟩ := ho
  exact ⟨_, rfl, rfl, rfl⟩

theorem fetchApply (f : Word w → Word w) :
    (b.fetchApply w a f).Performs 82 (Effect.replace w a f) := by
  have h : (b.fetchUpdate w a (fun _ x => return (f x, ())) ()).Performs 82
      ((Effect.replace w a f).map fun x => (x, ())) := fetchUpdate ha b fun _ => rfl
  exact h.map Prod.fst

/-- However a backend adds, it adds. -/
theorem fetchAdd (v : Word w) : (b.fetchAdd w a v).Performs 82 (Effect.replace w a (· + v)) := by
  cases b with
  | native => exact of_does (fun _ => Does.fetchAdd) (by decide)
  | traced => exact announced (fun _ => Does.fetchAdd) (by decide)
  | casOnly => exact fetchApply ha .casOnly (· + v)
  | pair isa => exact fetchApply ha (.pair isa) (· + v)
  | singleCore c isa widths => exact fetchApply ha (.singleCore c isa widths) (· + v)
  | globalLock c base =>
    refine (locked c base (n := 1 + (1 + 0)) (.replace ha (· + v)) fun m => ?_).le (by decide)
    exact Does.read.bind (Does.write.bind Does.ret)

theorem fetch (op : FetchOp) (v : Word w) :
    (b.fetch op w a v).Performs 82 (Effect.replace w a (op.textbook · v)) := by
  refine Performs.congr (E := Effect.replace w a (op.combine · v)) ?_ fun m => ?_
  · cases op with
    | add => exact fetchAdd ha b v
    | sub => exact fetchAdd ha b (-v)
    | and => exact fetchApply ha b _
    | or => exact fetchApply ha b _
    | xor => exact fetchApply ha b _
  · simp only [Effect.replace, FetchOp.combine_eq]

theorem fetchNew (op : FetchOp) (v : Word w) : (b.fetchNew op w a v).Performs 82
    ((Effect.replace w a (op.textbook · v)).map (op.textbook · v)) := by
  refine Performs.congr ((fetch ha b op v).map (op.combine · v)) fun m => ?_
  simp only [Effect.map, FetchOp.combine_eq]

end Prog.Performs

/-! ## Answers -/

/-- Alone, the program does what the effect says, and its answer shows if it is promised. -/
def Prog.Shows (p : Prog Answer) (isPromised : Bool) (E : Effect (Option Answer)) : Prop :=
  ∀ m : Memory, m.Unlocked → p.Completes 100 m fun y m' =>
    (if isPromised then some y else none) = (E m).1 ∧ m' = (E m).2

namespace Prog

variable {α : Type} {p : Prog α} {n : Nat} {E : Effect α}

/-- The answer of a program, made an answer of a step. -/
theorem Performs.shows (h : p.Performs n E) (hn : n ≤ 100) (g : α → Answer) :
    (p.bind fun a => .ret (g a)).Shows true (E.map fun x => some (g x)) := by
  intro m hm
  refine Completes.le (Completes.map ((h m hm).mono fun x m' hx => ?_)) hn
  obtain ⟨rfl, rfl⟩ := hx
  exact ⟨rfl, rfl⟩

/-- An answer that is not promised may be any. -/
theorem Skips.shows {p : Prog α} (h : ∀ m, p.Skips n m) (hn : n ≤ 100) (g : α → Answer) :
    (p.bind fun a => .ret (g a)).Shows false (.skip none) :=
  fun m _ => Completes.le (Completes.map ((h m).mono fun _ _ hm => ⟨rfl, hm⟩)) hn

/-- A program that leaves memory alone, with an answer that does not depend on anything. -/
theorem Skips.shows_done {p : Prog α} (h : ∀ m, p.Skips n m) (hn : n ≤ 100) :
    (p.bind fun _ => .ret .done).Shows true (.skip (some .done)) :=
  fun m _ => Completes.le (Completes.map ((h m).mono fun _ _ hm => ⟨rfl, hm⟩)) hn

end Prog

open Prog

theorem Prog.Performs.read {w : Width} {a : Addr} :
    (perform (.read w a)).Performs 1 (Effect.load w a) :=
  .of_does (fun _ => Does.read) (Nat.le_refl 1)

theorem Prog.Performs.write {w : Width} {a : Addr} {v : Word w} :
    (perform (.write w a v)).Performs 1 (Effect.store w a v) :=
  .of_does (fun _ => Does.write) (Nat.le_refl 1)

/-- A word is read and written plainly. -/
theorem Prog.Performs.plain {w : Width} {a : Addr} {v : Word w} {f : Word w → α} :
    Prog.Performs (do
      let previous ← perform (.read w a)
      perform (.write w a v)
      return f previous) 2 ((Effect.replace w a fun _ => v).map f) := by
  refine Performs.of_does (n := 1 + (1 + 0)) (fun m => ?_) (by decide)
  exact Does.read.bind (Does.write.bind Does.ret)

/-- Where the word expected is found it is the value expected. -/
theorem Effect.compareExchange_values {t : Scalar} (a : Addr) (expected desired : t.Value)
    (m : Memory) :
    (Effect.compareExchange t.width a expected.toRepr desired.toRepr).map
        (fun o => if o.swapped then ⟨true, expected⟩ else ⟨false, .ofRepr o.expected⟩) m =
      (Effect.compareExchange t.width a expected.toRepr desired.toRepr).map
        (fun o => (⟨o.swapped, .ofRepr o.expected⟩ : Comparison t.Value)) m := by
  unfold Effect.map Effect.compareExchange
  split
  · simp only [if_true, Scalar.Value.ofRepr_toRepr]
  · rfl

/-- What shows of an operation on a cell. -/
theorem CellOp.shows {t : Scalar} (c : Atomic t) (hc : c.addr ≠ .globalLock) (op : CellOp t) :
    (op.prog c).Shows op.isPromised (op.effect c.addr) := by
  cases op with
  | load => exact ((Performs.load hc c.backend t.width).map .ofRepr).shows (by decide) .value
  | store v => exact (Performs.store hc c.backend v.toRepr).shows (by decide) fun _ => .done
  | exchange v =>
    exact ((Performs.exchange hc c.backend v.toRepr).map .ofRepr).shows (by decide) .value
  | compareExchange expected desired =>
    have h := (Performs.compareExchange hc c.backend expected.toRepr desired.toRepr).map fun o =>
      (if o.swapped then ⟨true, expected⟩ else ⟨false, .ofRepr o.expected⟩ : Comparison t.Value)
    exact (h.congr (Effect.compareExchange_values _ _ _)).shows (by decide) .compared
  | fetchUpdate f =>
    have h : (c.backend.fetchUpdate t.width c.addr
        (fun calls x => do
          let r ← listing f calls (.ofRepr x)
          return (r.1.toRepr, r.2)) []).Performs 82
        ((Effect.replace t.width c.addr fun x => (f (.ofRepr x)).toRepr).map fun x =>
          (x, [.ofRepr x])) := Performs.fetchUpdate hc c.backend fun _ => rfl
    exact (h.map fun r => (.ofRepr r.1, r.2)).shows (by decide) fun r => .updated r.1 r.2
  | isLockFree =>
    exact Skips.shows (fun m => Completes.ret (n := 0) (a := c.isLockFree) rfl) (by decide) .truth
  | replace v => exact Performs.plain.shows (by decide) .value
  | inner =>
    exact (Performs.read.map .ofRepr).shows (by decide) .value
  | write l =>
    exact ((Performs.load hc c.backend t.width).map .ofRepr).shows (by decide) fun x =>
      .text (l.write x)

section

variable {k : IntType} (c : Atomic (.int k)) (hc : c.addr ≠ .globalLock)
  (op : FetchOp) (v : k.Value)

include hc

theorem Atomic.fetch_performs : (c.fetch op v).Performs 82
    ((Effect.replace k.width c.addr (op.textbook · v.toBits)).map IntType.Value.ofBits) :=
  Performs.map IntType.Value.ofBits (Performs.fetch hc c.backend op v.toBits)

theorem Atomic.fetchNew_performs : (c.fetchNew op v).Performs 82
    (((Effect.replace k.width c.addr (op.textbook · v.toBits)).map (op.textbook · v.toBits)).map
      IntType.Value.ofBits) :=
  Performs.map IntType.Value.ofBits (Performs.fetchNew hc c.backend op v.toBits)

end

theorem Atomic.testSetLock_performs (c : Atomic (.int .machineWord))
    (v : IntType.machineWord.Value) :
    (c.testSetLock v).Performs 40
      ((Effect.replace .w64 c.addr fun _ => v.toBits).map
        (IntType.Value.ofBits (k := .machineWord))) :=
  Performs.map (IntType.Value.ofBits (k := .machineWord)) (Performs.testSetLock c.backend v.toBits)

/-- What shows of an operation on a bare word. -/
theorem WordOp.shows (b : Backend) {w : Width} {a : Addr} (ha : a ≠ .globalLock) (op : WordOp w) :
    (op.prog b a).Shows op.isPromised (op.effect a) := by
  cases op with
  | load => exact (Performs.load ha b w).shows (by decide) .word
  | store v => exact (Performs.store ha b v).shows (by decide) fun _ => .done
  | exchange v => exact (Performs.exchange ha b v).shows (by decide) .word
  | compareExchange expected desired =>
    exact (Performs.compareExchange ha b expected desired).shows (by decide) fun o =>
      .compared (⟨o.swapped, .ofRepr o.expected⟩ : Comparison (Scalar.unsigned w).Value)
  | fetch op v => exact (Performs.fetch ha b op v).shows (by decide) .word
  | fetchNew op v => exact (Performs.fetchNew ha b op v).shows (by decide) .word
  | casFetchAdd v => exact (Performs.fetchApply ha b (· + v)).shows (by decide) .word
  | fetchUpdate f =>
    have h : (b.fetchUpdate w a (listing f) []).Performs 82
        ((Effect.replace w a f).map fun x => (x, [x])) := Performs.fetchUpdate ha b fun _ => rfl
    exact h.shows (by decide) fun r =>
      .updated (.ofRepr r.1 : (Scalar.unsigned w).Value) (r.2.map .ofRepr)
  | isLockFree =>
    exact Skips.shows (fun m => Completes.ret (n := 0) (a := b.isLockFree w) rfl) (by decide) .truth

/-- What shows of an operation on a flag. -/
theorem FlagOp.shows (f : Flag) (hf : f.word ≠ .globalLock) (op : FlagOp) :
    (op.prog f).Shows true ((op.effect f.word).map some) := by
  cases op with
  | testAndSet =>
    exact ((Performs.testSetLock f.backend 1).map (· != 0)).shows (by decide) .truth
  | clear => exact (Performs.privilegedStore f.backend 0).shows (by decide) fun _ => .done
  | isSet => exact ((Performs.load hf f.backend .w64).map (· != 0)).shows (by decide) .truth

/-- Whether anybody holds a lock can be seen by a plain read between two fences. -/
theorem Prog.Performs.isLocked (l : RawLock) (b : Backend) :
    (l.isLocked b).Performs 3 ((Effect.load .w64 l.word).map (· != 0)) :=
  .map (· != 0) (.of_does (Does.load b.barrier) (Nat.le_refl 3))

/-- An attempt to take a lock leaves the lock held, and finds out whether it was free. -/
theorem Prog.Performs.tryAcquire (l : RawLock) (b : Backend) :
    (l.tryAcquire b).Performs 40 ((Effect.replace .w64 l.word fun _ => 1).map (· == 0)) :=
  .map (· == 0) (.testSetLock b 1)

/-- What shows of an operation on a raw lock, unless it waits. -/
theorem RawOp.shows (l : RawLock) (b : Backend) (op : RawOp) (h : op ≠ .acquire) :
    (op.prog l b).Shows true ((op.effect l).map some) := by
  cases op with
  | acquire => exact absurd rfl h
  | tryAcquire => exact (Performs.tryAcquire l b).shows (by decide) .truth
  | release => exact (Performs.privilegedStore b 0).shows (by decide) fun _ => .done
  | isLocked => exact (Performs.isLocked l b).shows (by decide) .truth

end Atomicity
