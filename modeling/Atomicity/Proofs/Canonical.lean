import Atomicity.Atomic
import Atomicity.Proofs.Complying
import Atomicity.Proofs.Consists
import Atomicity.Proofs.Leads
import Atomicity.Proofs.ManyCores.Machine
import Atomicity.Proofs.OneCore.World
import Atomicity.Session

/-!
# Words that represent values

Not every word represents a value of every type: a byte is a truth value only if it is zero or one.
Typed operations compare words, and what they answer makes sense of values only while the word in
memory is one of those that `toRepr` makes, a **canonical** one (`Canonical`).

`WritesAs t a p` says that a program writes the word at an address only as a value of the type: by
the operations of a cell, on any backend and through any view of the type, by the plain accesses of
a caller that has the cell to itself, and by update functions that may be any such program. Whatever
else it does leaves the word alone.

**`WritesAs.keeps`**: every instruction of such a program keeps the word canonical. It does so by
itself and in any state, so the interleaving does not matter: the word is canonical at every instant
of every run on many cores (`ManyCores.canonical_run`), and on one core with its handlers
(`OneCore.canonical_run`).
-/

namespace Atomicity

open Prog

variable {t : Scalar} {a : Addr}

/-- The word at an address represents a value of the type. -/
def Canonical (t : Scalar) (a : Addr) (m : Memory) : Prop :=
  ∃ v : t.Value, m.read t.width a = v.toRepr

/-- Every word represents an integer or a pointer. -/
theorem Canonical.of_ne_bool (ht : t ≠ .bool) (m : Memory) : Canonical t a m :=
  ⟨.ofRepr (m.read t.width a), (Scalar.Value.toRepr_ofRepr_of_ne_bool ht _).symm⟩

/-- A byte represents a truth value if and only if it is zero or one. -/
theorem canonical_bool_iff {m : Memory} :
    Canonical .bool a m ↔ m.read .w8 a = 0 ∨ m.read .w8 a = 1 := by
  constructor
  · rintro ⟨v, hv⟩
    cases v with
    | false => exact .inl hv
    | true => exact .inr hv
  · rintro (h | h)
    · exact ⟨false, h⟩
    · exact ⟨true, h⟩

theorem Canonical.write {m : Memory} (v : t.Value) : Canonical t a (m.write t.width a v.toRepr) :=
  ⟨v, Memory.read_write_self _ _ _ _⟩

/-! ## Instructions -/

/-- The instruction leaves the word at an address alone. -/
def Instr.Leaves (w : Width) (a : Addr) (i : Instr) : Prop :=
  ∀ refused s, (i.exec refused s).2.read w a = s.read w a

theorem Instr.leaves_of_target? {w : Width} {i : Instr} (h : i.target? ≠ some a) : i.Leaves w a :=
  fun refused s => i.read_of_target? h refused s w

/-- The instruction keeps the word at an address canonical, whatever it finds. -/
def Instr.KeepsCanonical (t : Scalar) (a : Addr) (i : Instr) : Prop :=
  ∀ refused s, Canonical t a s.shared.memory → Canonical t a (i.exec refused s).2.shared.memory

namespace Instr.KeepsCanonical

theorem of_leaves {i : Instr} (h : i.Leaves t.width a) : i.KeepsCanonical t a := by
  rintro refused s ⟨v, hv⟩
  refine ⟨v, ?_⟩
  rw [← hv]
  exact h refused s

theorem of_ne_bool (ht : t ≠ .bool) (i : Instr) : i.KeepsCanonical t a :=
  fun _ _ _ => .of_ne_bool ht _

theorem elsewhere {i : Instr} (h : i.target? ≠ some a) : i.KeepsCanonical t a :=
  of_leaves (leaves_of_target? h)

theorem still {i : Instr} (h : i.target? = none) : i.KeepsCanonical t a :=
  elsewhere (Instr.target?_ne_of_eq_none h a)

theorem lock (ha : a ≠ .globalLock) {i : Instr} (h : i.target? = some .globalLock) :
    i.KeepsCanonical t a :=
  elsewhere fun hi => ha (Option.some.inj (hi.symm.trans h))

theorem read (w : Width) (b : Addr) : (Instr.read w b).KeepsCanonical t a := fun _ _ h => h

theorem loadExclusive (isa : PairIsa) (w : Width) (b : Addr) :
    (Instr.loadExclusive isa w b).KeepsCanonical t a := fun _ _ h => h

variable (v : t.Value)

theorem write : (Instr.write t.width a v.toRepr).KeepsCanonical t a := fun _ _ _ => .write v

theorem swap (isa : SwapIsa) : (Instr.swap isa t.width a v.toRepr).KeepsCanonical t a :=
  fun _ _ _ => .write v

theorem compareSwap (expected : Word t.width) :
    (Instr.compareSwap t.width a expected v.toRepr).KeepsCanonical t a := by
  intro refused s hs
  simp only [exec]
  split
  · exact .write v
  · exact hs

theorem storeExclusive (isa : PairIsa) :
    (Instr.storeExclusive isa t.width a (Word.toRegister v.toRepr)).KeepsCanonical t a := by
  intro refused s hs
  simp only [exec]
  split
  · rw [Register.toWord_toRegister]
    exact .write v
  · exact hs

end Instr.KeepsCanonical

/-! ## Programs -/

/-- The program writes the word at an address only as a value of the type. -/
inductive WritesAs (t : Scalar) (a : Addr) : {α : Type} → Prog α → Prop where
  /-- A program that leaves the word alone. -/
  | other {α : Type} {p : Prog α} (h : p.All (Instr.Leaves t.width a)) : WritesAs t a p
  /-- A cell is made of the word. -/
  | new (v : t.Value) : WritesAs t a (perform (.write t.width a v.toRepr))
  | load (b : Backend) : WritesAs t a (Atomic.load (t := t) ⟨b, a⟩)
  | store (b : Backend) (v : t.Value) : WritesAs t a (Atomic.store ⟨b, a⟩ v)
  | exchange (b : Backend) (v : t.Value) : WritesAs t a (Atomic.exchange ⟨b, a⟩ v)
  | compareExchange (b : Backend) (expected desired : t.Value) :
      WritesAs t a (Atomic.compareExchange ⟨b, a⟩ expected desired)
  | fetchUpdate (b : Backend) {τ : Type} {f : τ → t.Value → Prog (t.Value × τ)}
      (hf : ∀ s x, WritesAs t a (f s x)) (s : τ) : WritesAs t a (Atomic.fetchUpdate ⟨b, a⟩ f s)
  | fetch (b : Backend) {k : IntType} (h : t = .int k) (op : FetchOp) (v : k.Value) :
      WritesAs t a (Atomic.fetch ⟨b, a⟩ op v)
  | fetchNew (b : Backend) {k : IntType} (h : t = .int k) (op : FetchOp) (v : k.Value) :
      WritesAs t a (Atomic.fetchNew ⟨b, a⟩ op v)
  /-- A caller that has the cell to itself replaces the value. -/
  | replace (b : Backend) (v : t.Value) : WritesAs t a (Atomic.replace ⟨b, a⟩ v)
  | inner (b : Backend) : WritesAs t a (Atomic.inner (t := t) ⟨b, a⟩)
  | ret {α : Type} (r : α) : WritesAs t a (.ret r)
  | bind {α β : Type} {p : Prog α} {f : α → Prog β} (first : WritesAs t a p)
      (next : ∀ r, WritesAs t a (f r)) : WritesAs t a (p.bind f)
  | iterate {σ β : Type} {body : σ → Prog (σ ⊕ β)} (round : ∀ x, WritesAs t a (body x)) (x : σ) :
      WritesAs t a (Prog.iterate body x)

namespace WritesAs

open Instr.KeepsCanonical

theorem all_load (ha : a ≠ .globalLock) (b : Backend) :
    (b.load t.width a).All (Instr.KeepsCanonical t a) :=
  b.all_load (fun _ h _ _ => still h) (fun _ => ⟨still rfl, fun _ => lock ha⟩) (read _ _)

theorem all_compareExchange (ha : a ≠ .globalLock) (b : Backend) (e : Word t.width) (d : t.Value) :
    (b.compareExchange t.width a e d.toRepr).All (Instr.KeepsCanonical t a) :=
  b.all_compareExchange (fun _ h _ _ => still h) (fun _ => ⟨still rfl, fun _ => lock ha⟩) (read _ _)
    (write d) (compareSwap d e) (fun _ => loadExclusive _ _ _) fun _ => storeExclusive d _

/-- **Every instruction of a program that writes a word only as values keeps it canonical.** -/
theorem keeps (ha : a ≠ .globalLock) {α : Type} {p : Prog α} (h : WritesAs t a p) :
    p.All (Instr.KeepsCanonical t a) := by
  induction h with
  | other h => exact h.mono fun _ => of_leaves
  | new v => exact .perform (write v)
  | load b => exact .bind (all_load ha b) fun _ => .ret _
  | store b v =>
    exact b.all_store (fun _ h _ _ => still h) (fun _ => ⟨still rfl, fun _ => lock ha⟩) (write v)
  | exchange b v =>
    refine .bind
      (b.all_exchange (fun _ h _ _ => still h) (fun _ => ⟨still rfl, fun _ => lock ha⟩) (read _ _)
        (write v) (swap v) ?_ ?_)
      fun _ => .ret _
    · exact fun _ => loadExclusive _ _ _
    · exact storeExclusive v
  | compareExchange b e d => exact .bind (all_compareExchange ha b _ d) fun _ => .ret _
  | @fetchUpdate b τ f hf s ih =>
    refine .bind (.bind (all_load ha b) fun first => .iterate (fun x => ?_) (first, s)) fun _ =>
      .ret _
    refine .bind (.perform (still rfl)) fun _ => ?_
    show Prog.All _ (Prog.bind (Prog.bind _ _) _)
    rw [Prog.bind_assoc]
    refine .bind (ih x.2 (.ofRepr x.1)) fun made => ?_
    obtain ⟨new, last⟩ := made
    -- what is stored is what the function has made, as a word
    show Prog.All _ (Prog.bind (b.compareExchange t.width a x.1 new.toRepr) _)
    exact .bind (all_compareExchange ha b x.1 new) fun _ => .ret _
  | fetch b h op v =>
    exact (All.trivial _).mono fun i _ => of_ne_bool (by rw [h]; exact Scalar.noConfusion) i
  | fetchNew b h op v =>
    exact (All.trivial _).mono fun i _ => of_ne_bool (by rw [h]; exact Scalar.noConfusion) i
  | replace b v =>
    exact .bind (.perform (read _ _)) fun _ => .bind (.perform (write v)) fun _ => .ret _
  | inner b => exact .bind (.perform (read _ _)) fun _ => .ret _
  | ret r => exact .ret r
  | bind first next ihfirst ihnext => exact .bind ihfirst ihnext
  | iterate round x ih => exact .iterate ih x

end WritesAs

/-- Every operation on a cell writes its word as a value. -/
theorem CellOp.writesAs (c : Atomic t) (op : CellOp t) : WritesAs t c.addr (op.prog c) := by
  cases op with
  | load => exact .bind (.load c.backend) fun _ => .ret _
  | store v => exact .bind (.store c.backend v) fun _ => .ret _
  | exchange v => exact .bind (.exchange c.backend v) fun _ => .ret _
  | compareExchange expected desired => exact .bind (.compareExchange c.backend _ _) fun _ => .ret _
  | fetchUpdate f => exact .bind (.fetchUpdate c.backend (fun _ _ => .ret _) []) fun _ => .ret _
  | isLockFree => exact .ret _
  | replace v => exact .bind (.replace c.backend v) fun _ => .ret _
  | inner => exact .bind (.inner c.backend) fun _ => .ret _
  | write l => exact .bind (.load c.backend) fun _ => .ret _

/-! ## Runs -/

section

variable {S : Service} {P : Instr → Prop}

/-- What is left of the request in progress consists of instructions that satisfy `P`. -/
def Context.Consists (P : Instr → Prop) (c : Context S) : Prop := ∀ p ∈ c.current, p.rest.All P

theorem Context.Consists.start (todo : List S.Request) : (Context.start todo).Consists P :=
  fun _ hp => absurd hp (Option.not_mem_none _)

/-- A step of a context is one of the instructions that its requests consist of, or leaves the state
alone. -/
theorem Context.Consists.step {c : Context S} (hprog : ∀ r, (S.prog r).All P) (hc : c.Consists P)
    (refused : Bool) (s : State) :
    (c.step refused s).1.Consists P ∧
      ((c.step refused s).2 = s ∨ ∃ i, P i ∧ (c.step refused s).2 = (i.exec refused s).2) := by
  have hstep := c.stepped refused s
  generalize c.step refused s = out at hstep ⊢
  obtain ⟨c', s'⟩ := out
  cases hstep with
  | idle answered => exact ⟨hc, .inl rfl⟩
  | start r todo answered =>
    refine ⟨fun p hp => ?_, .inl rfl⟩
    obtain rfl := Option.mem_some.mp hp
    exact hprog r
  | finish r x log todo answered => exact ⟨fun p hp => absurd hp (Option.not_mem_none p), .inl rfl⟩
  | loop r body y k log todo answered =>
    have hall : (Prog.loop body y k).All P := hc _ rfl
    refine ⟨fun p hp => ?_, .inl rfl⟩
    obtain rfl := Option.mem_some.mp hp
    exact .unroll hall
  | exec r i k log todo answered =>
    have hall : (Prog.instr i k).All P := hc _ rfl
    refine ⟨fun p hp => ?_, .inr ⟨i, hall.1, rfl⟩⟩
    obtain rfl := Option.mem_some.mp hp
    exact hall.2 _

variable {x : Context S} {s : State}

/-- A step of a context whose instructions keep a word canonical keeps it canonical. -/
theorem Context.Consists.canonical (hprog : ∀ r, (S.prog r).All (Instr.KeepsCanonical t a))
    (hx : x.Consists (Instr.KeepsCanonical t a)) (refused : Bool)
    (hs : Canonical t a s.shared.memory) : Canonical t a (x.step refused s).2.shared.memory := by
  obtain ⟨-, heq | ⟨i, hi, heq⟩⟩ := hx.step hprog refused s
  · rw [heq]
    exact hs
  · rw [heq]
    exact hi refused s hs

end

section

variable {S : Service} (ha : a ≠ .globalLock) (writes : ∀ r, WritesAs t a (S.prog r))

include ha writes

/-- **On many cores, a word that is written as values only is canonical at every instant.** -/
theorem ManyCores.canonical_run {n : Nat} (shared : Shared) (core : Fin n → Core)
    (todo : Fin n → List S.Request) (hstart : Canonical t a shared.memory)
    (choices : List (Fin n × Bool)) :
    Canonical t a ((ManyCores.start shared core todo).run choices).shared.memory := by
  have hprog : ∀ r, (S.prog r).All (Instr.KeepsCanonical t a) := fun r => (writes r).keeps ha
  suffices h : ∀ x : ManyCores S n, (∀ k, (x.context k).Consists (Instr.KeepsCanonical t a)) →
      Canonical t a x.shared.memory → Canonical t a (x.run choices).shared.memory from
    h _ (fun k => .start (todo k)) hstart
  intro x hcontexts hx
  induction choices generalizing x with
  | nil => exact hx
  | cons choice choices ih =>
    obtain ⟨k, refused⟩ := choice
    apply ih (x.step (k, refused))
    · intro j
      by_cases hj : j = k
      · subst hj
        rw [ManyCores.context_step_self]
        exact ((hcontexts j).step hprog refused _).1
      · rw [ManyCores.context_step_of_ne hj]
        exact hcontexts j
    · exact (hcontexts k).canonical hprog refused hx

/-- **On one core with its handlers, a word that is written as values only is canonical at every
instant.** -/
theorem OneCore.canonical_run (c : Controller) (s : State) (todo : List S.Request)
    (hstart : Canonical t a s.shared.memory) (choices : List (OneCore.Choice S)) :
    Canonical t a ((OneCore.start s todo).run c choices).state.shared.memory := by
  have hprog : ∀ r, (S.prog r).All (Instr.KeepsCanonical t a) := fun r => (writes r).keeps ha
  suffices h : ∀ x : OneCore S, (∀ k ∈ x.contexts, k.Consists (Instr.KeepsCanonical t a)) →
      Canonical t a x.state.shared.memory → Canonical t a (x.run c choices).state.shared.memory by
    refine h _ (fun k hk => ?_) hstart
    obtain rfl := List.mem_singleton.mp hk
    exact .start todo
  intro x hcontexts hx
  induction choices generalizing x with
  | nil => exact hx
  | cons choice choices ih =>
    suffices h : (∀ k ∈ (x.step c choice).contexts, k.Consists (Instr.KeepsCanonical t a)) ∧
        Canonical t a (x.step c choice).state.shared.memory from ih _ h.1 h.2
    have hrunning := hcontexts x.running List.mem_cons_self
    have hwaiting : ∀ k ∈ x.interrupted, k.Consists (Instr.KeepsCanonical t a) := fun k hk =>
      hcontexts k (List.mem_cons_of_mem _ hk)
    cases choice with
    | interrupt masked handler =>
      show (∀ k ∈ (x.interrupt c masked handler).contexts, _) ∧
        Canonical t a (x.interrupt c masked handler).state.shared.memory
      unfold OneCore.interrupt
      split
      · refine ⟨fun k hk => ?_, ?_⟩
        · rcases List.mem_cons.mp hk with rfl | hk
          · exact .start handler
          · exact hcontexts k hk
        · rw [c.memory_putEnabled]
          exact hx
      · exact ⟨hcontexts, hx⟩
    | go refused =>
      show (∀ k ∈ (x.go c refused).contexts, _) ∧ Canonical t a (x.go c refused).state.shared.memory
      unfold OneCore.go
      split
      · exact ⟨hcontexts, hx⟩
      · next below rest hdone hinterrupted =>
        rw [hinterrupted] at hwaiting
        refine ⟨hwaiting, ?_⟩
        rw [c.memory_putEnabled]
        exact hx
      · refine ⟨fun k hk => ?_, hrunning.canonical hprog refused hx⟩
        rcases List.mem_cons.mp hk with rfl | hk
        · exact (hrunning.step hprog refused _).1
        · exact hwaiting k hk

end

end Atomicity
