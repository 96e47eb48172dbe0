import Atomicity.Proofs.Alone
import Atomicity.Proofs.Consists
import Atomicity.Proofs.Interference.Passage

/-!
# What is stored to the word of a spin lock

The discipline `storing a` keeps a list of what a context stores at an address while it runs alone.
With it the operations on a spin lock are accounted for store by store, on every backend:
`SpinOp.stores` is what an operation stores to the word of its lock, and **an operation that answers
has stored that, and nothing else** (`SpinOp.stores_of_answer`). So a guard that ends frees its lock
once, also where a critical section is left early, and to take a lock that is free takes one swap.
-/

namespace Atomicity

open Prog Discipline

/-- What an instruction accesses is at its target. -/
theorem Instr.target?_of_storesTo {i : Instr} {r : i.Reply} {a : Addr} {e : Access}
    (he : e ∈ i.accesses r) (hs : e.storesTo a = true) : i.target? = some a := by
  have stored : ∀ {w : Width} {b : Addr} {v : Word w}, e = .stored w b v → some b = some a := by
    rintro w b v rfl
    exact congrArg some (of_decide_eq_true hs)
  have loaded : ∀ {w : Width} {b : Addr} {v : Word w}, e ≠ .loaded w b v := by
    rintro w b v rfl
    cases hs
  cases i with
  | read w b => exact absurd (List.mem_singleton.mp he) loaded
  | write w b v => exact stored (List.mem_singleton.mp he)
  | swap isa w b v =>
    rcases List.mem_cons.mp he with he | he
    · exact absurd he loaded
    · exact stored (List.mem_singleton.mp he)
  | compareSwap w b expected desired =>
    rcases List.mem_cons.mp he with he | he
    · exact absurd he loaded
    · split at he
      · exact stored (List.mem_singleton.mp he)
      · cases he
  | fetchAdd w b v =>
    rcases List.mem_cons.mp he with he | he
    · exact absurd he loaded
    · exact stored (List.mem_singleton.mp he)
  | loadExclusive isa w b => exact absurd (List.mem_singleton.mp he) loaded
  | storeExclusive isa w b v =>
    simp only [accesses] at he
    split at he
    · exact stored (List.mem_singleton.mp he)
    · cases he
  | endConstruction => exact stored (List.mem_singleton.mp he)
  | _ => cases he

/-- Others do nothing. The ghost is what has been stored at an address, first store first. -/
def storing (a : Addr) : Discipline (List Access) :=
  tallying fun g e => g ++ (e.1.accesses e.2).filter (Access.storesTo a)

namespace storing

variable {a : Addr} {u v : Word .w64} {g₀ : List Access} {α : Type} {p : Prog α}

/-- So much has been stored at the address, and the word there is this. -/
def At (a : Addr) (g₀ : List Access) (u : Word .w64) (g : List Access) (s : State) : Prop :=
  g = g₀ ∧ s.read .w64 a = u

/-- An instruction, by what it stores at the address and what it does to the word. -/
theorem instr {i : Instr} {M : i.Reply → List Access → State → Prop}
    (h : ∀ s refused, s.read .w64 a = u →
      M (i.exec refused s).1 (g₀ ++ (i.accesses (i.exec refused s).1).filter (Access.storesTo a))
        (i.exec refused s).2) : (storing a).Leads (At a g₀ u) (perform i) M := by
  refine tallying.instr fun g s refused hs => ?_
  obtain ⟨rfl, hu⟩ := hs
  exact h s refused hu

/-- An instruction elsewhere stores nothing at the address. -/
theorem elsewhere {i : Instr} (h : i.target? ≠ some a) :
    (storing a).Leads (At a g₀ u) (perform i) fun _ => At a g₀ u := by
  refine instr fun s refused hs => ⟨?_, (Instr.read_of_target? h refused s .w64).trans hs⟩
  rw [List.filter_eq_nil_iff.mpr fun e he hstores => h (Instr.target?_of_storesTo he hstores),
    List.append_nil]

theorem still {i : Instr} (h : i.target? = none) :
    (storing a).Leads (At a g₀ u) (perform i) fun _ => At a g₀ u :=
  elsewhere (Instr.target?_ne_of_eq_none h a)

theorem spares (hp : p.All fun i => i.target? ≠ some a) :
    (storing a).Leads (At a g₀ u) p fun _ => At a g₀ u :=
  .all (fun _ hi => elsewhere hi) hp

theorem disable (c : Controller) : (storing a).Leads (At a g₀ u) c.disable fun _ => At a g₀ u :=
  spares (c.all_disable fun _ hi => Instr.target?_ne_of_commands hi a)

theorem enableIf (c : Controller) (b : Bool) :
    (storing a).Leads (At a g₀ u) (c.enableIf b) fun _ => At a g₀ u :=
  spares (c.all_enableIf (fun _ hi => Instr.target?_ne_of_commands hi a) b)

/-- To read the word stores nothing. -/
theorem read :
    (storing a).Leads (At a g₀ u) (perform (.read .w64 a)) fun r g s => r = u ∧ At a g₀ u g s :=
  instr fun _ _ hs => ⟨hs, List.append_nil g₀, hs⟩

theorem write : (storing a).Leads (At a g₀ u) (perform (.write .w64 a v)) fun _ =>
    At a (g₀ ++ [.stored .w64 a v]) v := by
  refine instr fun s _ _ => ⟨?_, s.read_write_self ..⟩
  simp [Instr.accesses, Access.storesTo]

theorem maskedSwap (c : Controller) (isa : Isa) (v : Word .w64) : (storing a).Leads (At a g₀ u)
    (Backend.maskedSwap c isa a v) fun r g s => r = u ∧ At a (g₀ ++ [.stored .w64 a v]) v g s := by
  have swap : (storing a).Leads (At a g₀ u) (do
      perform (.fence isa)
      let previous ← perform (.read .w64 a)
      perform (.write .w64 a v)
      perform (.fence isa)
      return previous) fun r g s => r = u ∧ At a (g₀ ++ [.stored .w64 a v]) v g s :=
    (still rfl).bind fun _ => read.bind fun r => .given fun hr => write.bind fun _ =>
      (still rfl).bind fun _ =>
      .ret fun _ _ hs => ⟨hr, hs⟩
  exact (disable c).bind fun b => swap.bind fun r => .given fun hr => (enableIf c b).bind fun _ =>
    .ret fun _ _ hs => ⟨hr, hs⟩

/-- To swap the word of a lock stores one word there, and answers what was there before. -/
theorem testSetLock (b : Backend) (v : Word .w64) :
    (storing a).Leads (At a g₀ u) (b.testSetLock a v)
      fun r g s => r = u ∧ At a (g₀ ++ [.stored .w64 a v]) v g s := by
  have before : (storing a).Still (At a g₀ u) := fun i hi _ => still hi
  have after : ∀ r, (storing a).Still fun g s => r = u ∧ At a (g₀ ++ [.stored .w64 a v]) v g s :=
    fun r i hi _ => .given fun hr => (still hi).mono fun _ _ _ hs => ⟨hr, hs⟩
  refine .testSetLock (N := fun r g s => Register.toWord r = u ∧ At a g₀ u g s) before after
    (fun isa => ?_) (fun isa => ?_) (fun isa r => .given fun hr => ?_) fun c base hb isa => ?_
  · refine instr fun s _ hs => ⟨hs, ?_, s.read_write_self ..⟩
    simp [Instr.accesses, Access.storesTo]
  · refine instr fun s _ hs => ⟨?_, ?_, hs⟩
    · exact (Register.toWord_toRegister _).trans hs
    · simp [Instr.accesses, Access.storesTo]
  · refine instr fun s refused hs => ?_
    simp only [Instr.exec]
    split
    · refine ⟨hr, ?_, ?_⟩
      · simp [Instr.accesses, Access.storesTo]
      · simp [State.read, State.reserve]
    · exact ⟨List.append_nil g₀, hs⟩
  · exact maskedSwap c isa v

/-- To write the word of a lock stores it there. -/
theorem privilegedStore (b : Backend) (v : Word .w64) :
    (storing a).Leads (At a g₀ u) (b.privilegedStore a v)
      fun _ => At a (g₀ ++ [.stored .w64 a v]) v := by
  refine .privilegedStore (fun i hi _ => still hi) (fun i hi _ => still hi) write
    fun c base _ isa => ?_
  exact (maskedSwap c isa v).mono fun _ _ _ hs => hs.2

variable {t : Scalar} (l : SpinLock t)

/-- To take a lock that is free takes one swap. -/
theorem acquire (l : RawLock) (b : Backend) : (storing l.word).Leads (At l.word g₀ 0) (l.acquire b)
    fun _ => At l.word (g₀ ++ [.stored .w64 l.word 1]) 1 := by
  refine .untilTrue ((testSetLock b 1).bind fun r => .given fun hr => .ret fun _ _ hs => ?_)
  subst hr
  exact hs

theorem spinAcquire : (storing l.lock.word).Leads (At l.lock.word g₀ 0) l.acquire
    fun _ => At l.lock.word (g₀ ++ [.stored .w64 l.lock.word 1]) 1 :=
  (acquire l.lock l.backend).bind fun _ => .ret fun _ _ hs => hs

theorem acquireMasked : (storing l.lock.word).Leads (At l.lock.word g₀ 0) l.acquireMasked
    fun _ => At l.lock.word (g₀ ++ [.stored .w64 l.lock.word 1]) 1 :=
  (disable _).bind fun _ => (acquire l.lock l.backend).bind fun _ => .ret fun _ _ hs => hs

theorem unlock (g : Guard) : (storing l.lock.word).Leads (At l.lock.word g₀ u) (l.unlock g)
    fun _ => At l.lock.word (g₀ ++ [.stored .w64 l.lock.word 0]) 0 := by
  refine (privilegedStore l.backend 0).bind fun _ => ?_
  obtain ⟨restore⟩ := g
  cases restore with
  | none => exact .ret fun _ _ hs => hs
  | some b => exact enableIf _ b

theorem isLocked : (storing l.lock.word).Leads (At l.lock.word g₀ u) l.isLocked fun r g s =>
    r = (u != 0) ∧ At l.lock.word g₀ u g s :=
  ((still rfl).bind fun _ => read.bind fun _ => .given fun hr => (still rfl).bind fun _ =>
    .ret fun _ _ hs => ⟨hr, hs⟩).bind fun _ => .given fun hr => .ret fun _ _ hs =>
      ⟨congrArg (· != 0) hr, hs⟩

variable (hdata : l.data ≠ l.lock.word)

include hdata

theorem value :
    (storing l.lock.word).Leads (At l.lock.word g₀ u) l.value fun _ => At l.lock.word g₀ u := by
  have hread : (Instr.read t.width l.data).target? ≠ some l.lock.word :=
    fun h => hdata (Option.some.inj h)
  exact (elsewhere hread).bind fun _ => .ret fun _ _ hs => hs

theorem setValue (v : t.Value) :
    (storing l.lock.word).Leads (At l.lock.word g₀ u) (l.setValue v) fun _ =>
      At l.lock.word g₀ u := by
  have hwrite : (Instr.write t.width l.data v.toRepr).target? ≠ some l.lock.word :=
    fun h => hdata (Option.some.inj h)
  exact elsewhere hwrite

theorem replace (v : t.Value) :
    (storing l.lock.word).Leads (At l.lock.word g₀ u) (l.replace v) fun _ => At l.lock.word g₀ u :=
  (value l hdata).bind fun _ => (setValue l hdata v).bind fun _ => .ret fun _ _ hs => hs

/-- A lock made anew is free. -/
theorem renew : (storing l.lock.word).Leads (At l.lock.word g₀ u) l.renew
    fun _ => At l.lock.word (g₀ ++ [.stored .w64 l.lock.word 0]) 0 :=
  (value l hdata).bind fun _ => write.bind fun _ => .ret fun _ _ hs => hs

/-- A critical section takes the lock once, and frees it once. -/
theorem brief (masked : Bool) (v : t.Value) :
    (storing l.lock.word).Leads (At l.lock.word g₀ 0) (l.brief masked v)
    fun _ => At l.lock.word (g₀ ++ [.stored .w64 l.lock.word 1, .stored .w64 l.lock.word 0]) 0 := by
  have rest : ∀ g,
      (storing l.lock.word).Leads (At l.lock.word (g₀ ++ [.stored .w64 l.lock.word 1]) 1)
        ((l.setValue v).bind fun _ => l.unlock g) fun _ =>
          At l.lock.word (g₀ ++ [.stored .w64 l.lock.word 1, .stored .w64 l.lock.word 0]) 0 := by
    intro g
    refine (setValue l hdata v).bind fun _ => (unlock l g).mono fun _ g s hs => ?_
    rwa [List.append_assoc] at hs
  cases masked with
  | true => exact (acquireMasked l).bind rest
  | false => exact (spinAcquire l).bind rest

end storing

namespace SpinOp

variable {t : Scalar}

/-- What an operation on a spin lock stores to the word of the lock. -/
def stores (a : Addr) : SpinOp t → List Access
  | acquire _ | tryAcquire _ | acquireMasked _ => [.stored .w64 a 1]
  | unlock _ | renew => [.stored .w64 a 0]
  | brief .. => [.stored .w64 a 1, .stored .w64 a 0]
  | _ => []

/-- The operation waits for a lock that is held. -/
def waits : SpinOp t → Bool
  | acquire _ | acquireMasked _ | brief .. => true
  | _ => false

variable (l : SpinLock t) (hdata : l.data ≠ l.lock.word) {u : Word .w64}

include hdata

/-- What an operation stores to the word of its lock, if it does not have to wait. -/
theorem leads_stores (gs : LiveGuards) (op : SpinOp t) (hlive : op.refusal? l gs = none)
    (hfree : op.waits = true → u = 0) :
    (storing l.lock.word).Leads (storing.At l.lock.word [] u) (op.prog l gs)
      fun _ g _ => g = op.stores l.lock.word := by
  cases op with
  | acquire name =>
    obtain rfl := hfree rfl
    exact (storing.spinAcquire l).bind fun _ => .ret fun _ _ hs => hs.1
  | acquireMasked name =>
    obtain rfl := hfree rfl
    exact (storing.acquireMasked l).bind fun _ => .ret fun _ _ hs => hs.1
  | tryAcquire name =>
    let Once : List Access → State → Prop := fun g _ => g = [.stored .w64 l.lock.word 1]
    have swap :
        (storing l.lock.word).Leads (storing.At l.lock.word [] u)
          (l.backend.testSetLock l.lock.word 1)
        fun _ => Once := (storing.testSetLock l.backend 1).mono fun _ _ _ hs => hs.2.1
    have attempt : (storing l.lock.word).Leads (storing.At l.lock.word [] u) l.tryAcquire
        fun _ => Once :=
      (swap.bind fun _ => .ret fun _ _ hs => hs).bind fun _ => .ret fun _ _ hs => hs
    refine attempt.bind fun g? => ?_
    cases g? with
    | none => exact .ret fun _ _ hs => hs
    | some g => exact .ret fun _ _ hs => hs
  | unlock name =>
    cases hfind : gs.find? l.lock name with
    | none => simp [refusal?, hfind] at hlive
    | some g =>
      simp only [prog, hfind]
      exact (storing.unlock l g).bind fun _ => .ret fun _ _ hs => hs.1
  | forget name => exact .ret fun _ _ hs => hs.1
  | value name => exact (storing.value l hdata).bind fun _ => .ret fun _ _ hs => hs.1
  | setValue name v => exact (storing.setValue l hdata v).bind fun _ => .ret fun _ _ hs => hs.1
  | isLocked => exact (storing.isLocked l).bind fun _ => .ret fun _ _ hs => hs.2.1
  | replace v => exact (storing.replace l hdata v).bind fun _ => .ret fun _ _ hs => hs.1
  | renew => exact (storing.renew l hdata).bind fun _ => .ret fun _ _ hs => hs.1
  | brief masked v =>
    obtain rfl := hfree rfl
    refine (storing.isLocked l).bind fun held => .given fun hheld => ?_
    subst hheld
    exact (storing.brief l hdata masked v).bind fun _ => .ret fun _ _ hs => hs.1

end SpinOp

/-! ## Alone -/

/-- What a program stores at an address while it runs alone. -/
def Prog.storesAlone {α : Type} (p : Prog α) (a : Addr) (s : State) : List Access :=
  ((Solo.start p s).trace .none Interference.none.fuel).filter (Access.storesTo a)

/-- The ghost of a program that runs alone is what it stores. -/
theorem storing.result {a : Addr} {α : Type} {p : Prog α} {R : List Access → State → Prop}
    {M : α → List Access → State → Prop} (h : (storing a).Leads R p M) {s : State}
    (hs : R [] s) {r : α} (hr : (p.alone s).result? = some r) :
    M r (p.storesAlone a s) (p.alone s).state := by
  have hghost := tallying.result h hs hr
  have hstores : ∀ (es : List Executed) (g : List Access),
      es.foldl (fun g e => g ++ (e.1.accesses e.2).filter (Access.storesTo a)) g =
        g ++ (es.flatMap fun e => e.1.accesses e.2).filter (Access.storesTo a) := by
    intro es
    induction es with
    | nil => simp
    | cons e es ih => simp [ih]
  rw [hstores, List.nil_append] at hghost
  rw [Prog.storesAlone, Solo.trace_alone]
  exact hghost

/-- **What an operation on a spin lock stores to the word of the lock**, when it answers. -/
theorem SpinOp.stores_of_answer {t : Scalar} (l : SpinLock t) (hdata : l.data ≠ l.lock.word)
    (gs : LiveGuards) (op : SpinOp t) (hlive : op.refusal? l gs = none) {s : State}
    (hfree : op.waits = true → s.read .w64 l.lock.word = 0) {r : Option Answer × LiveGuards}
    (hr : ((op.prog l gs).alone s).result? = some r) :
    (op.prog l gs).storesAlone l.lock.word s = op.stores l.lock.word :=
  storing.result (op.leads_stores l hdata gs hlive hfree) ⟨rfl, rfl⟩ hr

end Atomicity
