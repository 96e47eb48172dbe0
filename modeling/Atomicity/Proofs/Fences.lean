import Atomicity.Proofs.Interfered
import Atomicity.Proofs.Leads
import Atomicity.Proofs.Operates

/-!
# Fences around every access

On a backend whose fences are instructions of their own, what keeps the accesses of two operations
in order is that a full fence stands between them.

`Fenced isa l` says that in the log `l` of executed instructions every access stands between two
full fences, and that nothing else stands between these two but what the same operation does to the
same word (`Sole`): a read, a write, a read and a write, a swap, or rounds of an exclusive pair, of
which the last one stores or gives its reservation up. So two accesses without a fence between them
are of one operation (`Fenced.separated`). The one write of a lock that is constructed is not
counted as an access: whoever constructs a value once orders that himself.

A program keeps its log fenced by the rules of `Leads`, with the log as the ghost: what accesses
nothing may be executed anywhere (`apart`), and a fence is followed by the accesses of one operation
and another fence. By induction over `Operates` that holds of every operation.

**`fences_bracket_accesses`** says so of every run of operations, finished or not, each under an
interference of its own.
-/

namespace Atomicity

open Prog Discipline

/-- The instruction reads or writes a word, or gives up a reservation of one. -/
def Instr.touches : Instr → Bool
  | read .. | write .. | swap .. | compareSwap .. | fetchAdd .. => true
  | loadExclusive .. | storeExclusive .. | clearExclusive _ => true
  | _ => false

/-- The fences of a backend are instructions of their own. -/
def Backend.fencesApart : Backend → Bool
  | native | traced | casOnly => false
  | pair _ | singleCore .. | globalLock .. => true

theorem Backend.of_fencesApart {b : Backend} (h : b.fencesApart = true) :
    (∃ isa, b = .pair isa) ∨ (∃ c isa widths, b = .singleCore c isa widths) ∨
      ∃ c base, b = .globalLock c base := by
  cases b with
  | native => cases h
  | traced => cases h
  | casOnly => cases h
  | pair isa => exact .inl ⟨isa, rfl⟩
  | singleCore c isa widths => exact .inr (.inl ⟨c, isa, widths, rfl⟩)
  | globalLock c base => exact .inr (.inr ⟨c, base, rfl⟩)

section

variable (isa : PairIsa) (w : Width) (a : Addr)

/-- Rounds of an exclusive pair that have not stored. -/
inductive Rejected : List Executed → Prop where
  | none : Rejected []
  | again {m : List Executed} (h : Rejected m) (u v : Register w) :
      Rejected (m ++ [⟨.loadExclusive isa w a, u⟩, ⟨.storeExclusive isa w a v, false⟩])

/-- All that one operation does to one word. -/
inductive Sole : List Executed → Prop where
  | read (u : Word w) : Sole [⟨.read w a, u⟩]
  | write (v : Word w) : Sole [⟨.write w a v, ()⟩]
  | readWrite (u v : Word w) : Sole [⟨.read w a, u⟩, ⟨.write w a v, ()⟩]
  | swap (isa : SwapIsa) (v u : Word w) : Sole [⟨.swap isa w a v, u⟩]
  | stored {isa : PairIsa} {m : List Executed} (h : Rejected isa w a m) (u v : Register w) :
      Sole (m ++ [⟨.loadExclusive isa w a, u⟩, ⟨.storeExclusive isa w a v, true⟩])
  | cleared {isa : PairIsa} {m : List Executed} (h : Rejected isa w a m) (u : Register w) :
      Sole (m ++ [⟨.loadExclusive isa w a, u⟩, ⟨.clearExclusive isa, ()⟩])

end

/-- Every access of a log stands between two full fences, with nothing but what the same operation
does to the same word. -/
inductive Fenced (isa : Isa) : List Executed → Prop where
  | nil : Fenced isa []
  | apart (e : Executed) {l : List Executed} (h : e.1.touches = false) (rest : Fenced isa l) :
      Fenced isa (e :: l)
  | between {w : Width} {a : Addr} {m l : List Executed} (h : Sole w a m) (rest : Fenced isa l) :
      Fenced isa (⟨.fence isa, ()⟩ :: (m ++ ⟨.fence isa, ()⟩ :: l))

/-- Where a list with a separator in it is split at something else, the separator is on one side. -/
theorem split_beside {α : Type} {e x : α} (hne : e ≠ x) {m l before after : List α}
    (h : m ++ x :: l = before ++ e :: after) :
    (∃ mid, before = m ++ x :: mid ∧ l = mid ++ e :: after) ∨
      ∃ mid, m = before ++ e :: mid ∧ after = mid ++ x :: l := by
  induction m generalizing before with
  | nil =>
    cases before with
    | nil => exact absurd (List.cons.inj h).1.symm hne
    | cons y before =>
      obtain ⟨rfl, rfl⟩ := List.cons.inj h
      exact .inl ⟨before, rfl, rfl⟩
  | cons y m ih =>
    cases before with
    | nil =>
      obtain ⟨rfl, rfl⟩ := List.cons.inj h
      exact .inr ⟨m, rfl, rfl⟩
    | cons z before =>
      obtain ⟨rfl, htail⟩ := List.cons.inj h
      obtain ⟨mid, rfl, rfl⟩ | ⟨mid, rfl, rfl⟩ := ih htail
      · exact .inl ⟨mid, rfl, rfl⟩
      · exact .inr ⟨mid, rfl, rfl⟩

namespace Fenced

variable {isa : Isa} {l k : List Executed}

theorem append (h : Fenced isa l) (hk : Fenced isa k) : Fenced isa (l ++ k) := by
  induction h with
  | nil => exact hk
  | apart e he _ ih => exact .apart e he ih
  | between hm _ ih =>
    rw [List.cons_append, List.append_assoc, List.cons_append]
    exact .between hm ih

theorem snoc (h : Fenced isa l) {e : Executed} (he : e.1.touches = false) : Fenced isa (l ++ [e]) :=
  h.append (.apart e he .nil)

/-- **Two accesses without a fence between them are of one operation on one word.** -/
theorem separated (h : Fenced isa l) {before mid after : List Executed} {e f : Executed}
    (hl : l = before ++ e :: (mid ++ f :: after)) (he : e.1.touches = true)
    (hf : f.1.touches = true) (hmid : ⟨.fence isa, ()⟩ ∉ mid) :
    ∃ w a m, Sole w a m ∧ e :: (mid ++ [f]) <:+: m := by
  induction h generalizing before with
  | nil => simp at hl
  | apart e' he' rest ih =>
    cases before with
    | nil =>
      obtain ⟨rfl, -⟩ := List.cons.inj hl
      rw [he'] at he
      cases he
    | cons e'' before => exact ih (List.cons.inj hl).2
  | @between w a m l hm rest ih =>
    have fence_ne : ∀ {e : Executed}, e.1.touches = true → e ≠ ⟨.fence isa, ()⟩ := by
      rintro _ htouches rfl
      cases htouches
    cases before with
    | nil => exact absurd (List.cons.inj hl).1.symm (fence_ne he)
    | cons e' before =>
      obtain ⟨as, -, has⟩ | ⟨bs, rfl, hbs⟩ := split_beside (fence_ne he) (List.cons.inj hl).2
      · exact ih has
      · obtain ⟨cs, rfl, -⟩ | ⟨cs, rfl, -⟩ := split_beside (fence_ne hf) hbs.symm
        · exact absurd (List.mem_append_right _ List.mem_cons_self) hmid
        · exact ⟨w, a, _, hm, before, cs, by simp⟩

end Fenced

/-! ## Programs that keep their log fenced -/

/-- Every log of a program begins a fenced one, whatever others do. -/
def fencing (isa : Isa) : Discipline (List Executed) where
  env _ _ _ := True
  own i r g _ g' _ := g' = g ++ [⟨i, r⟩] ∧ ∃ more, Fenced isa (g' ++ more)

namespace fencing

/-- The log is fenced. -/
def Closed (isa : Isa) (g : List Executed) (_ : State) : Prop := Fenced isa g

/-- A fence has been executed, and after it what `P` holds of. -/
def Open (isa : Isa) (P : List Executed → Prop) (g : List Executed) (_ : State) : Prop :=
  ∃ l m, Fenced isa l ∧ P m ∧ g = l ++ ⟨.fence isa, ()⟩ :: m

variable {isa : Isa} {w : Width} {a : Addr} {α : Type} {P : List Executed → Prop}

theorem apart {i : Instr} (hi : i.touches = false) :
    (fencing isa).Leads (Closed isa) (perform i) fun _ => Closed isa := by
  refine .instr fun g s s' refused hg _ => ?_
  have hg' := Fenced.snoc hg (e := ⟨i, (i.exec refused s').1⟩) hi
  exact ⟨_, ⟨rfl, [], by rwa [List.append_nil]⟩, hg'⟩

theorem apart_all {p : Prog α} (hp : p.All fun i => i.touches = false) :
    (fencing isa).Leads (Closed isa) p fun _ => Closed isa :=
  .all (fun _ hi => apart hi) hp

theorem opening :
    (fencing isa).Leads (Closed isa) (perform (.fence isa)) fun _ => Open isa (· = []) := by
  refine .instr fun g s s' refused hg _ => ⟨_, ⟨rfl, [], ?_⟩, g, [], hg, rfl, rfl⟩
  rw [List.append_nil]
  exact Fenced.snoc hg rfl

/-- One more access of the operation. -/
theorem access {i : Instr} {P' : i.Reply → List Executed → Prop}
    (h : ∀ m r, P m → P' r (m ++ [⟨i, r⟩]))
    (begins : ∀ m r, P' r m → ∃ more w a, Sole w a (m ++ more)) :
    (fencing isa).Leads (Open isa P) (perform i) fun r => Open isa (P' r) := by
  refine .instr fun g s s' refused hg _ => ?_
  obtain ⟨l, m, hl, hm, rfl⟩ := hg
  have hm' := h m (i.exec refused s').1 hm
  obtain ⟨more, w, a, hsole⟩ := begins _ _ hm'
  refine ⟨_, ⟨rfl, more ++ [⟨.fence isa, ()⟩], ?_⟩, l, _, hl, hm', ?_⟩
  · have hfenced := hl.append (.between hsole .nil)
    simpa using hfenced
  · simp

theorem closing (hP : ∀ m, P m → Sole w a m) :
    (fencing isa).Leads (Open isa P) (perform (.fence isa)) fun _ => Closed isa := by
  refine .instr fun g s s' refused hg _ => ?_
  obtain ⟨l, m, hl, hm, rfl⟩ := hg
  have hfenced := hl.append (Fenced.between (hP m hm) .nil)
  have hg' : Fenced isa ((l ++ ⟨.fence isa, ()⟩ :: m) ++ [⟨.fence isa, ()⟩]) := by
    simpa using hfenced
  exact ⟨_, ⟨rfl, [], by rwa [List.append_nil]⟩, hg'⟩

/-! ### The accesses of an operation -/

/-- The accesses of one operation, all of them. -/
def Done (isa : Isa) (w : Width) (a : Addr) : List Executed → State → Prop := Open isa (Sole w a)

theorem read : (fencing isa).Leads (Open isa (· = [])) (perform (.read w a))
    fun u => Open isa (· = [⟨.read w a, u⟩]) :=
  access (fun m u hm => by rw [hm]; rfl) fun m u hm => ⟨[], w, a, by rw [hm]; exact .read u⟩

theorem readOnly :
    (fencing isa).Leads (Open isa (· = [])) (perform (.read w a)) fun _ => Done isa w a :=
  access (fun m u hm => by rw [hm]; exact .read u) fun m _ hm =>
    ⟨[], w, a, by rwa [List.append_nil]⟩

theorem write (v : Word w) :
    (fencing isa).Leads (Open isa (· = [])) (perform (.write w a v)) fun _ => Done isa w a :=
  access (fun m _ hm => by rw [hm]; exact .write v) fun m _ hm =>
    ⟨[], w, a, by rwa [List.append_nil]⟩

theorem writeAfter {u : Word w} (v : Word w) :
    (fencing isa).Leads (Open isa (· = [⟨.read w a, u⟩])) (perform (.write w a v))
      fun _ => Done isa w a :=
  access (fun m _ hm => by rw [hm]; exact .readWrite u v)
    fun m _ hm => ⟨[], w, a, by rwa [List.append_nil]⟩

theorem swap (cpu : SwapIsa) (v : Word w) :
    (fencing isa).Leads (Open isa (· = [])) (perform (.swap cpu w a v)) fun _ => Done isa w a :=
  access (fun m u hm => by rw [hm]; exact .swap cpu v u)
    fun m _ hm => ⟨[], w, a, by rwa [List.append_nil]⟩

/-- One program after another between two fences. -/
theorem bracket {p : Prog α} (h : (fencing isa).Leads (Open isa (· = [])) p fun _ => Done isa w a) :
    (fencing isa).Leads (Closed isa)
      (do
        perform (.fence isa)
        let r ← p
        perform (.fence isa)
        return r)
      fun _ => Closed isa :=
  opening.bind fun _ => h.bind fun _ => (closing fun _ hm => hm).bind fun _ => .ret fun _ _ hg => hg

theorem load : (fencing isa).Leads (Closed isa) (isa.load w a) fun _ => Closed isa :=
  bracket readOnly

theorem store (v : Word w) :
    (fencing isa).Leads (Closed isa) (isa.store w a v) fun _ => Closed isa :=
  opening.bind fun _ => (write v).bind fun _ => closing fun _ hm => hm

theorem readWrite (v : Word w → Word w) :
    (fencing isa).Leads (Open isa (· = []))
      (do
        let previous ← perform (.read w a)
        perform (.write w a (v previous))
        return previous)
      fun _ => Done isa w a :=
  read.bind fun u => (writeAfter (v u)).bind fun _ => .ret fun _ _ hg => hg

theorem writeWhen (expected desired found : Word w) :
    (fencing isa).Leads (Open isa (· = [⟨.read w a, found⟩]))
      (Prog.when (found = expected) (perform (.write w a desired))) fun _ => Done isa w a := by
  unfold Prog.when
  split
  · exact writeAfter desired
  · refine .ret fun g s hg => ?_
    obtain ⟨l, m, hl, rfl, hm⟩ := hg
    exact ⟨l, _, hl, .read found, hm⟩

theorem compareWrite (expected desired : Word w) :
    (fencing isa).Leads (Open isa (· = []))
      (do
        let found ← perform (.read w a)
        Prog.when (found = expected) (perform (.write w a desired))
        return Comparison.ofFound expected found)
      fun _ => Done isa w a :=
  read.bind fun found => (writeWhen expected desired found).bind fun _ => .ret fun _ _ hg => hg

/-! ### Exclusive pairs -/

section

variable {cpu : PairIsa}

theorem loadExclusive : (fencing isa).Leads (Open isa (Rejected cpu w a))
    (perform (.loadExclusive cpu w a))
    fun u => Open isa fun m =>
      ∃ k, Rejected cpu w a k ∧ m = k ++ [⟨.loadExclusive cpu w a, u⟩] := by
  refine access (fun m u hm => ⟨m, hm, rfl⟩) fun m u hm => ?_
  obtain ⟨k, hk, rfl⟩ := hm
  exact ⟨[⟨.clearExclusive cpu, ()⟩], w, a, by simpa using Sole.cleared hk u⟩

theorem storeExclusive (u v : Register w) : (fencing isa).Leads
    (Open isa fun m => ∃ k, Rejected cpu w a k ∧ m = k ++ [⟨.loadExclusive cpu w a, u⟩])
    (perform (.storeExclusive cpu w a v))
    fun stored => Open isa fun m => if stored then Sole w a m else Rejected cpu w a m := by
  refine access (fun m stored hm => ?_) fun m stored hm => ?_
  · obtain ⟨k, hk, rfl⟩ := hm
    rw [List.append_assoc]
    cases stored with
    | true => exact .stored hk u v
    | false => exact .again hk u v
  · cases stored with
    | true => exact ⟨[], w, a, by simpa using hm⟩
    | false => exact ⟨_, w, a, .cleared hm u⟩

theorem clearExclusive (u : Register w) : (fencing isa).Leads
    (Open isa fun m => ∃ k, Rejected cpu w a k ∧ m = k ++ [⟨.loadExclusive cpu w a, u⟩])
    (perform (.clearExclusive cpu)) fun _ => Done isa w a := by
  refine access (fun m _ hm => ?_) fun m _ hm => ⟨[], w, a, by rwa [List.append_nil]⟩
  obtain ⟨k, hk, rfl⟩ := hm
  rw [List.append_assoc]
  exact .cleared hk u

variable (cpu w a) in
/-- Rounds of an exclusive pair, each of which stores, is rejected, or leaves. -/
theorem rounds {body : Unit → Prog (Unit ⊕ α)}
    (round : (fencing isa).Leads (Open isa (Rejected cpu w a)) (body ())
      fun r g s => r.elim (fun _ => Open isa (Rejected cpu w a) g s) fun _ => Done isa w a g s) :
    (fencing isa).Leads (Open isa (· = [])) (iterate body ()) fun _ => Done isa w a := by
  refine (Leads.iterate (I := fun _ => Open isa (Rejected cpu w a)) (N := fun _ => Done isa w a)
    (fun _ => round) ()).weaken fun g s hg => ?_
  obtain ⟨l, m, hl, rfl, hm⟩ := hg
  exact ⟨l, [], hl, .none, hm⟩

theorem pairExchange (v : Word w) : (fencing (.pair cpu)).Leads (Closed (.pair cpu))
    (cpu.exchange w a v) fun _ => Closed (.pair cpu) := by
  refine opening.bind fun _ => (rounds w a cpu ?_).bind fun _ =>
    (closing fun _ hm => hm).bind fun _ => .ret fun _ _ hg => hg
  refine loadExclusive.bind fun u => (storeExclusive u _).bind fun stored => .ret fun g s hg => ?_
  cases stored with
  | true => exact hg
  | false => exact hg

theorem pairCompareExchange (expected desired : Word w) : (fencing (.pair cpu)).Leads
    (Closed (.pair cpu)) (cpu.compareExchange w a expected desired) fun _ =>
      Closed (.pair cpu) := by
  refine opening.bind fun _ => (rounds w a cpu ?_).bind fun _ =>
    (closing fun _ hm => hm).bind fun _ => .ret fun _ _ hg => hg
  refine loadExclusive.bind fun u => ?_
  split
  · refine (storeExclusive u _).bind fun stored => .ret fun g s hg => ?_
    cases stored with
    | true => exact hg
    | false => exact hg
  · exact (clearExclusive u).bind fun _ => .ret fun _ _ hg => hg

end

/-! ### Masked sections, and sections under the global lock -/

theorem masking (c : Controller) {p : Prog α}
    (h : (fencing isa).Leads (Closed isa) p fun _ => Closed isa) :
    (fencing isa).Leads (Closed isa) (c.masking p) fun _ => Closed isa := by
  have quiet : ∀ i : Instr, i.commands = true → i.touches = false := by
    intro i hi
    cases i <;> first | rfl | cases hi
  exact (apart_all (c.all_disable quiet)).bind fun b => h.bind fun _ =>
    (apart_all (c.all_enableIf quiet b)).bind fun _ => .ret fun _ _ hg => hg

theorem maskedSwap (c : Controller) (v : Word .w64) :
    (fencing isa).Leads (Closed isa) (Backend.maskedSwap c isa a v) fun _ => Closed isa :=
  masking c (opening.bind fun _ => read.bind fun _ => (writeAfter v).bind fun _ =>
    (closing fun _ hm => hm).bind fun _ => .ret fun _ _ hg => hg)

/-- The word of the lock and what the lock protects are each accessed between fences of their
own. -/
theorem locked (c : Controller) (base : Backend) {p : Prog α}
    (h : (fencing base.barrier).Leads (Open base.barrier (· = [])) p fun _ =>
      Done base.barrier w a) :
    (fencing base.barrier).Leads (Closed base.barrier) (GlobalLock.locked c base p)
      fun _ => Closed base.barrier := by
  have attempt : (fencing base.barrier).Leads (Closed base.barrier)
      (RawLock.global.tryAcquire (.globalLock c base)) fun _ => Closed base.barrier :=
    (maskedSwap c 1).bind fun _ => .ret fun _ _ hg => hg
  have acquire : (fencing base.barrier).Leads (Closed base.barrier)
      (RawLock.global.acquire (.globalLock c base)) fun _ => Closed base.barrier :=
    attempt.untilTrue_keeps
  have release : (fencing base.barrier).Leads (Closed base.barrier)
      (RawLock.global.release (.globalLock c base)) fun _ => Closed base.barrier :=
    (maskedSwap c 0).bind fun _ => .ret fun _ _ hg => hg
  refine (apart (i := .enterLocked) rfl).bind fun _ => (masking c ?_).bind fun _ =>
    (apart (i := .leaveLocked) rfl).bind fun _ => .ret fun _ _ hg => hg
  exact (apart_all (GlobalLock.all_construct rfl rfl)).bind fun _ => acquire.bind fun _ =>
    opening.bind fun _ => h.bind fun _ =>
    (closing fun _ hm => hm).bind fun _ => release.bind fun _ => .ret fun _ _ hg => hg

end fencing

/-! ## Every operation -/

open fencing in
/-- **Every operation of a backend keeps its log fenced.** -/
theorem Operates.fenced {b : Backend} (hb : b.fencesApart = true) {a : Addr} {α : Type} {p : Prog α}
    (h : Operates b a p) :
    (fencing b.barrier).Leads (Closed b.barrier) p fun _ => Closed b.barrier := by
  have hcases := Backend.of_fencesApart hb
  induction h with
  | load w =>
    obtain ⟨isa, rfl⟩ | ⟨c, isa, widths, rfl⟩ | ⟨c, base, rfl⟩ := hcases
    · exact fencing.load
    · exact fencing.load
    · exact locked c base readOnly
  | store v =>
    obtain ⟨isa, rfl⟩ | ⟨c, isa, widths, rfl⟩ | ⟨c, base, rfl⟩ := hcases
    · exact fencing.store v
    · exact fencing.store v
    · exact locked c base (write v)
  | exchange v =>
    obtain ⟨isa, rfl⟩ | ⟨c, isa, widths, rfl⟩ | ⟨c, base, rfl⟩ := hcases
    · exact pairExchange v
    · exact bracket (swap isa v)
    · exact locked c base (readWrite fun _ => v)
  | compareExchange expected desired =>
    obtain ⟨isa, rfl⟩ | ⟨c, isa, widths, rfl⟩ | ⟨c, base, rfl⟩ := hcases
    · exact pairCompareExchange expected desired
    · exact masking c (opening.bind fun _ => read.bind fun found =>
        (writeWhen expected desired found).bind fun _ => (closing fun _ hm => hm).bind fun _ =>
          .ret fun _ _ hg => hg)
    · exact locked c base (compareWrite expected desired)
  | addAtOnce hadd v =>
    obtain ⟨isa, rfl⟩ | ⟨c, isa, widths, rfl⟩ | ⟨c, base, rfl⟩ := hcases
    · cases hadd
    · cases hadd
    · exact locked c base (readWrite (· + v))
  | testSetLock v =>
    obtain ⟨isa, rfl⟩ | ⟨c, isa, widths, rfl⟩ | ⟨c, base, rfl⟩ := hcases
    · exact pairExchange v
    · exact bracket (swap isa v)
    · exact maskedSwap c v
  | privilegedStore v =>
    obtain ⟨isa, rfl⟩ | ⟨c, isa, widths, rfl⟩ | ⟨c, base, rfl⟩ := hcases
    · exact fencing.store v
    · exact fencing.store v
    · exact (maskedSwap c v).bind fun _ => .ret fun _ _ hg => hg
  | snapshot => exact fencing.load
  | enterUpdate => exact apart rfl
  | ret r => exact .ret fun _ _ hg => hg
  | bind first next ihfirst ihnext => exact ihfirst.bind ihnext
  | iterate round t ih => exact .iterate_keeps ih t

/-! ## Runs -/

/-- An operation under interference, finished or not: its log begins a fenced one, and is one where
it has answered. -/
theorem Step.log_fenced {st : Step} {b : Backend} {a : Addr} (hb : b.fencesApart = true)
    (hst : st.place? = some (b, a)) (x : Interference) (s : State) (n : Nat) :
    (∃ more, Fenced b.barrier ((Solo.start st.answering s).executed x n ++ more)) ∧
      (((Solo.start st.answering s).run x n).result?.isSome = true →
        Fenced b.barrier ((Solo.start st.answering s).executed x n)) := by
  have hcomplies := (Step.operates hst).fenced hb [] s (Fenced.nil : Fenced b.barrier [])
  have hadmits : (fencing b.barrier).Admits x := fun _ _ => trivial
  obtain ⟨g, ⟨rfl, hmore⟩, hresult⟩ := Always.run hadmits
    (I := fun es g _ => g = es ∧ ∃ more, Fenced b.barrier (g ++ more))
    (fun es i g g' s s' refused hI _ hown => ⟨by rw [hown.1, hI.1], hown.2⟩) n hcomplies
    ⟨rfl, [], .nil⟩
  refine ⟨hmore, fun hanswer => ?_⟩
  obtain ⟨r, hr⟩ := Option.isSome_iff_exists.mp hanswer
  exact hresult r hr

/-- One context performs one step after another, each under an interference of its own and for at
most so many of its own steps: what is executed in each, and whether it has answered. The first that
has not is the last. -/
def logs (s : State) : List (Step × Interference × Nat) → List (List Executed × Bool)
  | [] => []
  | (st, x, n) :: rest =>
    let c := Solo.start st.answering s
    let answered := (c.run x n).result?.isSome
    (c.executed x n, answered) :: if answered then logs (c.run x n).state rest else []

section

variable {b : Backend} (hb : b.fencesApart = true) {steps : List (Step × Interference × Nat)}
  (hsteps : ∀ e ∈ steps, ∃ a, e.1.place? = some (b, a))

include hb hsteps

theorem log_fenced_of_mem (s : State) : ∀ e ∈ logs s steps,
    (∃ more, Fenced b.barrier (e.1 ++ more)) ∧ (e.2 = true → Fenced b.barrier e.1) := by
  induction steps generalizing s with
  | nil => simp [logs]
  | cons step rest ih =>
    obtain ⟨st, x, n⟩ := step
    obtain ⟨a, ha⟩ := hsteps _ List.mem_cons_self
    intro e he
    obtain rfl | he := List.mem_cons.mp he
    · exact Step.log_fenced hb ha x s n
    · split at he
      · exact ih (fun e he => hsteps e (List.mem_cons_of_mem _ he)) _ e he
      · cases he

theorem flatMap_logs_fenced (s : State) :
    ∃ more, Fenced b.barrier ((logs s steps).flatMap Prod.fst ++ more) := by
  induction steps generalizing s with
  | nil => exact ⟨[], .nil⟩
  | cons step rest ih =>
    obtain ⟨st, x, n⟩ := step
    obtain ⟨a, ha⟩ := hsteps _ List.mem_cons_self
    obtain ⟨hmore, hfenced⟩ := Step.log_fenced hb ha x s n
    simp only [logs, List.flatMap_cons]
    split
    · next hanswer =>
      obtain ⟨more, hrest⟩ := ih (fun e he => hsteps e (List.mem_cons_of_mem _ he))
        ((Solo.start st.answering s).run x n).state
      exact ⟨more, by rw [List.append_assoc]; exact (hfenced hanswer).append hrest⟩
    · simpa using hmore

/-- **Every access of every operation stands between two full fences of its own**, in every run of
one context, finished or not. The log of an operation is fenced where it has answered, and begins a
fenced one at any instant before. In the log of the whole run, two accesses without a fence between
them are of one operation on one word. -/
theorem fences_bracket_accesses (s : State) :
    (∀ e ∈ logs s steps,
      (∃ more, Fenced b.barrier (e.1 ++ more)) ∧ (e.2 = true → Fenced b.barrier e.1)) ∧
    ∀ before mid after e f,
      (logs s steps).flatMap Prod.fst = before ++ e :: (mid ++ f :: after) →
      e.1.touches = true → f.1.touches = true → ⟨.fence b.barrier, ()⟩ ∉ mid →
      ∃ w a m, Sole w a m ∧ e :: (mid ++ [f]) <:+: m := by
  refine ⟨log_fenced_of_mem hb hsteps s, fun before mid after e f hl he hf hmid => ?_⟩
  obtain ⟨more, hfenced⟩ := flatMap_logs_fenced hb hsteps s
  have hl' : (logs s steps).flatMap Prod.fst ++ more =
      before ++ e :: (mid ++ f :: (after ++ more)) := by
    simp [hl]
  exact hfenced.separated hl' he hf hmid

end

/-- A bitwise or by exclusive pairs, and a load that is left in the middle. Another value is written
to the word just before it is first stored to, so that the comparison finds it at its second round
and gives its reservation up. The comparison after that stores in its second round. -/
def fetchThenLoad : List (Step × Interference × Nat) :=
  [(.word (.pair .aarch64) (.cell 0) (.fetch .or 5 : WordOp .w32),
      { width := .w32, addr := .cell 0, pokes := [(4, 9)], rejects := [1] }, 80),
    (.word (.pair .aarch64) (.cell 0) (.load : WordOp .w32), .none, 2)]

theorem fetch_then_load_fenced :
    (logs (.start true true) fetchThenLoad).map (fun e => (e.1.length, e.2)) =
      [(17, true), (2, false)] ∧
    ∀ e ∈ logs (.start true true) fetchThenLoad, ∃ more, Fenced (.pair .aarch64) (e.1 ++ more) := by
  have hsteps : ∀ e ∈ fetchThenLoad, ∃ a, e.1.place? = some (.pair .aarch64, a) := by
    intro e he
    simp only [fetchThenLoad, List.mem_cons, List.not_mem_nil, or_false] at he
    obtain rfl | rfl := he
    · exact ⟨.cell 0, rfl⟩
    · exact ⟨.cell 0, rfl⟩
  exact ⟨by decide +kernel, fun e he =>
    ((fences_bracket_accesses (b := .pair .aarch64) rfl hsteps (.start true true)).1 e he).1⟩

end Atomicity
