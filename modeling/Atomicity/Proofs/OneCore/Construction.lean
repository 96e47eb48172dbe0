import Atomicity.Proofs.Complying
import Atomicity.Proofs.Leads
import Atomicity.Proofs.Operation
import Atomicity.Proofs.OneCore.World
import Atomicity.Startup

/-!
# Construction of the global lock, interrupted

The global lock is constructed by whoever needs it first, and whoever finds construction under way
waits. An operation masks interrupts before it sees to that, but `Backend.setUp` leaves them as they
are. So a handler may be started in the middle of construction.

While construction is under way, and nobody ends it, every program that needs the lock goes on for
ever (`locked_waits`, `setUp_waits`), and every other operation leaves things as they are.
`Underway` is the invariant of a core where a handler waits like that: it stays above the contexts
that it has interrupted, the one that constructs the lock among them, whatever other handlers come
and go.

**A handler that needs the lock never comes to an end if it interrupts its construction**
(`interrupted_construction_never_ends`), nor does any of the contexts below it go on.
-/

namespace Atomicity

open Prog Discipline

/-- Nobody else ends construction of the global lock, and neither does the program. -/
def constructing : Discipline (List Executed) where
  env _ s s' := s.shared.once = .running → s'.shared.once = .running
  own i x log _ log' s' := log' = ⟨i, x⟩ :: log ∧ s'.shared.once = .running

/-- Construction of the global lock has begun and has not ended. -/
abbrev UnderConstruction (_ : List Executed) (s : State) : Prop := s.shared.once = .running

/-- Nothing but its end ends construction. -/
theorem Instr.once_of_running {i : Instr} (hi : i ≠ .endConstruction) (refused : Bool) {s : State}
    (h : s.shared.once = .running) : (i.exec refused s).2.shared.once = .running := by
  cases i with
  | endConstruction => exact absurd rfl hi
  | lineRestore b => cases b <;> exact h
  | claimCore =>
    simp only [exec]
    split <;> exact h
  | compareSwap w a expected desired =>
    simp only [exec]
    split <;> exact h
  | storeExclusive isa w a v =>
    simp only [exec]
    split <;> exact h
  | startConstruction =>
    simp only [exec, h]
  | _ => exact h

namespace UnderConstruction

variable {α β : Type} {M : α → List Executed → State → Prop}

theorem instr {i : Instr} (hi : i ≠ .endConstruction) (P : i.Reply → Prop)
    (hP : ∀ s refused, s.shared.once = .running → P (i.exec refused s).1) :
    constructing.Leads UnderConstruction (perform i) fun r log s =>
      P r ∧ UnderConstruction log s := by
  refine .instr fun log s s' refused hs henv => ?_
  have hs' := i.once_of_running hi refused (henv hs)
  exact ⟨⟨i, _⟩ :: log, ⟨rfl, hs'⟩, hP s' refused (henv hs), hs'⟩

theorem all {p : Prog α} (hp : p.All (· ≠ .endConstruction)) :
    constructing.Leads UnderConstruction p fun _ => UnderConstruction :=
  .all (fun _ hi => (instr hi (fun _ => True) fun _ _ _ => trivial).mono fun _ _ _ hs => hs.2) hp

/-- What comes after a program that goes on for ever does not matter. -/
theorem waits_bind {p : Prog β} {f : β → Prog α}
    (h : constructing.Leads UnderConstruction p fun _ _ _ => False) :
    constructing.Leads UnderConstruction (p.bind f) M :=
  h.bind fun _ _ _ hs => hs.elim

/-- Whoever finds construction under way waits for it to end. -/
theorem construct_waits (announcement : Prog Unit) :
    constructing.Leads UnderConstruction (GlobalLock.construct announcement)
      fun _ _ _ => False := by
  refine .iterate (I := fun _ => UnderConstruction) (N := fun _ _ _ => False) (fun _ => ?_) ()
  refine (instr (i := .startConstruction) Instr.noConfusion (· = .running)
    fun s _ hs => hs).bind fun status => .given fun hstatus => ?_
  subst hstatus
  exact .ret fun _ _ hs => hs

/-- Whoever needs the lock waits. -/
theorem locked_waits (c : Controller) (base : Backend) (p : Prog α) :
    constructing.Leads UnderConstruction (GlobalLock.locked c base p) fun _ _ _ => False := by
  refine (all (.perform Instr.noConfusion)).bind fun _ => ?_
  have masked := all (Controller.all_disable (P := (· ≠ .endConstruction))
    (fun i hi h => by subst h; cases hi) c)
  exact waits_bind (masked.bind fun _ => waits_bind (waits_bind (construct_waits _)))

end UnderConstruction

/-! ## Operations -/

/-- The operation takes the global lock, if there is one: all do but those on the word of a lock. -/
def Operation.needsLock : Operation → Bool
  | testSetLock .. | privilegedStore .. => false
  | _ => true

namespace UnderConstruction

variable (c : Controller) (base : Backend)

theorem setUp_waits (build : Build) :
    constructing.Leads UnderConstruction ((Backend.globalLock c base).setUp build)
      fun _ _ _ => False :=
  waits_bind (construct_waits _)

theorem operation_waits {o : Operation} (ho : o.needsLock = true) :
    constructing.Leads UnderConstruction (o.prog (.globalLock c base)) fun _ _ _ => False := by
  have update {w : Width} {a : Addr} (f : Word w → Word w) : constructing.Leads UnderConstruction
      ((Backend.globalLock c base).fetchApply w a f) fun _ _ _ => False :=
    waits_bind (waits_bind (locked_waits c base _))
  have fetch {w : Width} {a : Addr} (op : FetchOp) (v : Word w) :
      constructing.Leads UnderConstruction
        ((Backend.globalLock c base).fetch op w a v) fun _ _ _ => False := by
    cases op with
    | add | sub => exact locked_waits c base _
    | and | or | xor => exact update _
  cases o with
  | load w a => exact locked_waits c base _
  | store w a v => exact locked_waits c base _
  | exchange w a v => exact locked_waits c base _
  | compareExchange w a expected desired => exact locked_waits c base _
  | fetch op w a v => exact fetch op v
  | fetchNew op w a v => exact waits_bind (fetch op v)
  | update w a f => exact update f
  | testSetLock a v => cases ho
  | privilegedStore a v => cases ho

theorem maskedSwap (isa : Isa) (a : Addr) (v : Word .w64) :
    constructing.Leads UnderConstruction (Backend.maskedSwap c isa a v) fun _ =>
      UnderConstruction := by
  refine all (Controller.all_masking (fun i hi => ?_) c
    (all_swapping Instr.noConfusion Instr.noConfusion Instr.noConfusion))
  rintro rfl
  cases hi

theorem operation (o : Operation) :
    constructing.Leads UnderConstruction (o.prog (.globalLock c base)) fun _ =>
      UnderConstruction := by
  cases ho : o.needsLock with
  | true => exact (operation_waits c base ho).mono fun _ _ _ hs => hs.elim
  | false =>
    cases o with
    | testSetLock a v => exact maskedSwap c _ a v
    | privilegedStore a v => exact (maskedSwap c _ a v).bind fun _ => .ret fun _ _ hs => hs
    | _ => cases ho

end UnderConstruction

/-- The operations on a backend, and its setup, as the request that is no operation. -/
def Backend.startingUp (build : Build) (b : Backend) : Service where
  Request := Option b.service.Request
  Answer r := r.elim Unit b.service.Answer
  prog
    | none => b.setUp build
    | some o => b.service.prog o

theorem UnderConstruction.serves (c : Controller) (base : Backend) (build : Build)
    (r : ((Backend.globalLock c base).startingUp build).Request) :
    constructing.Leads UnderConstruction (((Backend.globalLock c base).startingUp build).prog r)
      fun _ => UnderConstruction := by
  cases r with
  | none => exact (setUp_waits c base build).mono fun _ _ _ hs => hs.elim
  | some o => exact operation c base o.1

/-! ## Runs -/

namespace OneCore

variable {S : Service} {c : Controller} {n : Nat} {s s' : State}

/-- What is left of a context's request complies for so many steps while construction is under way;
`ends` is to hold if the context ever answers. -/
def Going (ends : Prop) (n : Nat) (k : Context S) (s : State) : Prop :=
  k.Complies (fun _ => constructing) (fun s => ends ∧ s.shared.once = .running)
    (fun _ log s => ends ∧ UnderConstruction log s) n s

/-- The context waits, or is about to. -/
def Waits (n : Nat) (k : Context S) (s : State) : Prop :=
  Going False n k s ∨ k.current = none ∧ ∃ r todo, k.todo = r :: todo ∧
    constructing.Leads UnderConstruction (S.prog r) fun _ _ _ => False

namespace Going

variable {ends : Prop} {k : Context S}

theorem le {m : Nat} (hmn : m ≤ n) (h : Going ends n k s) : Going ends m k s :=
  Context.Complies.le hmn h

theorem drift (hs : s.shared.once = .running → s'.shared.once = .running) (h : Going ends n k s) :
    Going ends n k s' := by
  obtain ⟨current, todo, answered⟩ := k
  cases current with
  | none => exact And.imp_right hs h
  | some p =>
    exact Discipline.Keeps.drift
      (R := fun s s' => s.shared.once = .running → s'.shared.once = .running)
      (fun _ _ _ _ hs he => he ∘ hs) (fun _ _ _ _ hs hq => ⟨hq.1, hs hq.2⟩) hs h

theorem step
    (serves : ∀ r, constructing.Leads UnderConstruction (S.prog r) fun _ => UnderConstruction)
    (h : Going ends (n + 1) k s) (refused : Bool) :
    Going ends n (k.step refused s).1 (k.step refused s).2 :=
  Context.Complies.step (D := fun _ => constructing) (fun _ _ _ => id)
    (fun _ _ _ _ _ _ _ hown => And.left hown)
    (fun r s hs => (serves r [] s (And.right hs)).mono fun _ _ _ hq => ⟨And.left hs, hq⟩)
    (fun _ _ _ hs => hs) h refused

/-- A step of a context does not end construction. -/
theorem once_step (h : Going ends (n + 1) k s) (hs : s.shared.once = .running) (refused : Bool) :
    (k.step refused s).2.shared.once = .running := by
  have hstep := k.stepped refused s
  generalize k.step refused s = out at hstep ⊢
  obtain ⟨k', s'⟩ := out
  cases hstep with
  | idle answered => exact hs
  | start r todo answered => exact hs
  | finish r y log todo answered => exact hs
  | loop r body y f log todo answered => exact hs
  | exec r i f log todo answered =>
    obtain ⟨g, ⟨-, honce⟩, -⟩ :=
      Context.Complies.own (D := fun _ => constructing) (fun h => h) h refused
    exact honce

end Going

namespace Waits

variable {k : Context S}

theorem le {m : Nat} (hmn : m ≤ n) (h : Waits n k s) : Waits m k s :=
  h.imp_left (Going.le hmn)

theorem drift (hs : s.shared.once = .running → s'.shared.once = .running) (h : Waits n k s) :
    Waits n k s' :=
  h.imp_left (Going.drift hs)

theorem not_done (h : Waits n k s) : k.isDone = false := by
  refine Bool.eq_false_iff.mpr fun hdone => ?_
  obtain ⟨hnone, htodo⟩ := Context.isDone_iff.mp hdone
  obtain hgoing | ⟨-, r, todo, hcons, -⟩ := h
  · simp only [Going, Context.Complies, hnone, false_and] at hgoing
  · rw [htodo] at hcons
    cases hcons

theorem step
    (serves : ∀ r, constructing.Leads UnderConstruction (S.prog r) fun _ => UnderConstruction)
    (h : Waits (n + 1) k s) (hs : s.shared.once = .running) (refused : Bool) :
    Waits n (k.step refused s).1 (k.step refused s).2 := by
  obtain hgoing | ⟨hnone, r, todo, hcons, hwaits⟩ := h
  · exact .inl (hgoing.step serves refused)
  · obtain ⟨current, requests, answered⟩ := k
    subst hnone hcons
    exact .inl ((hwaits [] s hs n).mono (fun _ _ _ hq => hq.elim) (Nat.le_refl n))

theorem once_step (h : Waits (n + 1) k s) (hs : s.shared.once = .running) (refused : Bool) :
    (k.step refused s).2.shared.once = .running := by
  obtain hgoing | ⟨hnone, r, todo, hcons, -⟩ := h
  · exact hgoing.once_step hs refused
  · obtain ⟨current, requests, answered⟩ := k
    subst hnone hcons
    exact hs

end Waits

/-- Construction is under way, and just above the contexts `below` is one that waits. -/
structure Underway (below : List (Context S)) (n : Nat) (x : OneCore S) : Prop where
  once : x.state.shared.once = .running
  waits : ∃ above k, x.contexts = above ++ k :: below ∧ Waits n k x.state ∧
    ∀ y ∈ above, Going True n y x.state

namespace Underway

variable {below : List (Context S)} {x : OneCore S}

theorem le {m : Nat} (hmn : m ≤ n) (h : Underway below n x) : Underway below m x := by
  obtain ⟨above, k, hcontexts, hk, habove⟩ := h.waits
  exact ⟨h.once, above, k, hcontexts, hk.le hmn, fun y hy => (habove y hy).le hmn⟩

theorem interrupt (h : Underway below n x) (masked : Bool) (todo : List S.Request) :
    Underway below n (x.interrupt c masked todo) := by
  unfold OneCore.interrupt
  split
  · obtain ⟨above, k, hcontexts, hk, habove⟩ := h.waits
    have honce : (c.putEnabled (!masked) x.state).shared.once = .running :=
      (c.once_putEnabled _ _).trans h.once
    refine ⟨honce, .start todo :: above, k, congrArg _ hcontexts, hk.drift fun _ => honce, ?_⟩
    intro y hy
    rcases List.mem_cons.mp hy with rfl | hy
    · exact ⟨trivial, honce⟩
    · exact (habove y hy).drift fun _ => honce
  · exact h

theorem go
    (serves : ∀ r, constructing.Leads UnderConstruction (S.prog r) fun _ => UnderConstruction)
    (h : Underway below (n + 1) x) (refused : Bool) : Underway below n (x.go c refused) := by
  obtain ⟨above, k, hcontexts, hk, habove⟩ := h.waits
  unfold OneCore.go
  split
  · exact h.le (Nat.le_succ n)
  · next next rest hdone hinterrupted =>
    cases above with
    | nil =>
      obtain ⟨hrunning, -⟩ := List.cons.inj hcontexts
      rw [hrunning, hk.not_done] at hdone
      cases hdone
    | cons y above =>
      obtain ⟨-, hbelow⟩ := List.cons.inj hcontexts
      have honce : (c.putEnabled true x.state).shared.once = .running :=
        (c.once_putEnabled _ _).trans h.once
      refine ⟨honce, above, k, hinterrupted.symm.trans hbelow,
        (hk.le (Nat.le_succ n)).drift fun _ => honce, fun y' hy' => ?_⟩
      exact ((habove y' (List.mem_cons_of_mem y hy')).le (Nat.le_succ n)).drift fun _ => honce
  · cases above with
    | nil =>
      obtain ⟨rfl, hbelow⟩ := List.cons.inj hcontexts
      exact ⟨hk.once_step h.once refused, [], _, congrArg _ hbelow, hk.step serves h.once refused,
        fun y hy => absurd hy List.not_mem_nil⟩
    | cons y above =>
      obtain ⟨rfl, hbelow⟩ := List.cons.inj hcontexts
      have hrun := habove _ List.mem_cons_self
      have honce := hrun.once_step h.once refused
      refine ⟨honce, _ :: above, k, congrArg _ hbelow, (hk.le (Nat.le_succ n)).drift
        fun _ => honce, ?_⟩
      intro y hy
      rcases List.mem_cons.mp hy with rfl | hy
      · exact hrun.step serves refused
      · exact ((habove y (List.mem_cons_of_mem _ hy)).le (Nat.le_succ n)).drift fun _ => honce

/-- **Every step leaves the handler waiting.** -/
theorem step
    (serves : ∀ r, constructing.Leads UnderConstruction (S.prog r) fun _ => UnderConstruction)
    (h : Underway below (n + 1) x) (choice : Choice S) : Underway below n (x.step c choice) := by
  cases choice with
  | go refused => exact h.go serves refused
  | interrupt masked todo => exact (h.le (Nat.le_succ n)).interrupt masked todo

theorem run
    (serves : ∀ r, constructing.Leads UnderConstruction (S.prog r) fun _ => UnderConstruction)
    (choices : List (Choice S)) (h : Underway below (choices.length + n) x) :
    Underway below n (x.run c choices) := by
  induction choices generalizing x with
  | nil => exact h.le (Nat.le_of_eq (Nat.zero_add n).symm)
  | cons choice choices ih =>
    refine ih (step serves (h.le ?_) choice)
    simp only [List.length_cons]
    omega

end Underway

/-- **A handler never ends if it interrupts construction of the global lock and then needs the
lock.** At every instant of every run from there on, construction is under way, the contexts that
were there when the handler was started are as they were, and something is above them. -/
theorem interrupted_construction_never_ends (c : Controller) (base : Backend) (build : Build)
    (x : OneCore ((Backend.globalLock c base).startingUp build))
    (hx : x.state.shared.once = .running)
    (hopen : c.enabled x.state.core = true ∧ x.running.interruptible = true)
    (o : (Backend.globalLock c base).service.Request) (ho : o.1.needsLock = true) (masked : Bool)
    (todo : List (Option (Backend.globalLock c base).service.Request))
    (choices : List (Choice ((Backend.globalLock c base).startingUp build))) :
    let y := (x.interrupt c masked (some o :: todo)).run c choices
    y.state.shared.once = .running ∧ x.contexts <:+ y.contexts ∧ x.depth < y.depth ∧
      y.isDone = false := by
  have hstart (n : Nat) : Underway x.contexts n (x.interrupt c masked (some o :: todo)) := by
    have hboth : (c.enabled x.state.core && x.running.interruptible) = true := by
      rw [hopen.1, hopen.2]
      rfl
    unfold OneCore.interrupt
    rw [if_pos hboth]
    exact ⟨(c.once_putEnabled _ _).trans hx, [], .start (some o :: todo), rfl,
      .inr ⟨rfl, some o, todo, rfl, UnderConstruction.operation_waits c base ho⟩,
      fun y hy => absurd hy List.not_mem_nil⟩
  intro y
  have hy : Underway x.contexts 0 y :=
    .run (UnderConstruction.serves c base build) choices (hstart _)
  obtain ⟨above, k, hcontexts, -⟩ := hy.waits
  have hdepth : x.depth < y.depth := by
    have hlength := congrArg List.length hcontexts
    simp only [contexts, List.length_cons, List.length_append] at hlength
    simp only [depth]
    omega
  refine ⟨hy.once, ⟨above ++ [k], by simp [hcontexts]⟩, hdepth, ?_⟩
  have hne : y.interrupted ≠ [] := List.ne_nil_of_length_pos (Nat.zero_lt_of_lt hdepth)
  simp [isDone, hne]

/-- A read of a word behind a global lock. -/
def guardedRead : (Backend.globalLock .line .native).service.Request :=
  ⟨.load .w64 (.cell 0), by simp [Operation.addr]⟩

/-- The setup of a global lock has begun to construct it, and is about to log that. -/
def aboutToLog : OneCore ((Backend.globalLock .line .native).startingUp .withLogging) :=
  (OneCore.start (.start true true) [none]).run .line [.go false, .go false, .go false]

/-- Interrupts are enabled while the setup constructs the lock, and if a handler reads a word then,
neither of them ever ends, however the run goes on. -/
theorem setUp_interrupted_by_read :
    Controller.line.enabled aboutToLog.state.core = true ∧
      ¬ ∃ choices, ((aboutToLog.interrupt .line false [some guardedRead]).run .line
        choices).isDone = true := by
  refine ⟨by decide, ?_⟩
  rintro ⟨choices, hdone⟩
  obtain ⟨-, -, -, hnever⟩ :=
    interrupted_construction_never_ends .line .native .withLogging aboutToLog
      (by decide) (by decide) guardedRead rfl false [] choices
  exact Bool.false_ne_true (hnever.symm.trans hdone)

end OneCore

end Atomicity
