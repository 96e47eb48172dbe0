import Atomicity.Proofs.Lock.Stores
import Atomicity.Proofs.Setup.Sections
import Atomicity.Startup

/-!
# How often the global lock is constructed

The discipline `counting` counts constructions of the global lock while a context runs alone.
`counting.At` is what is known at an instant: how far construction has come, what has been logged,
and the count, which is one once the lock is constructed and zero before.

A part that leaves the lock alone keeps all of that, and a section under the lock constructs it if
nobody has (`counting.locked`), without logging anything. So a step that is put together of such
parts keeps the count (`counting.sectioned`), and the lock is constructed after a step that begins
with a section (`counting.enters`). **To set a global-lock backend up constructs the lock if nobody
has, and logs what it says about that** (`counting.setUp`).
-/

namespace Atomicity

open Prog Discipline

namespace Build

/-- What a build logs when it is told to. -/
def records (b : Build) (r : Record) : List Record := if b.logging then [r] else []

end Build

/-- The record of the construction of the global lock. -/
def Record.construction : Record := ⟨.debug, "atomics: constructing global atomic lock"⟩

/-- The warning of a global-lock backend. -/
def Record.singleCore : Record :=
  ⟨.warn, "atomics: global atomic lock backend is only correct on a single core"⟩

/-- What setup logs, going by whether it constructs the lock. -/
def Build.setUpRecords (b : Build) (once : OnceStatus) : List Record :=
  (if once = .incomplete then b.records .construction else []) ++ b.records .singleCore

/-- Others do nothing. The ghost counts how often the global lock has been constructed. -/
def counting : Discipline Nat := tallying fun g e => g + if e.1 = .endConstruction then 1 else 0

namespace counting

variable {o : OnceStatus} {log : List Record} {α : Type} {p : Prog α}

/-- Construction has come so far, and that has been logged. -/
structure At (o : OnceStatus) (log : List Record) (g : Nat) (s : State) : Prop where
  once : s.shared.once = o
  log : s.shared.log = log
  count : g = if o = .complete then 1 else 0

/-- The lock is constructed or not, and nobody is at it. -/
def Still (log : List Record) (g : Nat) (s : State) : Prop := ∃ o, o ≠ .running ∧ At o log g s

/-- What records nothing keeps what is known. -/
theorem apart (hp : p.All fun i => i.records = false) :
    counting.Leads (At o log) p fun _ => At o log := by
  refine .all (fun i hi => tallying.instr fun g s refused hs => ?_) hp
  obtain ⟨honce, hlog⟩ := i.recorded_of_not_records hi refused s
  have hi' : i ≠ .endConstruction := by
    rintro rfl
    cases hi
  exact ⟨honce.trans hs.once, hlog.trans hs.log, by rw [if_neg hi', Nat.add_zero, hs.count]⟩

theorem aside (hp : p.All Instr.Aside) : counting.Leads (At o log) p fun _ => At o log :=
  apart (hp.mono fun _ hi => hi.2)

theorem masking {o' : OnceStatus} (c : Controller)
    (h : counting.Leads (At o log) p fun _ => At o' log) :
    counting.Leads (At o log) (c.masking p) fun _ => At o' log :=
  (aside (Controller.aside_disable c)).bind fun b => h.bind fun _ =>
    (aside (Controller.aside_enableIf c b)).bind fun _ => .ret fun _ _ hs => hs

theorem emit (b : Build) (level : Level) (message : String) :
    counting.Leads (At o log) (b.emit level message)
      fun _ => At o (log ++ b.records ⟨level, message⟩) := by
  unfold Build.emit Build.records
  cases b.logging with
  | true =>
    refine tallying.instr fun g s refused hs => ⟨hs.once, ?_, hs.count⟩
    exact congrArg (· ++ [_]) hs.log
  | false =>
    refine .ret fun g s hs => ?_
    rwa [if_neg Bool.false_ne_true, List.append_nil]

/-- Whoever sees to it that the lock is constructed leaves it constructed, and announces what it
constructs. -/
theorem construct {announcement : Prog Unit} {more : List Record} (ho : o ≠ .running)
    (h : counting.Leads (At .running log) announcement fun _ => At .running (log ++ more)) :
    counting.Leads (At o log) (GlobalLock.construct announcement)
      fun _ => At .complete (log ++ if o = .incomplete then more else []) := by
  refine .iterate (I := fun _ => At o log) (fun _ => ?_) ()
  have start : counting.Leads (At o log) (perform .startConstruction) fun status g s =>
      status = o ∧ At (if o = .incomplete then .running else o) log g s := by
    refine tallying.instr fun g s refused hs => ⟨hs.once, ?_⟩
    simp only [Instr.exec]
    cases o with
    | incomplete => exact ⟨by simp [hs.once], by simp [hs.once, hs.log], hs.count⟩
    | complete => exact ⟨by simp [hs.once], by simp [hs.once, hs.log], hs.count⟩
    | running => exact absurd rfl ho
  refine start.bind fun status => .given fun hstatus => ?_
  subst hstatus
  cases status with
  | running => exact absurd rfl ho
  | complete =>
    refine .ret fun g s hs => ?_
    simpa using hs
  | incomplete =>
    have finish : counting.Leads (At .running (log ++ more)) (perform .endConstruction)
        fun _ => At .complete (log ++ more) :=
      tallying.instr fun g s refused hs => ⟨rfl, hs.log, by rw [hs.count]; rfl⟩
    exact h.bind fun _ => finish.bind fun _ => .ret fun _ _ hs => hs

theorem unannounced (ho : o ≠ .running) :
    counting.Leads (At o log) (GlobalLock.construct (.ret ())) fun _ => At .complete log := by
  have silent : counting.Leads (At .running log) (.ret ()) fun _ => At .running (log ++ []) :=
    .ret fun _ _ hs => by rwa [List.append_nil]
  refine (construct ho silent).mono fun _ g s hs => ?_
  rwa [ite_self, List.append_nil] at hs

/-- **A section under the global lock constructs it if nobody has.** -/
theorem locked (ho : o ≠ .running) (c : Controller) (base : Backend) (hp : p.All Instr.Aside) :
    counting.Leads (At o log) (GlobalLock.locked c base p) fun _ => At .complete log := by
  have built : counting.Leads (At o log) (GlobalLock.construct (.ret ())) fun _ =>
      At .complete log := unannounced ho
  have body := built.bind fun _ => apart (GlobalLock.apart_held c base hp)
  refine (apart (.perform rfl)).bind fun _ => ?_
  exact (masking c body).bind fun _ => (apart (.perform rfl)).bind fun _ => .ret fun _ _ hs => hs

/-- **What is put together of sections under the global lock constructs it at most once.** -/
theorem sectioned (h : Sectioned p) : counting.Leads (Still log) p fun _ => Still log := by
  have still :
      ∀ {α : Type} {p : Prog α},
        (∀ o, o ≠ .running → counting.Leads (At o log) p fun _ => Still log) →
      counting.Leads (Still log) p fun _ => Still log := by
    rintro α p h g s ⟨o, ho, hs⟩
    exact h o ho g s hs
  induction h with
  | aside h => exact still fun o ho => (aside h).mono fun _ _ _ hs => ⟨o, ho, hs⟩
  | locked c base h =>
    exact still fun o ho => (locked ho c base h).mono fun _ _ _ hs =>
      ⟨.complete, OnceStatus.noConfusion, hs⟩
  | bind first next ihfirst ihnext => exact ihfirst.bind ihnext
  | iterate round t ih => exact .iterate_keeps ih t

/-- A lock that is constructed is so for good. -/
theorem complete (p : Prog α) :
    counting.Leads (fun _ s => s.shared.once = .complete) p fun _ _ s =>
      s.shared.once = .complete := by
  refine .all (fun i _ => tallying.instr fun g s refused hs => ?_) (All.trivial p)
  cases hi : i.records with
  | false => exact (i.recorded_of_not_records hi refused s).1.trans hs
  | true =>
    cases i with
    | startConstruction => simp [Instr.exec, hs]
    | endConstruction => rfl
    | log r => exact hs
    | _ => cases hi

/-- **After a program that begins with a section the lock is constructed.** -/
theorem enters (h : Enters p) :
    counting.Leads (Still log) p fun _ _ s => s.shared.once = .complete := by
  induction h with
  | locked c base p =>
    rintro g s ⟨o, ho, hs⟩
    have constructs : counting.Leads (At o log) (GlobalLock.locked c base p) fun _ _ s =>
        s.shared.once = .complete := by
      refine (apart (.perform rfl)).bind fun _ =>
        Leads.bind (M := fun _ _ s => s.shared.once = .complete) ?_ fun _ => complete _
      refine (aside (Controller.aside_disable c)).bind fun b =>
        Leads.bind (M := fun _ _ s => s.shared.once = .complete) ?_ fun _ => complete _
      exact (unannounced ho).bind fun _ => (complete _).weaken fun _ _ hs => hs.once
    exact constructs g s hs
  | bind first ih => exact ih.bind fun _ => complete _

/-- **To set a global-lock backend up constructs the lock if nobody has**, and logs what it says of
it. -/
theorem setUp (ho : o ≠ .running) (b : Build) (c : Controller) (base : Backend) :
    counting.Leads (At o log) ((Backend.globalLock c base).setUp b)
      fun _ => At .complete (log ++ b.setUpRecords o) := by
  have announced : counting.Leads (At o log)
      (GlobalLock.construct (b.emit .debug "atomics: constructing global atomic lock"))
      fun _ => At .complete (log ++ if o = .incomplete then b.records .construction else []) :=
    construct ho (emit b _ _)
  refine announced.bind fun _ => (emit b _ _).mono fun _ g s hs => ?_
  rwa [List.append_assoc] at hs

end counting

/-! ## One lock -/

namespace storing

/-- The global lock has been taken. -/
def Taken (g : List Access) (_ : State) : Prop := .stored .w64 .globalLock 1 ∈ g

variable {α : Type}

theorem taken (p : Prog α) : (storing .globalLock).Leads Taken p fun _ => Taken := by
  have grows : ∀ (g : List Access) (e : Executed), .stored .w64 .globalLock 1 ∈ g →
      .stored .w64 .globalLock 1 ∈ g ++ (e.1.accesses e.2).filter (Access.storesTo .globalLock) :=
    fun _ _ hg => List.mem_append_left _ hg
  exact tallying.keeps grows p

theorem anything (p : Prog α) :
    (storing .globalLock).Leads (fun _ _ => True) p fun _ _ _ => True :=
  tallying.keeps (R := fun _ => True) (fun _ _ hg => hg) p

/-- **Every section takes one and the same lock**, whatever backend it belongs to. -/
theorem enters {p : Prog α} (h : Enters p) :
    (storing .globalLock).Leads (fun _ _ => True) p fun _ => Taken := by
  induction h with
  | locked c base p =>
    have write : (storing .globalLock).Leads (fun _ _ => True) (perform (.write .w64 .globalLock 1))
        fun _ => Taken :=
      tallying.instr fun g s refused _ => by simp [Taken, Instr.accesses, Access.storesTo]
    have swap :
        (storing .globalLock).Leads (fun _ _ => True)
          (Backend.maskedSwap c base.barrier .globalLock 1)
        fun _ => Taken := by
      refine (anything _).bind fun b => Leads.bind (M := fun _ => Taken) ?_ fun _ => taken _
      exact (anything _).bind fun _ => (anything _).bind fun _ => write.bind fun _ => taken _
    have acquire :
        (storing .globalLock).Leads (fun _ _ => True) (RawLock.global.acquire (.globalLock c base))
          fun _ => Taken := by
      refine .untilTrue (swap.bind fun r => .ret fun g s hs => ?_)
      split
      · exact hs
      · trivial
    refine (anything _).bind fun _ => Leads.bind (M := fun _ => Taken) ?_ fun _ => taken _
    refine (anything _).bind fun b => Leads.bind (M := fun _ => Taken) ?_ fun _ => taken _
    exact (anything _).bind fun _ => acquire.bind fun _ => taken _
  | bind first ih => exact ih.bind fun _ => taken _

end storing

/-! ## Alone -/

/-- How often a program constructs the global lock while it runs alone. -/
def Prog.constructions {α : Type} (p : Prog α) (s : State) : Nat :=
  (p.executedAlone s).countP fun e => e.1 = .endConstruction

/-- A program that runs alone adds its constructions to the count. -/
theorem counting.result {α : Type} {p : Prog α} {R : Nat → State → Prop}
    {M : α → Nat → State → Prop} (h : counting.Leads R p M) {g : Nat} {s : State} (hs : R g s)
    {r : α} (hr : (p.alone s).result? = some r) :
    M r (g + p.constructions s) (p.alone s).state := by
  have hghost := tallying.result h hs hr
  have hcount : ∀ (es : List Executed) (g : Nat),
      es.foldl (fun g e => g + if e.1 = .endConstruction then 1 else 0) g =
        g + es.countP fun e => e.1 = .endConstruction := by
    intro es
    induction es with
    | nil => simp
    | cons e es ih =>
      intro g
      rw [List.foldl_cons, ih, List.countP_cons]
      simp only [decide_eq_true_eq]
      omega
  rw [hcount] at hghost
  exact hghost

end Atomicity
