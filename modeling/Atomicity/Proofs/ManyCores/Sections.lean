import Atomicity.Proofs.ManyCores.Exclusion
import Mathlib.Algebra.BigOperators.Group.Finset.Piecewise
import Mathlib.Data.Fintype.Basic

/-!
# Critical sections

Contexts that run one kind of critical section after another: each takes the lock, reads the data
that it guards, writes the image of what it has read under a function of its own, and frees the lock
(`SpinLock.modify`). The law of such a section (`SpinLock.SectionLaw`) says what it has executed on
the data so far, and that it still holds the lock when it has read and not yet written.

**The sections that have written account for the data** (`Ledger`): there is an order of them in
which each was given what the one before left. It is an invariant of every run (`Ledger.step`,
`Ledger.run`), because nobody else writes between the read and the write of whoever holds the lock.
-/

namespace Atomicity

open Prog ManyCores

variable {t : Scalar} {l : SpinLock t}

namespace SpinLock

/-- What a section has executed on the data that it replaces by its image under `f`: nothing; or it
has read the data, and holds the lock; or it has read the data and written its image. -/
def SectionLaw (l : SpinLock t) (f : Word t.width → Word t.width) (held : Bool)
    (done : List Executed) :
    Prop :=
  done = [] ∨ (held = true ∧ ∃ u, done = [⟨.read t.width l.data, u⟩]) ∨
    ∃ u, done = [⟨.write t.width l.data (f u), ()⟩, ⟨.read t.width l.data, u⟩]

def SectionDone (l : SpinLock t) (f : Word t.width → Word t.width) (done : List Executed) : Prop :=
  ∃ u, done = [⟨.write t.width l.data (f u), ()⟩, ⟨.read t.width l.data, u⟩]

end SpinLock

/-- A critical section takes turns, and reads and writes the data once while it holds the lock. -/
theorem ManyCores.Turns.modify {sharing : Option Controller} (hdata : l.data ≠ l.lock.word)
    (hshare : ∀ c base, l.backend = .globalLock c base → sharing = some c)
    (f : Word t.width → Word t.width) :
    (turnTaking sharing l.lock.word l.data (l.SectionLaw f)).Leads
      (Holding l.lock.word l.data false [] True) (l.modify f) fun _ log _ =>
        (tenure l.lock.word log).holds = false ∧ l.SectionDone f (touched l.data log) := by
  have hnone : ∀ held, l.SectionLaw f held [] := fun _ => .inl rfl
  have hdone : ∀ u held, l.SectionLaw f held
      [⟨.write t.width l.data (f u), ()⟩, ⟨.read t.width l.data, u⟩] :=
        fun u _ => .inr (.inr ⟨u, rfl⟩)
  have hread : ∀ u, l.SectionLaw f true [⟨.read t.width l.data, u⟩] := fun u =>
    .inr (.inl ⟨rfl, u, rfl⟩)
  refine (acquire hdata hnone hshare).bind fun _ => ?_
  refine (access hdata rfl hread).bind fun u => ?_
  refine (access hdata rfl fun _ => hdone u true).bind fun _ => ?_
  refine (release hdata (hdone u) hshare).bind fun _ => .ret fun log s h => ?_
  exact ⟨h.holds, u, h.touched⟩

/-- Something at `d` has been written to. -/
def overwritten (d : Addr) (log : List Executed) : Bool :=
  (touched d log).any fun e => e.1.writes e.2

/-- The requests of one context among those of all. -/
def requestsOf {S : Service} {n : Nat} (k : Fin n) (order : List (Fin n × S.Request)) :
    List S.Request :=
  (order.filter fun e => e.1 = k).map Prod.snd

namespace Context

variable {S : Service}

/-- The requests of a context that have written at `d`, if each writes there before it returns. -/
def written (d : Addr) (c : Context S) : List S.Request :=
  c.answered.map Sigma.fst ++
    if overwritten d c.log then (c.current.map Pending.request).toList else []

theorem written_none (d : Addr) (todo : List S.Request) (answered : List (Answered S)) :
    (⟨none, todo, answered⟩ : Context S).written d = answered.map Sigma.fst :=
  List.append_nil _

theorem written_some (d : Addr) (r : S.Request) (rest : Prog (S.Answer r)) (log : List Executed)
    (todo : List S.Request) (answered : List (Answered S)) :
    (⟨some ⟨r, rest, log⟩, todo, answered⟩ : Context S).written d =
      answered.map Sigma.fst ++ if overwritten d log then [r] else [] :=
  rfl

end Context

namespace ManyCores

variable {S : Service} {n m : Nat} {f : S.Request → Word t.width → Word t.width}
  {init : Word t.width} {x : ManyCores S n} {order : List (Fin n × S.Request)}
  {sharing : Option Controller} {choice : Fin n × Bool}

/-- The data is what the sections that have written to it make of it, in that order. -/
structure Ledger (l : SpinLock t) (f : S.Request → Word t.width → Word t.width)
    (init : Word t.width) (x : ManyCores S n) (order : List (Fin n × S.Request)) : Prop where
  value : x.word t.width l.data = order.foldl (fun v e => f e.2 v) init
  recorded : ∀ k, requestsOf k order = (x.context k).written l.data
  lawful : ∀ k p, (x.context k).current = some p →
    l.SectionLaw (f p.request) (x.holds l.lock.word k) (touched l.data p.log)
  /-- What has been read is not written to until its image is. -/
  fresh : ∀ k u, touched l.data (x.context k).log = [⟨.read t.width l.data, u⟩] →
    u = x.word t.width l.data

/-- What has been executed by a step that executes an instruction. -/
def executed (x : ManyCores S n) (choice : Fin n × Bool) (i : Instr) : Executed :=
  ⟨i, (i.exec choice.2 (x.state choice.1)).1⟩

section

variable {r : S.Request} {i : Instr} {k : i.Reply → Prog (S.Answer r)} {log : List Executed}
  {todo : List S.Request} {answered : List (Answered S)}
  (hc : x.context choice.1 = ⟨some ⟨r, .instr i k, log⟩, todo, answered⟩)

include hc

theorem context_exec : (x.step choice).context choice.1 =
    ⟨some ⟨r, k (executed x choice i).2, executed x choice i :: log⟩, todo, answered⟩ := by
  rw [context_step_self, hc]
  rfl

theorem word_exec {w : Width} {a : Addr} :
    (x.step choice).word w a = (i.exec choice.2 (x.state choice.1)).2.read w a := by
  rw [word_step, hc]
  rfl

end

namespace Ledger

theorem start (shared : Shared) (core : Fin n → Core) (todo : Fin n → List S.Request) :
    Ledger l f (shared.memory.read t.width l.data) (.start shared core todo) [] where
  value := rfl
  recorded _ := rfl
  lawful _ _ h := by cases h
  fresh _ _ h := by cases h

variable {c c' : Context S} {s' : State}

/-- Whoever has read the data and not yet written to it holds the lock. -/
theorem holds_of_read (h : Ledger l f init x order) {k : Fin n} {u : Word t.width}
    (hread : touched l.data (x.context k).log = [⟨.read t.width l.data, u⟩]) :
    x.holds l.lock.word k = true := by
  have hcurrent : ∃ p, (x.context k).current = some p ∧
      touched l.data p.log = [⟨.read t.width l.data, u⟩] := by
    unfold Context.log at hread
    cases hp : (x.context k).current with
    | none => simp [hp, touched] at hread
    | some p => exact ⟨p, rfl, by simpa [hp] using hread⟩
  obtain ⟨p, hp, hdone⟩ := hcurrent
  rcases h.lawful k p hp with hnil | ⟨hheld, -⟩ | ⟨v, hboth⟩
  · rw [hdone] at hnil
    cases hnil
  · exact hheld
  · rw [hdone] at hboth
    cases hboth

/-- A step of one context leaves the other ones within their laws. -/
theorem lawful_step (h : Ledger l f init x order)
    (hlawful : ∀ p, ((x.step choice).context choice.1).current = some p →
      l.SectionLaw (f p.request) ((x.step choice).holds l.lock.word choice.1)
        (touched l.data p.log))
    (k : Fin n) (p : Pending S) (hp : ((x.step choice).context k).current = some p) :
    l.SectionLaw (f p.request) ((x.step choice).holds l.lock.word k) (touched l.data p.log) := by
  by_cases hk : k = choice.1
  · subst hk
    exact hlawful p hp
  · rw [Turning.holds_step_of_ne hk]
    rw [context_step_of_ne hk] at hp
    exact h.lawful k p hp

/-- A step after which the data is what it was, and after which its context has written for the same
requests. -/
theorem stay (h : Ledger l f init x order) (hc : x.context choice.1 = c)
    (hc' : (x.step choice).context choice.1 = c')
    (hword : (x.step choice).word t.width l.data = x.word t.width l.data)
    (hwritten : c'.written l.data = c.written l.data)
    (hlawful : ∀ p, c'.current = some p →
      l.SectionLaw (f p.request) (c'.tenure l.lock.word).holds (touched l.data p.log))
    (hfresh : ∀ u, touched l.data c'.log = [⟨.read t.width l.data, u⟩] →
      u = x.word t.width l.data) :
    Ledger l f init (x.step choice) order := by
  subst hc hc'
  refine ⟨hword.trans h.value, fun k => ?_, fun k p hp => ?_, fun k u hu => ?_⟩
  · by_cases hk : k = choice.1
    · subst hk
      rw [hwritten]
      exact h.recorded _
    · rw [context_step_of_ne hk]
      exact h.recorded k
  · exact h.lawful_step hlawful k p hp
  · rw [hword]
    by_cases hk : k = choice.1
    · subst hk
      exact hfresh u hu
    · rw [context_step_of_ne hk] at hu
      exact h.fresh k u hu

/-- A step that writes the image of the data, which its context has read and which nobody has
written to since. -/
theorem write {r : S.Request} {u : Word t.width} (h : Ledger l f init x order)
    (hunique : ∀ k, x.holds l.lock.word k = true → k = choice.1)
    (hu : u = x.word t.width l.data)
    (hword : (x.step choice).word t.width l.data = f r u)
    (hwritten : ((x.step choice).context choice.1).written l.data =
      (x.context choice.1).written l.data ++ [r])
    (hlawful : ∀ p, ((x.step choice).context choice.1).current = some p →
      l.SectionLaw (f p.request) ((x.step choice).holds l.lock.word choice.1)
        (touched l.data p.log))
    (hfresh : ∀ u, touched l.data ((x.step choice).context choice.1).log ≠
      [⟨.read t.width l.data, u⟩]) :
    Ledger l f init (x.step choice) (order ++ [(choice.1, r)]) := by
  refine ⟨?_, fun k => ?_, fun k p hp => ?_, fun k v hv => ?_⟩
  · rw [hword, hu, h.value, List.foldl_append]
    rfl
  · have happend : requestsOf k (order ++ [(choice.1, r)]) =
        requestsOf k order ++ if choice.1 = k then [r] else [] := by
      by_cases hk : choice.1 = k <;> simp [requestsOf, List.filter_append, hk]
    rw [happend, h.recorded k]
    by_cases hk : k = choice.1
    · subst hk
      rw [if_pos rfl, hwritten]
    · rw [if_neg (Ne.symm hk), List.append_nil, context_step_of_ne hk]
  · exact h.lawful_step hlawful k p hp
  · by_cases hk : k = choice.1
    · subst hk
      exact absurd hv (hfresh v)
    · rw [context_step_of_ne hk] at hv
      exact absurd (hunique k (h.holds_of_read hv)) hk

section

variable {r : S.Request} {i : Instr} {k : i.Reply → Prog (S.Answer r)} {log : List Executed}
  {todo : List S.Request} {answered : List (Answered S)}
  (hc : x.context choice.1 = ⟨some ⟨r, .instr i k, log⟩, todo, answered⟩)

include hc

/-- What is executed at another address does not concern the data. -/
theorem exec_elsewhere (h : Ledger l f init x order) (hd : i.target? ≠ some l.data)
    (hlaw : l.SectionLaw (f r) (tenure l.lock.word (executed x choice i :: log)).holds
      (touched l.data (executed x choice i :: log))) :
    Ledger l f init (x.step choice) order := by
  have hdone : touched l.data (executed x choice i :: log) = touched l.data log :=
    touched_of_target? hd
  have hfresh := h.fresh choice.1
  rw [hc] at hfresh
  refine h.stay hc (context_exec hc) ?_ ?_ (fun p hp => ?_) fun u hu => hfresh u ?_
  · rw [word_exec hc]
    exact Instr.read_of_target? hd _ _ _
  · rw [Context.written_some, Context.written_some, overwritten, overwritten, hdone]
  · cases hp
    exact hlaw
  · exact hdone.symm.trans hu

/-- A section that has read the data has not written for it yet. -/
theorem exec_read (h : Ledger l f init x order) {u : Word t.width}
    (hread : executed x choice i = ⟨.read t.width l.data, u⟩) (hnone : touched l.data log = [])
    (hlaw : l.SectionLaw (f r) (tenure l.lock.word (executed x choice i :: log)).holds
      (touched l.data (executed x choice i :: log))) :
    Ledger l f init (x.step choice) order := by
  obtain ⟨rfl, -⟩ := Sigma.mk.inj hread
  have htouched : touched l.data (executed x choice (.read t.width l.data) :: log) =
      [⟨.read t.width l.data, x.word t.width l.data⟩] := by
    rw [executed, touched_cons rfl, hnone]
    rfl
  refine h.stay hc (context_exec hc) (word_exec hc) ?_ (fun p hp => ?_) fun v hv => ?_
  · rw [Context.written_some, Context.written_some, overwritten, overwritten, htouched, hnone]
    rfl
  · cases hp
    exact hlaw
  · have hv' : touched l.data (executed x choice (.read t.width l.data) :: log) =
        [⟨.read t.width l.data, v⟩] := hv
    rw [htouched] at hv'
    cases hv'
    rfl

/-- A section that writes the image of what it has read is the next one on record. -/
theorem exec_write (h : Ledger l f init x order) {u : Word t.width}
    (hunique : ∀ j, x.holds l.lock.word j = true → j = choice.1)
    (hwrite : executed x choice i = ⟨.write t.width l.data (f r u), ()⟩)
    (hread : touched l.data log = [⟨.read t.width l.data, u⟩])
    (hlaw : l.SectionLaw (f r) (tenure l.lock.word (executed x choice i :: log)).holds
      (touched l.data (executed x choice i :: log))) :
    Ledger l f init (x.step choice) (order ++ [(choice.1, r)]) := by
  obtain ⟨rfl, -⟩ := Sigma.mk.inj hwrite
  have htouched : touched l.data (executed x choice (.write t.width l.data (f r u)) :: log) =
      [⟨.write t.width l.data (f r u), ()⟩, ⟨.read t.width l.data, u⟩] := by
    rw [executed, touched_cons rfl, hread]
  have hfresh := h.fresh choice.1 u
  rw [hc] at hfresh
  have hc' := context_exec hc
  refine h.write hunique (hfresh hread) ?_ ?_ (fun p hp => ?_) fun v hv => ?_
  · rw [word_exec hc]
    exact State.read_write_self _ _ _ _
  · rw [hc', hc, Context.written_some, Context.written_some, overwritten, overwritten,
      htouched, hread]
    exact congrArg (· ++ [r]) (List.append_nil _).symm
  · rw [hc'] at hp
    cases hp
    simp only [holds, hc']
    exact hlaw
  · rw [hc'] at hv
    have hv' : touched l.data (executed x choice (.write t.width l.data (f r u)) :: log) =
        [⟨.read t.width l.data, v⟩] := hv
    rw [htouched] at hv'
    cases hv'

end

/-- **The sections that have written account for the data after every step.** -/
theorem step (h : Ledger l f init x order)
    (ht : Turning sharing l.lock.word l.data (fun r => l.SectionLaw (f r))
      (fun r => l.SectionDone (f r)) (m + 1) x) :
    ∃ order', Ledger l f init (x.step choice) order' := by
  have hturns := ht.turns choice.1
  have hundeceived := ht.undeceived choice.1
  have hlawful := h.lawful choice.1
  have hfresh := h.fresh choice.1
  have hstep := (x.context choice.1).stepped choice.2 (x.state choice.1)
  have hc' : (x.step choice).context choice.1 =
      ((x.context choice.1).step choice.2 (x.state choice.1)).1 := context_step_self
  have hword : (x.step choice).word t.width l.data =
      ((x.context choice.1).step choice.2 (x.state choice.1)).2.read t.width l.data := word_step _ _
  unfold holds at hlawful
  generalize hc : x.context choice.1 = c at hturns hundeceived hlawful hfresh hstep hc' hword
  generalize c.step choice.2 (x.state choice.1) = out at hstep hc' hword
  obtain ⟨c', s'⟩ := out
  cases hstep with
  | idle answered =>
    exact ⟨order, h.stay hc hc' hword rfl (fun p hp => by cases hp) fun u hu => by cases hu⟩
  | start r todo answered =>
    refine ⟨order, h.stay hc hc' hword rfl (fun p hp => ?_) fun u hu => by cases hu⟩
    cases hp
    exact .inl rfl
  | finish r y log todo answered =>
    refine ⟨order, h.stay hc hc' hword ?_ (fun p hp => by cases hp) fun u hu => by cases hu⟩
    obtain ⟨-, u, hu⟩ : _ ∧ l.SectionDone (f r) (touched l.data log) := hturns hundeceived.unbroken
    have hoverwritten : overwritten l.data log = true := by
      rw [overwritten, hu]
      rfl
    rw [Context.written_some, Context.written_none, hoverwritten, List.map_append]
    rfl
  | loop r body y k log todo answered =>
    refine ⟨order, h.stay hc hc' hword rfl (fun p hp => ?_) hfresh⟩
    cases hp
    exact hlawful ⟨r, .loop body y k, log⟩ rfl
  | exec r i k log todo answered =>
    obtain ⟨-, hheld, hlaw, -⟩ := hturns.own hundeceived choice.2
    by_cases hd : i.target? = some l.data
    · have hdone := hlaw
      rw [touched_cons hd] at hdone
      rcases hdone with hnil | ⟨-, u, hread⟩ | ⟨u, hboth⟩
      · cases hnil
      · obtain ⟨hi, hnone⟩ := List.cons.inj hread
        exact ⟨order, h.exec_read hc hi hnone hlaw⟩
      · obtain ⟨hi, hone⟩ := List.cons.inj hboth
        have hunique : ∀ j, x.holds l.lock.word j = true → j = choice.1 := fun j hj => by
          refine ht.consistent.unique j choice.1 hj ?_
          simp only [holds, hc]
          exact hheld hd
        exact ⟨_, h.exec_write hc hunique hi hone hlaw⟩
    · exact ⟨order, h.exec_elsewhere hc hd hlaw⟩

theorem run (serves : S.TakesTurns sharing l.lock.word l.data (fun r => l.SectionLaw (f r))
      fun r => l.SectionDone (f r))
    (choices : List (Fin n × Bool)) (h : Ledger l f init x order)
    (ht : Turning sharing l.lock.word l.data (fun r => l.SectionLaw (f r))
      (fun r => l.SectionDone (f r)) (choices.length + m) x) :
    ∃ order', Ledger l f init (x.runOn sharing choices) order' := by
  induction choices generalizing x order with
  | nil => exact ⟨order, h⟩
  | cons choice choices ih =>
    have ht' : Turning sharing l.lock.word l.data (fun r => l.SectionLaw (f r))
        (fun r => l.SectionDone (f r)) (choices.length + m + 1) x :=
      ht.le (by rw [List.length_cons]; omega)
    obtain ⟨order', h'⟩ : ∃ order', Ledger l f init (x.stepOn sharing choice) order' := by
      unfold ManyCores.stepOn
      split
      · exact h.step ht'
      · exact ⟨order, h⟩
    exact ih h' (Turning.stepOn serves ht' choice)

end Ledger

theorem requests_runOn (choices : List (Fin n × Bool)) (k : Fin n) :
    ((x.runOn sharing choices).context k).requests = (x.context k).requests := by
  induction choices generalizing x with
  | nil => rfl
  | cons choice choices ih =>
    refine ih.trans ?_
    unfold ManyCores.stepOn
    split
    · exact requests_step choice k
    · rfl

theorem sum_length_requestsOf (order : List (Fin n × S.Request)) :
    ∑ k, (requestsOf k order).length = order.length := by
  induction order with
  | nil => simp [requestsOf]
  | cons e order ih =>
    have hcons : ∀ k, (requestsOf k (e :: order)).length =
        (if e.1 = k then 1 else 0) + (requestsOf k order).length := by
      intro k
      by_cases hk : e.1 = k
      · simp [requestsOf, hk, Nat.add_comm]
      · simp [requestsOf, hk]
    simp only [hcons, Finset.sum_add_distrib, Finset.sum_ite_eq, Finset.mem_univ, if_true, ih,
      List.length_cons]
    exact Nat.add_comm _ _

theorem foldl_add_one {β : Type} {w : Width} (v : Word w) (l : List β) :
    l.foldl (fun v _ => v + 1) v = v + BitVec.ofNat w.bits l.length := by
  induction l generalizing v with
  | nil => simp
  | cons e l ih =>
    rw [List.foldl_cons, ih, BitVec.add_assoc, List.length_cons, BitVec.ofNat_add,
      BitVec.add_comm 1]
    rfl

end ManyCores

end Atomicity
