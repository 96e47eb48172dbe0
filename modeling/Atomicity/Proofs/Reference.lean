import Atomicity.Proofs.Operation
import Mathlib.Data.List.Nodup
import Mathlib.Logic.Function.Basic

/-!
# Requests done one at a time

The reference that machines are measured against. A `Reference` has a memory and knows of every
context how far its request has come (`Stage`). A request is started, takes effect, and returns,
each at one moment, and the effect is all at once: it answers and changes memory as the service says
that it does (`Reference.Step`). Contexts mix freely, and nothing else ever touches memory.

A history is **linearizable** if it is what can be seen of some run of the reference
(`Linearizable`). The moments at which requests take effect are then their total order: every one of
them lies between the start and the return of its request, because no request takes effect before it
has been started or returns before it has taken effect.

**The effects of a run are a serial execution** (`Run.serially`): one request after another, from
the memory at the start to the memory at the end, with the answers that they return. **Every context
has returned what it has done, in that order** (`Run.effects_of`), but for the request it is in. So
a linearizable history is a serial execution of what has returned in it (`Linearizable.serially`),
and of nothing more if nothing is in progress at its end (`Linearizable.serially_of_quiet`).

What a machine has to show is that the reference goes along with its steps; then it goes along with
its runs (`Extends.run`).
-/

namespace Atomicity

variable {S : Service} {κ : Type}

/-- How far the request of a context has come: what it is, if there is one, and with which answer it
has taken effect, if it has. -/
abbrev Stage (S : Service) : Type := Option ((r : S.Request) × Option (S.Answer r))

/-- What the requests of a service do, each all at once. -/
abbrev Service.Effects (S : Service) : Type := (r : S.Request) → Effect (S.Answer r)

/-- Memory, and how far every context has come. -/
structure Reference (S : Service) (κ : Type) where
  memory : Memory
  stage : κ → Stage S

namespace Reference

def start (m : Memory) : Reference S κ := ⟨m, fun _ => none⟩

variable [DecidableEq κ]

inductive Step (E : S.Effects) : Reference S κ → Moment S κ → Reference S κ → Prop
  | start {x : Reference S κ} {k : κ} (r : S.Request) (h : x.stage k = none) :
    Step E x (.start k r) { x with stage := Function.update x.stage k (some ⟨r, none⟩) }
  | effect {x : Reference S κ} {k : κ} {r : S.Request} (h : x.stage k = some ⟨r, none⟩) :
    Step E x (.effect k r (E r x.memory).1)
      ⟨(E r x.memory).2, Function.update x.stage k (some ⟨r, some (E r x.memory).1⟩)⟩
  | finish {x : Reference S κ} {k : κ} {r : S.Request} {a : S.Answer r}
    (h : x.stage k = some ⟨r, some a⟩) :
    Step E x (.finish k r a) { x with stage := Function.update x.stage k none }

/-- Some moments, one after another. -/
inductive Run (E : S.Effects) : Reference S κ → List (Moment S κ) → Reference S κ → Prop
  | nil (x : Reference S κ) : Run E x [] x
  | snoc {x y z : Reference S κ} {ms : List (Moment S κ)} {m : Moment S κ} (h : Run E x ms y)
    (step : Step E y m z) : Run E x (ms ++ [m]) z

variable {E : S.Effects} {x y z : Reference S κ} {ms : List (Moment S κ)}

theorem Run.one {m : Moment S κ} (step : Step E x m y) : Run E x [m] y := .snoc (.nil x) step

theorem Run.append {ns : List (Moment S κ)} (h : Run E x ms y) (h' : Run E y ns z) :
    Run E x (ms ++ ns) z := by
  induction h' with
  | nil => simpa using h
  | snoc _ step ih =>
    rw [← List.append_assoc]
    exact .snoc ih step

/-- The reference goes from one to another, and what can be seen of that is what a history grows
by. -/
def Extends (E : S.Effects) (x y : Reference S κ) (old new : List (Moment S κ)) : Prop :=
  ∃ moments, Run E x moments y ∧ new = old ++ moments.filter Moment.visible

theorem Extends.refl (x : Reference S κ) (old : List (Moment S κ)) : Extends E x x old old :=
  ⟨[], .nil x, (List.append_nil old).symm⟩

theorem Extends.trans {old mid new : List (Moment S κ)} (h : Extends E x y old mid)
    (h' : Extends E y z mid new) : Extends E x z old new := by
  obtain ⟨ms, hrun, rfl⟩ := h
  obtain ⟨ns, hrun', rfl⟩ := h'
  exact ⟨ms ++ ns, hrun.append hrun', by rw [List.filter_append, List.append_assoc]⟩

/-- **A machine whose steps the reference goes along with has runs that it goes along with.** What
the steps preserve is for so many more of them, and a run uses up as many as it has. -/
theorem Extends.run {σ χ : Type _} (step : σ → χ → σ) (history : σ → List (Moment S κ))
    (Inv : Nat → σ → Reference S κ → Prop)
    (hstep : ∀ n s x, Inv (n + 1) s x → ∀ c, ∃ y,
      Extends E x y (history s) (history (step s c)) ∧ Inv n (step s c) y)
    (choices : List χ) {n : Nat} {s : σ} {x : Reference S κ} (h : Inv (choices.length + n) s x) :
    ∃ y, Extends E x y (history s) (history (choices.foldl step s)) ∧
      Inv n (choices.foldl step s) y := by
  induction choices generalizing s x with
  | nil =>
    rw [List.length_nil, Nat.zero_add] at h
    exact ⟨x, .refl x _, h⟩
  | cons c choices ih =>
    rw [List.length_cons, Nat.succ_add] at h
    obtain ⟨y, hext, hy⟩ := hstep _ s x h c
    obtain ⟨z, hext', hz⟩ := ih hy
    exact ⟨z, hext.trans hext', hz⟩

end Reference

/-! ## What a run amounts to -/

/-- Requests done one after another, from a memory to a memory, with the answers given. -/
def Serially (E : S.Effects) : Memory → List (Answered S) → Memory → Prop
  | m, [], m' => m' = m
  | m, ⟨r, a⟩ :: done, m' => a = (E r m).1 ∧ Serially E (E r m).2 done m'

/-- The request of a stage that has taken effect and not returned. -/
def Stage.served : Stage S → List (Answered S)
  | some ⟨r, some a⟩ => [⟨r, a⟩]
  | _ => []

theorem Serially.snoc {E : S.Effects} {m m' : Memory} {done : List (Answered S)} (r : S.Request)
    (h : Serially E m done m') : Serially E m (done ++ [⟨r, (E r m').1⟩]) (E r m').2 := by
  induction done generalizing m with
  | nil =>
    cases h
    exact ⟨rfl, rfl⟩
  | cons e done ih => exact ⟨h.1, ih h.2⟩

/-- Where a serial execution is split, there is a memory in between. -/
theorem Serially.split {E : S.Effects} {m m' : Memory} {done more : List (Answered S)}
    (h : Serially E m (done ++ more) m') :
    ∃ mid, Serially E m done mid ∧ Serially E mid more m' := by
  induction done generalizing m with
  | nil => exact ⟨m, rfl, h⟩
  | cons e done ih =>
    obtain ⟨mid, hdone, hmore⟩ := ih h.2
    exact ⟨mid, ⟨h.1, hdone⟩, hmore⟩

namespace Reference

variable [DecidableEq κ] {E : S.Effects} {x y : Reference S κ} {ms : List (Moment S κ)}

/-- **The effects of a run are a serial execution.** -/
theorem Run.serially (h : Run E x ms y) :
    Serially E x.memory ((ms.filterMap Moment.effect?).map Prod.snd) y.memory := by
  induction h with
  | nil => rfl
  | snoc _ step ih =>
    rw [List.filterMap_append, List.map_append]
    cases step with
    | start r h => simpa [Moment.effect?, List.filterMap_cons] using ih
    | finish h => simpa [Moment.effect?, List.filterMap_cons] using ih
    | @effect _ r h => exact ih.snoc r

/-- **Every context has returned what it has done**, in the order in which it took effect, but for
the request that it is in. -/
theorem Run.effects_of {m : Memory} (h : Run E (start m) ms y) (k : κ) :
    recordOf k (ms.filterMap Moment.effect?) =
      recordOf k (ms.filterMap Moment.finish?) ++ (y.stage k).served := by
  induction h with
  | nil => rfl
  | snoc _ step ih =>
    simp only [List.filterMap_append, recordOf, List.filter_append, List.map_append] at ih ⊢
    rw [ih]
    cases step with
    | @start j r h =>
      by_cases hk : k = j
      · subst hk
        simp [Moment.effect?, Moment.finish?, List.filterMap_cons, Stage.served, h]
      · simp [Moment.effect?, Moment.finish?, List.filterMap_cons, Function.update_of_ne hk]
    | @effect j r h =>
      by_cases hk : k = j
      · subst hk
        simp [Moment.effect?, Moment.finish?, List.filterMap_cons, Stage.served, h]
      · simp [Moment.effect?, Moment.finish?, List.filterMap_cons,
          Function.update_of_ne hk, Ne.symm hk]
    | @finish j r a h =>
      by_cases hk : k = j
      · subst hk
        simp [Moment.effect?, Moment.finish?, List.filterMap_cons, Stage.served, h]
      · simp [Moment.effect?, Moment.finish?, List.filterMap_cons,
          Function.update_of_ne hk, Ne.symm hk]

end Reference

/-- A context has a request in progress after a moment, if it had one before. -/
def Moment.inProgress [DecidableEq κ] (k : κ) (before : Bool) : Moment S κ → Bool
  | start j _ => before || j = k
  | effect .. => before
  | finish j _ _ => before && j ≠ k

/-- A context has a request in progress at the end of a history. -/
def inProgress [DecidableEq κ] (k : κ) (history : List (Moment S κ)) : Bool :=
  history.foldl (Moment.inProgress k) false

/-- Of a context it can be seen whether it has a request in progress. -/
theorem Reference.Run.isSome_stage [DecidableEq κ] {E : S.Effects} {m : Memory} {y : Reference S κ}
    {ms : List (Moment S κ)} (h : Reference.Run E (.start m) ms y) (k : κ) :
    (y.stage k).isSome = inProgress k (ms.filter Moment.visible) := by
  induction h with
  | nil => rfl
  | @snoc y z ms m _ step ih =>
    rw [List.filter_append, inProgress, List.foldl_append, ← inProgress, ← ih]
    cases step with
    | @start j r h =>
      show (Function.update y.stage j (some ⟨r, none⟩) k).isSome =
          ((y.stage k).isSome || decide (j = k))
      by_cases hk : k = j
      · subst hk
        simp
      · rw [Function.update_of_ne hk, decide_eq_false (Ne.symm hk), Bool.or_false]
    | @effect j r h =>
      show (Function.update y.stage j _ k).isSome = (y.stage k).isSome
      by_cases hk : k = j
      · subst hk
        rw [Function.update_self, h]
        rfl
      · rw [Function.update_of_ne hk]
    | @finish j r a h =>
      show (Function.update y.stage j none k).isSome = ((y.stage k).isSome && decide (j ≠ k))
      by_cases hk : k = j
      · subst hk
        simp
      · rw [Function.update_of_ne hk, decide_eq_true (Ne.symm hk), Bool.and_true]

/-- What has returned can be seen. -/
theorem finishes_of_visible (ms : List (Moment S κ)) :
    (ms.filter Moment.visible).filterMap Moment.finish? = ms.filterMap Moment.finish? := by
  induction ms with
  | nil => rfl
  | cons m ms ih =>
    cases m <;>
      simpa [Moment.visible, Moment.finish?, List.filterMap_cons, List.filter_cons] using ih

/-! ## What is on record -/

section

variable [DecidableEq κ] {l : List (κ × Answered S)}

theorem mem_recordOf {k : κ} {e : Answered S} (h : (k, e) ∈ l) : e ∈ recordOf k l :=
  List.mem_map.mpr ⟨(k, e), List.mem_filter.mpr ⟨h, decide_eq_true rfl⟩, rfl⟩

theorem recordOf_cons (k : κ) (e : κ × Answered S) :
    recordOf k (e :: l) = if e.1 = k then e.2 :: recordOf k l else recordOf k l := by
  by_cases h : e.1 = k <;> simp [recordOf, h]

/-- One more for one of several lists. -/
theorem flatMap_cons_perm {β : Type} {ks : List κ} (hks : ks.Nodup) {j : κ} (hj : j ∈ ks) (e : β)
    (g : κ → List β) :
    (ks.flatMap fun k => if j = k then e :: g k else g k).Perm (e :: ks.flatMap g) := by
  induction ks with
  | nil => cases hj
  | cons k ks ih =>
    obtain ⟨hk, hks⟩ := List.nodup_cons.mp hks
    rw [List.flatMap_cons, List.flatMap_cons]
    by_cases hjk : j = k
    · subst hjk
      have hrest : (ks.flatMap fun k => if j = k then e :: g k else g k) = ks.flatMap g := by
        refine List.flatMap_congr fun i hmem => if_neg fun h => hk ?_
        exact h ▸ hmem
      rw [hrest, if_pos rfl]
      exact List.Perm.refl _
    · rw [if_neg hjk]
      have hmem : j ∈ ks := (List.mem_cons.mp hj).resolve_left hjk
      exact ((ih hks hmem).append_left (g k)).trans List.perm_middle

/-- What is on record of all contexts is on record of one of them each. -/
theorem flatMap_recordOf_perm {ks : List κ} (hks : ks.Nodup) (hall : ∀ k, k ∈ ks)
    (l : List (κ × Answered S)) : (ks.flatMap fun k => recordOf k l).Perm (l.map Prod.snd) := by
  induction l with
  | nil => simp [recordOf]
  | cons e l ih =>
    simp only [recordOf_cons, List.map_cons]
    exact (flatMap_cons_perm hks (hall e.1) e.2 fun k => recordOf k l).trans (ih.cons e.2)

end

/-! ## Linearizability -/

/-- A history, from one memory to another, is what can be seen of a run of the reference. -/
def Linearizable [DecidableEq κ] (E : S.Effects) (before : Memory) (history : List (Moment S κ))
    (after : Memory) : Prop :=
  ∃ moments x, Reference.Run E (.start before) moments x ∧
    moments.filter Moment.visible = history ∧ x.memory = after

/-- **What is linearizable is a serial execution**, of everything that has returned and of at most
one more request of every context, with those of every context in the order in which it made
them. -/
theorem Linearizable.serially [DecidableEq κ] {E : S.Effects} {before after : Memory}
    {history : List (Moment S κ)} (h : Linearizable E before history after) :
    ∃ order : List (κ × Answered S), Serially E before (order.map Prod.snd) after ∧
      ∀ k, ∃ late, late.length ≤ 1 ∧
        recordOf k order = recordOf k (history.filterMap Moment.finish?) ++ late := by
  obtain ⟨moments, x, hrun, rfl, rfl⟩ := h
  refine ⟨moments.filterMap Moment.effect?, hrun.serially, fun k => ⟨(x.stage k).served, ?_, ?_⟩⟩
  · unfold Stage.served
    split <;> simp
  · rw [finishes_of_visible]
    exact hrun.effects_of k

/-- **What is linearizable with nothing in progress is a serial execution** of what has returned. -/
theorem Linearizable.serially_of_quiet [DecidableEq κ] {E : S.Effects} {before after : Memory}
    {history : List (Moment S κ)} (h : Linearizable E before history after)
    (hquiet : ∀ k, inProgress k history = false) :
    ∃ order : List (κ × Answered S), Serially E before (order.map Prod.snd) after ∧
      ∀ k, recordOf k order = recordOf k (history.filterMap Moment.finish?) := by
  obtain ⟨moments, x, hrun, rfl, rfl⟩ := h
  refine ⟨moments.filterMap Moment.effect?, hrun.serially, fun k => ?_⟩
  have hstage : x.stage k = none := by
    have hsome := (hrun.isSome_stage k).trans (hquiet k)
    rwa [Option.isSome_eq_false_iff, Option.isNone_iff_eq_none] at hsome
  rw [finishes_of_visible, hrun.effects_of k, hstage]
  exact List.append_nil _

end Atomicity
