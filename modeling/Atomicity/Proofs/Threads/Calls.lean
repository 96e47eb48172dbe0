import Atomicity.Interrupts
import Atomicity.Proofs.ManyCores.Machine

/-!
# Calls on a simulated core

Threads that call `disable` and `enableIf` of the hosted controller, in any order that gives back
what was answered: the last answer first. The threads take turns at single accesses to the owner
flag and to their own masks, and a claim may fail without a reason.

Where a thread is in its calls (`Place`) says what its mask is and whether it holds the core, which
is that of its claims and releases the last was a claim (`holdsCore`). The two differ at two places:
between the claim and the mask, and between the mask taken back and the release. **At most one
thread holds the core, and it is owned if and only if one does** (`OneHolder`), because a claim
succeeds only if nobody owns it.

So **the controller models one core** (`hosted_interrupts_model_one_core`).
-/

namespace Atomicity.Threads.Calls

open Prog ManyCores

/-! ## Calls -/

/-- A call of an interrupt controller. -/
inductive MaskCall where
  | disable
  | enableIf (wasEnabled : Bool)
  deriving DecidableEq

namespace MaskCall

abbrev Answer : MaskCall → Type
  | disable => Bool
  | enableIf _ => Unit

def prog : (r : MaskCall) → Prog r.Answer
  | disable => Controller.hosted.disable
  | enableIf b => Controller.hosted.enableIf b

end MaskCall

/-- Contexts that call the controller, and nothing else. -/
abbrev masking : Service where
  Request := MaskCall
  Answer := MaskCall.Answer
  prog := MaskCall.prog

/-- The answers of the calls of `disable` that are still to be given back, last one first, after one
more call. There are none if the call has given back another answer than the last. -/
def note : Answered masking → List Bool → Option (List Bool)
  | ⟨.disable, (b : Bool)⟩, held => some (b :: held)
  | ⟨.enableIf b, _⟩, last :: held => if b = last then some held else none
  | ⟨.enableIf _, _⟩, [] => none

/-- The answers still to be given back after these calls, last one first. -/
def toGiveBack (calls : List (Answered masking)) : Option (List Bool) :=
  calls.foldl (fun held call => held.bind (note call)) (some [])

/-- The calls of a context give back what was answered, the last answer first. -/
def LastInFirstOut (c : Context masking) : Prop :=
  ∃ held ∈ toGiveBack c.answered,
    ∀ p ∈ c.current, ∀ b, p.request = MaskCall.enableIf b → held.head? = some b

instance (c : Context masking) : Decidable (LastInFirstOut c) :=
  inferInstanceAs (Decidable (∃ held ∈ toGiveBack c.answered,
    ∀ p ∈ c.current, ∀ b, p.request = MaskCall.enableIf b → held.head? = some b))

theorem toGiveBack_append (calls : List (Answered masking)) (call : Answered masking) :
    toGiveBack (calls ++ [call]) = (toGiveBack calls).bind (note call) :=
  List.foldl_append

/-! ## Who holds the core -/

/-- Whether the instruction claims the simulated core or gives it up, if it does either. -/
def owns? : Executed → Option Bool
  | ⟨.claimCore, true⟩ => some true
  | ⟨.disownCore, _⟩ => some false
  | _ => none

/-- Of the claims and the releases that have been executed, the last is a claim. -/
def holdsCore (es : List Executed) : Bool := (es.filterMap owns?).getLastD false

theorem holdsCore_append (es : List Executed) (e : Executed) :
    holdsCore (es ++ [e]) = (owns? e).getD (holdsCore es) := by
  unfold holdsCore
  rw [List.filterMap_append]
  cases h : owns? e with
  | none => simp [h]
  | some b => simp [h]

/-! ## Where a thread is in its calls -/

/-- What is left of `disable` once the core has been claimed. -/
def noteMasked : Prog Bool := .instr (.setMasked true) fun _ => .ret true

/-- One claim, which is repeated if it does not succeed. -/
def claim (_ : Unit) : Prog (Unit ⊕ Unit) :=
  (perform .claimCore).bind fun ok => .ret (if ok then .inr () else .inl ())

/-- What is left of `disable` where the context is not masked: claims until one succeeds. -/
def claimLoop : Prog Bool := .loop claim () fun _ => noteMasked

/-- What is left of `disable` where the next claim is about to be made. -/
def claimOnce : Prog Bool := .unroll claim () fun _ => noteMasked

theorem claimOnce_eq :
    claimOnce = .instr .claimCore fun ok => if ok then noteMasked else claimLoop := by
  refine congrArg (Prog.instr .claimCore) (funext fun ok => ?_)
  cases ok <;> rfl

theorem disable_eq : MaskCall.prog .disable =
    .instr .isMasked fun masked => if masked then .ret false else claimLoop := by
  refine congrArg (Prog.instr .isMasked) (funext fun masked => ?_)
  cases masked <;> rfl

/-- Answers to give back are those of calls of `disable` nested in one another: the outermost has
found interrupts enabled, and the others have not. -/
def Nested (held : List Bool) : Prop :=
  held = [] ∨ ∃ depth, held = List.replicate depth false ++ [true]

/-- There are answers to give back. -/
def inside (held : List Bool) : Bool := !held.isEmpty

/-- A nested call of `disable`, which has found the mask set and is about to answer. -/
def foundMasked : Pending masking := ⟨.disable, .ret false, [⟨.isMasked, true⟩]⟩

/-- Where a thread is in its calls, with answers to give back: whether its mask is set there, and
whether it holds the core. -/
inductive Place : List Bool → Option (Pending masking) → (masked holds : Bool) → Prop
  | between (held : List Bool) : Place held none (inside held) (inside held)
  | entering (held : List Bool) :
      Place held (some (.start MaskCall.disable)) (inside held) (inside held)
  | nested {held : List Bool} (h : held ≠ []) : Place held (some foundMasked) true true
  | claiming (log : List Executed) : Place [] (some ⟨.disable, claimLoop, log⟩) false false
  | trying (log : List Executed) : Place [] (some ⟨.disable, claimOnce, log⟩) false false
  | claimed (log : List Executed) : Place [] (some ⟨.disable, noteMasked, log⟩) false true
  | noted (log : List Executed) : Place [] (some ⟨.disable, .ret true, log⟩) true true
  | keeping (held : List Bool) :
      Place (false :: held) (some ⟨.enableIf false, .ret (), []⟩) true true
  | leaving (log : List Executed) :
      Place [true] (some ⟨.enableIf true, MaskCall.prog (.enableIf true), log⟩) true true
  | releasing (log : List Executed) :
      Place [true] (some ⟨.enableIf true, .instr .disownCore .ret, log⟩) false true
  | released (log : List Executed) : Place [true] (some ⟨.enableIf true, .ret (), log⟩) false false

/-- What the step of a thread does to who owns the core: nothing, or it takes the core that nobody
owns, or it gives up the core that it holds. -/
inductive Turn (owned holds : Bool) : (owned' holds' : Bool) → Prop
  | still : Turn owned holds owned holds
  | takes (h : owned = false) : Turn owned holds true true
  | leaves (h : holds = true) : Turn owned holds false false

theorem Nested.eq_singleton {held : List Bool} (h : Nested (true :: held)) : held = [] := by
  rcases h with h | ⟨depth, h⟩
  · cases h
  · cases depth with
    | zero => exact (List.cons.inj h).2
    | succ depth => cases (List.cons.inj h).1

theorem Nested.tail {held : List Bool} (h : Nested (false :: held)) :
    Nested held ∧ inside held = true := by
  rcases h with h | ⟨depth, h⟩
  · cases h
  · cases depth with
    | zero => cases (List.cons.inj h).1
    | succ depth =>
      obtain rfl := (List.cons.inj h).2
      refine ⟨.inr ⟨depth, rfl⟩, ?_⟩
      cases depth <;> rfl

theorem Nested.cons {held : List Bool} (h : Nested held) (hne : held ≠ []) :
    Nested (false :: held) := by
  obtain ⟨depth, rfl⟩ := h.resolve_left hne
  exact .inr ⟨depth + 1, rfl⟩

theorem nested_singleton : Nested [true] := .inr ⟨0, rfl⟩

/-- A call is begun where the answer that it gives back is the last one. -/
theorem Place.start {held : List Bool} (hnested : Nested held) (r : MaskCall)
    (hlifo : ∀ b, r = .enableIf b → held.head? = some b) :
    Place held (some (.start r)) (inside held) (inside held) := by
  cases r with
  | disable => exact .entering held
  | enableIf b =>
    cases held with
    | nil => cases hlifo b rfl
    | cons last held =>
      obtain rfl : last = b := Option.some.inj (hlifo b rfl)
      cases last with
      | false => exact .keeping held
      | true =>
        obtain rfl := hnested.eq_singleton
        exact .leaving []

theorem result?_start_disable :
    (Pending.start (S := masking) MaskCall.disable).rest.result? = none :=
  congrArg Prog.result? disable_eq

theorem step_start_disable (refused : Bool) (s : State) :
    Pending.step (S := masking) refused s (.start MaskCall.disable) =
      (⟨MaskCall.disable, if s.core.masked then .ret false else claimLoop,
        [⟨.isMasked, s.core.masked⟩]⟩, s) := by
  simp only [Pending.step, Pending.start, disable_eq]
  rfl

/-- A call that has not come to its answer goes on. -/
theorem Place.exec {held : List Bool} {p : Pending masking} {s : State} {es : List Executed}
    (refused : Bool) (h : Place held (some p) s.core.masked (holdsCore es))
    (hp : p.rest.result? = none) :
    Place held (some (p.step refused s).1) (p.step refused s).2.core.masked
        (holdsCore (es ++ p.executes refused s)) ∧
      Turn s.shared.coreOwned (holdsCore es) (p.step refused s).2.shared.coreOwned
        (holdsCore (es ++ p.executes refused s)) := by
  generalize hmasked : s.core.masked = masked at h
  generalize hholds : holdsCore es = holds at h
  cases h with
  | entering =>
    have hexec : Pending.executes (S := masking) refused s (.start MaskCall.disable) =
        [⟨.isMasked, s.core.masked⟩] := rfl
    rw [step_start_disable, hexec, holdsCore_append, hmasked]
    simp only [owns?, Option.getD_none, hholds]
    refine ⟨?_, .still⟩
    cases held with
    | nil => exact .claiming _
    | cons b held => exact .nested (List.cons_ne_nil b held)
  | claiming log =>
    have hexec : Pending.executes (S := masking) refused s ⟨.disable, claimLoop, log⟩ = [] := rfl
    rw [hexec, List.append_nil, hholds]
    exact ⟨hmasked ▸ .trying log, .still⟩
  | trying log =>
    have hstep : ∀ ok s', Instr.claimCore.exec refused s = (ok, s') →
        Pending.step (S := masking) refused s ⟨MaskCall.disable, claimOnce, log⟩ =
          (⟨MaskCall.disable, if ok then noteMasked else claimLoop, ⟨.claimCore, ok⟩ :: log⟩, s') ∧
        Pending.executes (S := masking) refused s ⟨.disable, claimOnce, log⟩ =
          [⟨.claimCore, ok⟩] := by
      intro ok s' hexec
      constructor
      · simp only [Pending.step, claimOnce_eq, hexec]
      · show [(⟨.claimCore, (Instr.claimCore.exec refused s).1⟩ : Executed)] = _
        rw [hexec]
    by_cases hfree : s.shared.coreOwned = false ∧ refused = false
    · obtain ⟨hstep, hexec⟩ := hstep true _ (if_pos hfree)
      rw [hstep, hexec, holdsCore_append]
      exact ⟨hmasked ▸ .claimed _, .takes hfree.1⟩
    · obtain ⟨hstep, hexec⟩ := hstep false s (if_neg hfree)
      rw [hstep, hexec, holdsCore_append]
      simp only [owns?, Option.getD_none, hholds, hmasked]
      exact ⟨.claiming _, .still⟩
  | claimed log =>
    have hexec : Pending.executes (S := masking) refused s ⟨.disable, noteMasked, log⟩ =
        [⟨.setMasked true, ()⟩] := rfl
    rw [hexec, holdsCore_append]
    simp only [owns?, Option.getD_none, hholds]
    exact ⟨.noted _, .still⟩
  | leaving log =>
    have hexec : Pending.executes (S := masking) refused s
        ⟨.enableIf true, MaskCall.prog (.enableIf true), log⟩ = [⟨.setMasked false, ()⟩] := rfl
    rw [hexec, holdsCore_append]
    simp only [owns?, Option.getD_none, hholds]
    exact ⟨.releasing _, .still⟩
  | releasing log =>
    have hexec :
        Pending.executes (S := masking) refused s ⟨.enableIf true, .instr .disownCore .ret, log⟩ =
        [⟨.disownCore, ()⟩] := rfl
    rw [hexec, holdsCore_append]
    simp only [owns?, Option.getD_some]
    exact ⟨hmasked ▸ .released _, .leaves rfl⟩
  | _ => cases hp

/-- Between two calls a thread is masked and holds the core if it has answers to give back. -/
theorem Place.of_none {held : List Bool} {masked holds : Bool} (h : Place held none masked holds) :
    masked = inside held ∧ holds = inside held := by
  cases h
  exact ⟨rfl, rfl⟩

/-- A call that has come to its answer is noted, and the thread is between two calls. -/
theorem Place.answer {held : List Bool} {p : Pending masking} {masked holds : Bool}
    (h : Place held (some p) masked holds) (hnested : Nested held) {a : masking.Answer p.request}
    (ha : p.rest.result? = some a) :
    ∃ held', note ⟨p.request, a⟩ held = some held' ∧ Nested held' ∧
      Place held' none masked holds := by
  cases h with
  | entering =>
    rw [result?_start_disable] at ha
    cases ha
  | nested hne =>
    cases ha
    exact ⟨_, rfl, hnested.cons hne, .between _⟩
  | noted log =>
    cases ha
    exact ⟨_, rfl, nested_singleton, .between _⟩
  | keeping held =>
    cases ha
    obtain ⟨hrest, hinside⟩ := hnested.tail
    exact ⟨held, rfl, hrest, hinside ▸ .between held⟩
  | released log =>
    cases ha
    exact ⟨[], rfl, .inl rfl, .between []⟩
  | _ => cases ha

/-- A nested call of `disable` is at its beginning, where it finds the mask set, or has found it
set. -/
theorem Place.of_disable {held : List Bool} {p : Pending masking} {masked holds : Bool}
    (h : Place held (some p) masked holds) (hne : held ≠ []) (hp : p.request = MaskCall.disable) :
    p = .start MaskCall.disable ∧ masked = true ∨ p = foundMasked := by
  cases h with
  | entering =>
    refine .inl ⟨rfl, ?_⟩
    cases held with
    | nil => exact absurd rfl hne
    | cons b held => rfl
  | nested hne => exact .inr rfl
  | keeping held => cases hp
  | leaving log => cases hp
  | releasing log => cases hp
  | released log => cases hp
  | _ => exact absurd rfl hne

/-- A call of `enableIf` with `false` has nothing to execute. -/
theorem Place.of_enableIf {held : List Bool} {p : Pending masking} {masked holds : Bool}
    (h : Place held (some p) masked holds) (hp : p.request = MaskCall.enableIf false) :
    p = ⟨MaskCall.enableIf false, .ret (), []⟩ := by
  cases h with
  | keeping held => rfl
  | _ => cases hp

/-- Whoever is masked holds the core. -/
theorem Place.holds_of_masked {held : List Bool} {current : Option (Pending masking)}
    {masked holds : Bool} (h : Place held current masked holds) (hmasked : masked = true) :
    holds = true := by
  cases h with
  | between held => exact hmasked
  | entering => exact hmasked
  | claiming log => cases hmasked
  | trying log => cases hmasked
  | releasing log => cases hmasked
  | released log => cases hmasked
  | _ => rfl

/-! ## What a step of a thread preserves -/

/-- The calls that have been answered leave answers to give back, and the thread is at a place with
them. -/
def Stands (c : Context masking) (masked holds : Bool) : Prop :=
  ∃ held, toGiveBack c.answered = some held ∧ Nested held ∧ Place held c.current masked holds

/-- If the calls give back what was answered after a step, they did before. -/
theorem LastInFirstOut.of_step {refused : Bool} {s : State} {c : Context masking}
    (h : LastInFirstOut (c.step refused s).1) : LastInFirstOut c := by
  obtain ⟨current, todo, answered⟩ := c
  obtain ⟨held, hheld, hcurrent⟩ := h
  cases current with
  | none =>
    refine ⟨held, ?_, fun _ hp => nomatch hp⟩
    cases todo with
    | nil => exact hheld
    | cons r todo => exact hheld
  | some p =>
    cases ha : p.rest.result? with
    | none =>
      have hrequest : (p.step refused s).1.request = p.request := by
        unfold Pending.step
        split <;> rfl
      simp only [Context.step, ha] at hheld hcurrent
      refine ⟨held, hheld, fun q hq b hb => ?_⟩
      obtain rfl := Option.some.inj hq
      exact hcurrent _ rfl b (hrequest.trans hb)
    | some a =>
      simp only [Context.step, ha, toGiveBack_append] at hheld
      obtain ⟨before, hbefore, hnote⟩ := Option.bind_eq_some_iff.mp hheld
      refine ⟨before, hbefore, fun q hq b hb => ?_⟩
      obtain rfl := Option.some.inj hq
      obtain ⟨r, rest, log⟩ := p
      obtain rfl : r = MaskCall.enableIf b := hb
      cases before with
      | nil => cases hnote
      | cons last before =>
        by_cases hlast : b = last
        · exact congrArg some hlast.symm
        · rw [note, if_neg hlast] at hnote
          cases hnote

/-- **A thread stands at a place after its step**, and its turn with the core is one of the
three. -/
theorem Stands.step {c : Context masking} {s : State} {es : List Executed} (refused : Bool)
    (h : Stands c s.core.masked (holdsCore es)) (hlifo : LastInFirstOut (c.step refused s).1) :
    Stands (c.step refused s).1 (c.step refused s).2.core.masked
        (holdsCore (es ++ c.executes refused s)) ∧
      Turn s.shared.coreOwned (holdsCore es) (c.step refused s).2.shared.coreOwned
        (holdsCore (es ++ c.executes refused s)) := by
  obtain ⟨current, todo, answered⟩ := c
  obtain ⟨held, hheld, hnested, hplace⟩ := h
  cases current with
  | none =>
    have hexec : Context.executes refused s (⟨none, todo, answered⟩ : Context masking) = [] := rfl
    rw [hexec, List.append_nil]
    cases todo with
    | nil => exact ⟨⟨held, hheld, hnested, hplace⟩, .still⟩
    | cons r todo =>
      obtain ⟨held', hheld', hcurrent⟩ := hlifo
      obtain rfl := Option.some.inj (hheld.symm.trans hheld')
      refine ⟨⟨held, hheld, hnested, ?_⟩, .still⟩
      obtain ⟨hmasked, hholds⟩ := hplace.of_none
      have hstart := Place.start hnested r fun b hb => hcurrent _ rfl b hb
      rw [hholds]
      exact hmasked.symm ▸ hstart
  | some p =>
    cases ha : p.rest.result? with
    | some a =>
      have hexec : Context.executes refused s (⟨some p, todo, answered⟩ : Context masking) =
          [] := by
        obtain ⟨r, rest, log⟩ := p
        cases rest with
        | ret a => rfl
        | instr i k => cases ha
        | loop body t k => cases ha
      obtain ⟨held', hnote, hnested', hplace'⟩ := hplace.answer hnested ha
      rw [hexec, List.append_nil]
      simp only [Context.step, ha]
      exact ⟨⟨held', by rw [toGiveBack_append, hheld]; exact hnote, hnested', hplace'⟩, .still⟩
    | none =>
      obtain ⟨hplace', hturn⟩ := hplace.exec refused ha
      simp only [Context.step, ha]
      exact ⟨⟨held, hheld, hnested, hplace'⟩, hturn⟩

/-- A nested call of `disable` does not wait: a step finds the mask set, the next one answers
`false`, and neither changes the state. -/
theorem Stands.of_disable {c : Context masking} {s : State} {holds : Bool} {held : List Bool}
    {p : Pending masking} (h : Stands c s.core.masked holds)
    (hheld : toGiveBack c.answered = some held)
    (hne : held ≠ []) (hcurrent : c.current = some p) (hp : p.request = MaskCall.disable)
    (refused : Bool) :
    (c.step refused s).2 = s ∧
      (p = .start MaskCall.disable ∧ (c.step refused s).1.current = some foundMasked ∨
        p = foundMasked ∧ (c.step refused s).1.answered =
          c.answered ++ [⟨MaskCall.disable, false⟩]) := by
  obtain ⟨current, todo, answered⟩ := c
  obtain rfl : current = some p := hcurrent
  obtain ⟨held', hheld', -, hplace⟩ := h
  obtain rfl := Option.some.inj (hheld.symm.trans hheld')
  rcases hplace.of_disable hne hp with ⟨rfl, hmasked⟩ | rfl
  · have hstep :
        Context.step refused s
          (⟨some (.start MaskCall.disable), todo, answered⟩ : Context masking) =
        (⟨some foundMasked, todo, answered⟩, s) := by
      rw [Context.step_of_pending rfl result?_start_disable, step_start_disable, hmasked]
      rfl
    rw [hstep]
    exact ⟨rfl, .inl ⟨rfl, rfl⟩⟩
  · exact ⟨rfl, .inr ⟨rfl, rfl⟩⟩

/-- A call of `enableIf` with `false` returns in its next step and leaves everything as it is. -/
theorem Stands.of_enableIf {c : Context masking} {s : State} {holds : Bool} {p : Pending masking}
    (h : Stands c s.core.masked holds) (hcurrent : c.current = some p)
    (hp : p.request = MaskCall.enableIf false) (refused : Bool) :
    (c.step refused s).2 = s ∧
      (c.step refused s).1.answered = c.answered ++ [⟨MaskCall.enableIf false, ()⟩] := by
  obtain ⟨current, todo, answered⟩ := c
  obtain rfl : current = some p := hcurrent
  obtain ⟨held, -, -, hplace⟩ := h
  obtain rfl := hplace.of_enableIf hp
  exact ⟨rfl, rfl⟩

/-! ## What a run preserves -/

/-- The core is owned if and only if a thread holds it, and no two threads do. -/
structure OneHolder {n : Nat} (owned : Bool) (holds : Fin n → Bool) : Prop where
  owned_iff : owned = true ↔ ∃ k, holds k = true
  single : ∀ j k, holds j = true → holds k = true → j = k

/-- **One turn leaves the core with one holder at most.** -/
theorem OneHolder.step {n : Nat} {owned owned' : Bool} {holds holds' : Fin n → Bool}
    (h : OneHolder owned holds) {k : Fin n} (hothers : ∀ j, j ≠ k → holds' j = holds j)
    (hturn : Turn owned (holds k) owned' (holds' k)) : OneHolder owned' holds' := by
  generalize hk : holds k = held, hk' : holds' k = held' at hturn
  cases hturn with
  | still =>
    have heq : holds' = holds := by
      funext j
      by_cases hj : j = k
      · rw [hj, hk, hk']
      · exact hothers j hj
    exact heq ▸ h
  | takes hfree =>
    -- Nobody has held the core, so only the one that takes it does.
    have hnobody : ∀ j, j ≠ k → holds' j ≠ true := by
      intro j hj hholds
      rw [hothers j hj] at hholds
      exact Bool.noConfusion (hfree.symm.trans (h.owned_iff.mpr ⟨j, hholds⟩))
    have honly : ∀ j, holds' j = true → j = k := fun j hj =>
      Decidable.byContradiction fun hne => hnobody j hne hj
    exact ⟨⟨fun _ => ⟨k, hk'⟩, fun _ => rfl⟩, fun i j hi hj => (honly i hi).trans (honly j hj).symm⟩
  | leaves hheld =>
    -- No other thread has held the core, so nobody does.
    have hnobody : ∀ j, holds' j ≠ true := by
      intro j hholds
      by_cases hj : j = k
      · rw [hj, hk'] at hholds
        cases hholds
      · rw [hothers j hj] at hholds
        exact hj (h.single j k hholds (hk.trans hheld))
    exact ⟨⟨Bool.noConfusion, fun ⟨j, hj⟩ => absurd hj (hnobody j)⟩, fun i _ hi =>
      absurd hi (hnobody i)⟩

/-- What holds of the threads in every run whose calls give back what was answered. What each has
executed so far is given. -/
structure Invariant {n : Nat} (es : Fin n → List Executed) (x : ManyCores masking n) : Prop where
  stands : ∀ k, Stands (x.context k) (x.core k).masked (holdsCore (es k))
  oneHolder : OneHolder x.shared.coreOwned fun k => holdsCore (es k)

variable {n : Nat}

theorem lifo_of_step {x : ManyCores masking n} {choice : Fin n × Bool}
    (h : ∀ k, LastInFirstOut ((x.step choice).context k)) (k : Fin n) :
    LastInFirstOut (x.context k) := by
  by_cases hk : k = choice.1
  · have hself := h choice.1
    rw [context_step_self] at hself
    exact hk ▸ hself.of_step
  · exact context_step_of_ne (x := x) hk ▸ h k

theorem lifo_of_run {x : ManyCores masking n} {choices : List (Fin n × Bool)}
    (h : ∀ k, LastInFirstOut ((x.run choices).context k)) : ∀ k, LastInFirstOut (x.context k) := by
  induction choices generalizing x with
  | nil => exact h
  | cons choice choices ih => exact lifo_of_step (ih h)

namespace Invariant

theorem start {shared : Shared} {core : Fin n → Core} {todo : Fin n → List MaskCall}
    (hfree : shared.coreOwned = false) (hunmasked : ∀ k, (core k).masked = false) :
    Invariant (fun _ => []) (.start (S := masking) shared core todo) where
  stands k := ⟨[], rfl, .inl rfl, (hunmasked k).symm ▸ .between []⟩
  oneHolder :=
    ⟨⟨fun h => Bool.noConfusion (hfree.symm.trans h), fun ⟨_, h⟩ => Bool.noConfusion h⟩,
      fun _ _ h => Bool.noConfusion h⟩

theorem step {es : Fin n → List Executed} {x : ManyCores masking n} {choice : Fin n × Bool}
    (h : Invariant es x) (hlifo : ∀ k, LastInFirstOut ((x.step choice).context k)) :
    Invariant (fun k => es k ++ x.stepLog k choice) (x.step choice) := by
  have hself := hlifo choice.1
  rw [context_step_self] at hself
  obtain ⟨hstands, hturn⟩ := (h.stands choice.1).step choice.2 hself
  have hlog : x.stepLog choice.1 choice =
      (x.context choice.1).executes choice.2 (x.state choice.1) := if_pos rfl
  have hothers : ∀ j, j ≠ choice.1 → es j ++ x.stepLog j choice = es j := fun j hj => by
    rw [ManyCores.stepLog, if_neg hj, List.append_nil]
  rw [← hlog, ← context_step_self, ← state_step_self] at hstands
  rw [← hlog, ← state_step_self] at hturn
  refine ⟨fun j => ?_, h.oneHolder.step (fun j hj => congrArg holdsCore (hothers j hj)) hturn⟩
  by_cases hj : j = choice.1
  · exact hj ▸ hstands
  · rw [hothers j hj, context_step_of_ne hj, masked_step_of_ne hj]
    exact h.stands j

/-- **What holds of the threads is preserved by a run.** -/
theorem run {es : Fin n → List Executed} {x : ManyCores masking n} {choices : List (Fin n × Bool)}
    (h : Invariant es x) (hlifo : ∀ k, LastInFirstOut ((x.run choices).context k)) :
    Invariant (fun k => es k ++ runLog k choices x) (x.run choices) := by
  induction choices generalizing es x with
  | nil =>
    have hnil : (fun k => es k ++ runLog k [] x) = es := funext fun k => List.append_nil (es k)
    exact hnil.symm ▸ h
  | cons choice choices ih =>
    have hrest := ih (h.step (lifo_of_run hlifo)) hlifo
    simp only [List.append_assoc] at hrest
    exact hrest

end Invariant

/-! ## One core -/

/-- The flags are as they were: the owner of the core, and the masks of all threads. -/
structure FlagsKept (x y : ManyCores masking n) : Prop where
  owned : y.shared.coreOwned = x.shared.coreOwned
  masked : ∀ j, (y.core j).masked = (x.core j).masked

theorem flagsKept_step {x : ManyCores masking n} {k : Fin n} {refused : Bool}
    (h : ((x.context k).step refused (x.state k)).2 = x.state k) :
    FlagsKept x (x.step (k, refused)) where
  owned := congrArg (fun s => s.shared.coreOwned) h
  masked j := by
    by_cases hj : j = k
    · subst hj
      have hself : (x.step (j, refused)).state j = x.state j := state_step_self.trans h
      exact congrArg (fun s => s.core.masked) hself
    · exact masked_step_of_ne hj

/-- What makes threads behave as contexts of one core, where `holds` says of each whether it is
between its claim of the core and its release. -/
structure ModelsOneCore (x : ManyCores masking n) (holds : Fin n → Bool) : Prop where
  /-- At most one thread is masked. -/
  masked_single : ∀ j k, (x.core j).masked = true → (x.core k).masked = true → j = k
  owned_of_masked : ∀ k, (x.core k).masked = true → x.shared.coreOwned = true
  /-- The core is owned if and only if a thread holds it, and no two threads do. -/
  holder : OneHolder x.shared.coreOwned holds
  /-- Of the answers to give back, that of the outermost call is `true`, and the others are
  `false`. -/
  nested : ∀ k, ∀ held ∈ toGiveBack (x.context k).answered, Nested held
  /-- A nested call of `disable` does not wait: a step finds the mask set, and the next one answers
  `false`. Neither changes a flag. -/
  nested_disable : ∀ k, ∀ held ∈ toGiveBack (x.context k).answered, held ≠ [] →
    ∀ p ∈ (x.context k).current, p.request = MaskCall.disable → ∀ refused,
      FlagsKept x (x.step (k, refused)) ∧
        (p = .start MaskCall.disable ∧ ((x.step (k, refused)).context k).current =
          some foundMasked ∨
          p = foundMasked ∧
            ((x.step (k, refused)).context k).answered =
              (x.context k).answered ++ [⟨MaskCall.disable, false⟩])
  /-- A call of `enableIf` with `false` returns in its next step, which changes no flag. -/
  nested_enableIf : ∀ k, ∀ p ∈ (x.context k).current, p.request =
    MaskCall.enableIf false → ∀ refused, FlagsKept x (x.step (k, refused)) ∧
      ((x.step (k, refused)).context k).answered =
        (x.context k).answered ++ [⟨MaskCall.enableIf false, ()⟩]
  /-- Where no thread is in a call or has an answer to give back, the core is free, and nobody is
  masked. -/
  at_rest : (∀ k, (x.context k).current = none ∧ toGiveBack (x.context k).answered = some []) →
    x.shared.coreOwned = false ∧ ∀ k, (x.core k).masked = false

/-- A thread that is in no call and has no answer to give back is not masked, and does not hold the
core. -/
theorem Stands.at_rest {c : Context masking} {masked holds : Bool} (h : Stands c masked holds)
    (hcurrent : c.current = none) (hback : toGiveBack c.answered = some []) :
    masked = false ∧ holds = false := by
  obtain ⟨held, hheld, -, hplace⟩ := h
  obtain rfl := Option.some.inj (hheld.symm.trans hback)
  rw [hcurrent] at hplace
  exact hplace.of_none

theorem Stands.holds_of_masked {c : Context masking} {masked holds : Bool}
    (h : Stands c masked holds) (hmasked : masked = true) : holds = true := by
  obtain ⟨held, -, -, hplace⟩ := h
  exact hplace.holds_of_masked hmasked

theorem Stands.nested {c : Context masking} {masked holds : Bool} (h : Stands c masked holds)
    {held : List Bool} (hheld : toGiveBack c.answered = some held) : Nested held := by
  obtain ⟨held', hheld', hnested, -⟩ := h
  exact Option.some.inj (hheld'.symm.trans hheld) ▸ hnested

theorem Invariant.modelsOneCore {es : Fin n → List Executed} {x : ManyCores masking n}
    (h : Invariant es x) :
    ModelsOneCore x fun k => holdsCore (es k) where
  masked_single j k hj hk :=
    h.oneHolder.single j k ((h.stands j).holds_of_masked hj) ((h.stands k).holds_of_masked hk)
  owned_of_masked k hk := h.oneHolder.owned_iff.mpr ⟨k, (h.stands k).holds_of_masked hk⟩
  holder := h.oneHolder
  nested k held hheld := (h.stands k).nested hheld
  nested_disable k held hheld hne p hp hr refused := by
    obtain ⟨hstate, hnext⟩ := (h.stands k).of_disable (s := x.state k) hheld hne hp hr refused
    rw [context_step_self]
    exact ⟨flagsKept_step hstate, hnext⟩
  nested_enableIf k p hp hr refused := by
    obtain ⟨hstate, hnext⟩ := (h.stands k).of_enableIf (s := x.state k) hp hr refused
    rw [context_step_self]
    exact ⟨flagsKept_step hstate, hnext⟩
  at_rest hrest := by
    have hat : ∀ k, (x.core k).masked = false ∧ holdsCore (es k) = false := fun k =>
      (h.stands k).at_rest (hrest k).1 (hrest k).2
    refine ⟨Bool.eq_false_iff.mpr fun howned => ?_, fun k => (hat k).1⟩
    obtain ⟨k, hk⟩ := h.oneHolder.owned_iff.mp howned
    exact Bool.noConfusion ((hat k).2.symm.trans hk)

/-- **Threads behave as contexts of one core**, however many there are and however they are
interleaved, if their calls give back what was answered, the last answer first, and nobody owns the
core at the start. -/
theorem hosted_interrupts_model_one_core {shared : Shared} {core : Fin n → Core}
    {todo : Fin n → List MaskCall} (hfree : shared.coreOwned = false)
    (hunmasked : ∀ k, (core k).masked = false) (choices : List (Fin n × Bool))
    (hlifo : ∀ k, LastInFirstOut
      (((ManyCores.start (S := masking) shared core todo).run choices).context k)) :
    ModelsOneCore ((ManyCores.start (S := masking) shared core todo).run choices) fun k =>
      holdsCore (runLog k choices (.start (S := masking) shared core todo)) :=
  ((Invariant.start hfree hunmasked).run hlifo).modelsOneCore

/-- One thread calls twice, the second call nested in the first, and another one calls once. -/
def nestedAndFlat (k : Fin 2) : List MaskCall :=
  if k.val = 0 then [.disable, .disable, .enableIf false, .enableIf true] else
    [.disable, .enableIf true]

/-- Two threads take steps in turns, and every claim is refused in the first rounds. -/
def claimsRefused (refused granted : Nat) : List (Fin 2 × Bool) :=
  (List.replicate refused ((List.finRange 2).map fun k => (k, true))).flatten ++
    (List.replicate granted ((List.finRange 2).map fun k => (k, false))).flatten

/-- While a thread is about to find its mask set in a nested call, the other one waits for the
core. -/
theorem nested_call_holds_core :
    let x := (ManyCores.start (S := masking) .start (fun _ => .start true true) nestedAndFlat).run
      (claimsRefused 4 5)
    (∀ k, LastInFirstOut (x.context k)) ∧
      toGiveBack (x.context 0).answered = some [true] ∧
      ((x.step (0, true)).context 0).current = some foundMasked ∧
      x.shared.coreOwned = true ∧ (x.core 0).masked = true ∧
      ∀ k, (x.core k).masked = true → k = 0 := by
  intro x
  have hlifo : ∀ k, LastInFirstOut (x.context k) := by decide +kernel
  have h : ModelsOneCore x _ :=
    hosted_interrupts_model_one_core rfl (fun _ => rfl) (claimsRefused 4 5) hlifo
  have hback : toGiveBack (x.context 0).answered = some [true] := by decide +kernel
  have hmasked : (x.core 0).masked = true := by decide +kernel
  obtain ⟨-, ⟨-, hnext⟩ | ⟨hfound, -⟩⟩ :=
    h.nested_disable 0 [true] hback (List.cons_ne_nil _ _) (.start MaskCall.disable) rfl rfl true
  · exact ⟨hlifo, hback, hnext, h.owned_of_masked 0 hmasked, hmasked,
      fun k hk => h.masked_single k 0 hk hmasked⟩
  · cases congrArg (fun p : Pending masking => p.log.length) hfound

end Atomicity.Threads.Calls
