import Atomicity.Proofs.Complying
import Atomicity.Proofs.Following

/-!
# Contexts with requests that nobody asks about

What holds of some of the requests of a run may hold whatever the others do, as long as those leave
the memory alone that it is about. `asked` says which requests are asked about, and the view of a
world which memory. A context **attends** (`World.Attends`) if it follows its stage with a request
that is asked about, and **passes** through any other: it then leaves the view of memory alone, and
its stage is none.

**A step of a context that attends is some moments of the reference** (`Attends.step`), where only
those moments are seen that are of requests asked about.
-/

namespace Atomicity

variable {S : Service} {κ : Type}

/-- The request whose life a moment is a point of. -/
def Moment.request : Moment S κ → S.Request
  | start _ r => r
  | effect _ r _ => r
  | finish _ r _ => r

/-- What is seen of requests that are asked about. -/
def seenOf (asked : S.Request → Bool) (history : List (Moment S κ)) : List (Moment S κ) :=
  history.filter fun m => asked m.request

/-- A ghost that does not move, and neither does memory. -/
def Protocol.still : Protocol Unit where
  move _ m _ m' := m' = m
  stay _ _ := rfl

/-- A context that has a request in progress goes on with it, or has done with it. -/
theorem Context.step_busy {c : Context S} {p : Pending S} (hc : c.current = some p) (refused : Bool)
    (s : State) :
    (c.step refused s).1.todo = c.todo ∧
      ∀ q ∈ (c.step refused s).1.current, q.request = p.request := by
  have hstep := c.stepped refused s
  generalize c.step refused s = out at hstep ⊢
  obtain ⟨c', s'⟩ := out
  cases hstep with
  | idle answered => cases hc
  | start r todo answered => cases hc
  | finish r x log todo answered => exact ⟨rfl, fun q hq => absurd hq (Option.not_mem_none q)⟩
  | loop r body y k log todo answered =>
    obtain rfl := Option.some.inj hc
    exact ⟨rfl, fun q hq => Option.some.inj hq ▸ rfl⟩
  | exec r i k log todo answered =>
    obtain rfl := Option.some.inj hc
    exact ⟨rfl, fun q hq => Option.some.inj hq ▸ rfl⟩

namespace World

variable {Γ : Type} (W : World Γ) (asked : S.Request → Bool) (E : S.Effects)

/-- A request that is asked about is indivisible, and any other is silent. -/
structure Serves (r : S.Request) : Prop where
  indivisible : asked r = true → W.Indivisible (S.prog r) (E r)
  silent : asked r = false → W.Silent W.rest (S.prog r) fun _ => W.rest

/-- What is left of a request leaves the view of memory alone, for so many steps. -/
def Passes (n : Nat) (p : Pending S) (s : State) : Prop :=
  W.lawful (W.track p.log) s ∧
    (W.discipline .still).Keeps (fun _ g s => W.rest g.1 s) n p.rest (W.track p.log, ()) s

/-- A context follows with the requests that are asked about, and passes through the others. -/
structure Attends (n : Nat) (c : Context S) (stage : Stage S) (s : State) : Prop where
  todo : ∀ r ∈ c.todo, W.Serves asked E r
  now : (W.Follows E n c stage s ∧ ∀ p ∈ c.current, asked p.request = true) ∨
    stage = none ∧ ∃ p, c.current = some p ∧ asked p.request = false ∧ W.Passes n p s

variable {W asked E} {n : Nat} {c : Context S} {stage : Stage S} {s : State}

namespace Attends

theorem start {todo : List S.Request} (htodo : ∀ r ∈ todo, W.Serves asked E r)
    (hs : W.rest W.start s) : W.Attends asked E n (.start todo) none s :=
  ⟨htodo, .inl ⟨.idle rfl hs, fun p hp => absurd hp (Option.not_mem_none p)⟩⟩

theorem le {m : Nat} (hmn : m ≤ n) (h : W.Attends asked E n c stage s) :
    W.Attends asked E m c stage s := by
  refine ⟨h.todo, ?_⟩
  rcases h.now with ⟨hfollows, hasked⟩ | ⟨hstage, p, hp, hasked, hlawful, hkeeps⟩
  · exact .inl ⟨hfollows.le hmn, hasked⟩
  · exact .inr ⟨hstage, p, hp, hasked, hlawful, hkeeps.le hmn⟩

/-- Nothing unlawful has happened so far. -/
theorem lawful (h : W.Attends asked E n c stage s) : W.lawful (W.track c.log) s := by
  rcases h.now with ⟨hfollows, -⟩ | ⟨-, p, hp, -, hlawful, -⟩
  · exact hfollows.lawful
  · rw [Context.log, hp]
    exact hlawful

theorem rest_of_idle (h : W.Attends asked E n c stage s) (hc : c.current = none) :
    stage = none ∧ W.rest W.start s := by
  rcases h.now with ⟨hfollows, -⟩ | ⟨-, p, hp, -⟩
  · exact hfollows.rest_of_idle hc
  · rw [hc] at hp
    cases hp

/-- An instruction that is next is ready. -/
theorem ready {i : Instr} (h : W.Attends asked E (n + 1) c stage s) (hi : c.next? = some i) :
    W.ready i s := by
  rcases h.now with ⟨hfollows, -⟩ | ⟨-, p, hp, -, -, hkeeps⟩
  · exact hfollows.ready hi
  · obtain ⟨q, hq, k, hk⟩ := Context.exists_of_next? hi
    obtain rfl : p = q := Option.some.inj (hp.symm.trans hq)
    rw [hk] at hkeeps
    obtain ⟨g, hown, -⟩ := hkeeps s (W.env_refl i s) false
    exact hown.1

/-- A context that is about to return is at rest. -/
theorem rest_of_result {p : Pending S} (h : W.Attends asked E (n + 1) c stage s)
    (hp : c.current = some p) {a : S.Answer p.request} (ha : p.rest = .ret a) :
    W.rest (W.track p.log) s := by
  rcases h.now with ⟨hfollows, -⟩ | ⟨-, q, hq, -, -, hkeeps⟩
  · simp only [Follows, hp, ha] at hfollows
    obtain ⟨g, -, -, hrest, -⟩ := hfollows
    exact hrest
  · obtain rfl : p = q := Option.some.inj (hp.symm.trans hq)
    rw [ha] at hkeeps
    exact hkeeps

end Attends

/-! ## A step -/

/-- Of a context whose request is asked about, all is seen that can be. -/
theorem seenOf_moment? {k : κ} (hcurrent : ∀ p ∈ c.current, asked p.request = true)
    (htodo : c.current = none → ∀ r ∈ c.todo.head?, asked r = true) :
    seenOf asked (c.moment? k).toList = (c.moment? k).toList := by
  apply List.filter_eq_self.mpr
  intro m hm
  rw [Option.mem_toList] at hm
  obtain ⟨current, todo, answered⟩ := c
  cases current with
  | none =>
    obtain ⟨r, hr, rfl⟩ := Option.map_eq_some_iff.mp hm
    exact htodo rfl r hr
  | some p =>
    obtain ⟨a, -, rfl⟩ := Option.map_eq_some_iff.mp hm
    exact hcurrent p rfl

variable [DecidableEq κ]

/-- What a step of the context that goes by `k` amounts to, as far as it is asked about. -/
structure Proceeds (W : World Γ) (asked : S.Request → Bool) (E : S.Effects) (n : Nat) (k : κ)
    (c : Context S) (x : Reference S κ) (c' : Context S) (s' : State) (y : Reference S κ) :
    Prop where
  run : ∃ moments, Reference.Run E x moments y ∧
    moments.filter Moment.visible = seenOf asked (c.moment? k).toList
  memory : y.memory = W.view s'
  others : ∀ j, j ≠ k → y.stage j = x.stage j
  attends : W.Attends asked E n c' (y.stage k) s'

variable {k : κ} {x : Reference S κ}

/-- Where nothing is seen of a step and nothing changes that is looked at, the reference stays. -/
theorem Proceeds.stay {c' : Context S} {s' : State}
    (hseen : seenOf asked (c.moment? k).toList = []) (hm : x.memory = W.view s')
    (h : W.Attends asked E n c' (x.stage k) s') : W.Proceeds asked E n k c x c' s' x :=
  ⟨⟨[], .nil x, hseen.symm⟩, hm, fun _ _ => rfl, h⟩

/-- A context that follows with a request that is asked about attends. -/
theorem Advances.proceeds {c' : Context S} {s' : State} {y : Reference S κ}
    (h : W.Advances E n k (c.moment? k).toList x c' s' y)
    (hseen : seenOf asked (c.moment? k).toList = (c.moment? k).toList)
    (htodo : ∀ r ∈ c'.todo, W.Serves asked E r)
    (hcurrent : ∀ p ∈ c'.current, asked p.request = true) :
    W.Proceeds asked E n k c x c' s' y := by
  obtain ⟨⟨moments, hrun, hvisible⟩, hm, hothers, hfollows⟩ := h
  exact ⟨⟨moments, hrun, hvisible.trans hseen.symm⟩, hm, hothers, htodo, .inl ⟨hfollows, hcurrent⟩⟩

/-- A context passes through a request that nobody asks about. -/
theorem Passes.step {p : Pending S} (hc : c.current = some p) (hm : x.memory = W.view s)
    (hstage : x.stage k = none) (hasked : asked p.request = false)
    (htodo : ∀ r ∈ c.todo, W.Serves asked E r) (h : W.Passes (n + 1) p s) (refused : Bool) :
    W.Proceeds asked E n k c x (c.step refused s).1 (c.step refused s).2 x := by
  obtain ⟨current, todo, answered⟩ := c
  obtain rfl : current = some p := hc
  obtain ⟨r, rest, log⟩ := p
  obtain ⟨hlawful, hkeeps⟩ := h
  cases rest with
  | ret a =>
    have hrest : W.rest W.start s := W.rest_start hkeeps
    refine .stay (by simp [seenOf, Context.moment?, Prog.result?, Moment.request, hasked]) hm ?_
    refine ⟨htodo, .inl ⟨?_, fun p hp => absurd hp (Option.not_mem_none p)⟩⟩
    rw [hstage]
    exact .idle rfl hrest
  | loop body t f => exact .stay rfl hm ⟨htodo, .inr ⟨hstage, _, rfl, hasked, hlawful, hkeeps⟩⟩
  | instr i f =>
    obtain ⟨⟨t', u⟩, ⟨-, ht, hlawful', hview⟩, hkeeps'⟩ := hkeeps s (W.env_refl i s) refused
    change t' = W.track (⟨i, (i.exec refused s).1⟩ :: log) at ht
    subst ht
    exact .stay rfl (hm.trans hview.symm) ⟨htodo, .inr ⟨hstage, _, rfl, hasked, hlawful', hkeeps'⟩⟩

/-- A context starts its next request, if it has one. -/
theorem Attends.step_idle (hc : c.current = none) (hm : x.memory = W.view s)
    (h : W.Attends asked E (n + 1) c (x.stage k) s) (refused : Bool) :
    ∃ y, W.Proceeds asked E n k c x (c.step refused s).1 (c.step refused s).2 y := by
  obtain ⟨hstage, hrest⟩ := h.rest_of_idle hc
  obtain ⟨current, todo, answered⟩ := c
  obtain rfl : current = none := hc
  cases todo with
  | nil => exact ⟨x, .stay rfl hm (h.le (Nat.le_succ n))⟩
  | cons r todo =>
    have hserves : W.Serves asked E r := h.todo r List.mem_cons_self
    have htodo : ∀ r ∈ todo, W.Serves asked E r := fun r' hr' =>
        h.todo r' (List.mem_cons_of_mem r hr')
    cases hasked : asked r with
    | true =>
      have hfollows : W.Follows E (n + 1) ⟨none, r :: todo, answered⟩ (x.stage k) s := by
        rw [hstage]
        exact .idle rfl hrest
      have hhead : ∀ r' ∈ (r :: todo).head?, asked r' = true :=
        fun r' hr' => Option.some.inj hr' ▸ hasked
      obtain ⟨y, hy⟩ := hfollows.step_idle
        (fun r' hr' => Option.some.inj hr' ▸ hserves.indivisible hasked) hm rfl refused
      refine ⟨y, hy.proceeds (seenOf_moment? (fun p hp => absurd hp (Option.not_mem_none p))
        fun _ => hhead) htodo ?_⟩
      exact fun p hp => Option.some.inj hp ▸ hasked
    | false =>
      refine ⟨x, .stay (by simp [seenOf, Context.moment?, Moment.request, hasked]) hm
        ⟨htodo, .inr ?_⟩⟩
      refine ⟨hstage, .start r, rfl, hasked, W.rest_lawful hrest, ?_⟩
      exact ((hserves.silent hasked Unit .still () W.start s hrest) n).mono (fun _ _ _ h => h.1)
        (Nat.le_refl n)

/-- **A step of a context that attends is some moments of the reference**, as far as they are asked
about. -/
theorem Attends.step (hm : x.memory = W.view s) (h : W.Attends asked E (n + 1) c (x.stage k) s)
    (refused : Bool) :
    ∃ y, W.Proceeds asked E n k c x (c.step refused s).1 (c.step refused s).2 y := by
  cases hc : c.current with
  | none => exact h.step_idle hc hm refused
  | some p =>
    obtain ⟨htodo, ⟨hfollows, hasked⟩ | ⟨hstage, q, hq, hasked, hpasses⟩⟩ := h
    · obtain ⟨htodo', hcurrent⟩ := Context.step_busy hc refused s
      obtain ⟨y, hy⟩ := hfollows.step_busy hm hc refused
      refine ⟨y, hy.proceeds (seenOf_moment? hasked fun hnone => ?_) (htodo' ▸ htodo)
        fun q hq => ?_⟩
      · rw [hc] at hnone
        cases hnone
      · rw [hcurrent q hq]
        exact hasked p hc
    · exact ⟨x, hpasses.step hq hm hstage hasked htodo refused⟩

end World

end Atomicity
