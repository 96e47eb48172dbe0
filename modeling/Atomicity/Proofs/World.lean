import Atomicity.Proofs.Discipline
import Atomicity.Proofs.Operation

/-!
# Worlds

A `World` is what programs run in: what others may do before an instruction, what has to hold just
before and just after one, and how things stand between two requests (`rest`). It watches a program
through a track of its own (`note`), and it looks at memory through `view`, which may hide a word
that is not the programs' own.

What a caller makes of a program is a `Protocol`: a ghost that may move when memory moves, and only
in the ways that the protocol has. Two judgments say how a program goes from where `R` holds to
where `R'` holds, whatever the protocol of its caller:

- `Silent`: it does nothing to memory, and no ghost moves.
- `Acts`: at some instant it does, all at once, what an effect says, with the answer that the effect
  has in the memory of that instant, and does nothing to memory at any other; or it does nothing at
  all. Its own answer says which (`out`). The memory of the instant satisfies `K`, which is for what
  a program has made sure of before.

A program that always acts **commits** (`CommitsOn`, `Commits`), and one that says whether it has to
be repeated **tries** (`Tries`). A program that commits from rest to rest is **indivisible**
(`Indivisible`). It can be part of another program that is indivisible itself, and its instant may,
or may not, be that of the other.

**A loop commits if every round tries** (`Commits.loop`). **Fetch and modify is indivisible where
load and compare-and-exchange are** (`Indivisible.fetchApply`), on every backend and in every world.
`World.Provides` lists what a backend has to show of its primitives, and `Provides.operation` has
every operation from them.
-/

namespace Atomicity

/-- What programs run in, watched through a track of type `Γ`. -/
structure World (Γ : Type) where
  /-- The track before anything has been executed. -/
  start : Γ
  /-- The track after one more instruction. -/
  note : Executed → Γ → Γ
  /-- What others may do just before an instruction. -/
  env : Instr → State → State → Prop
  /-- What holds just before an instruction. -/
  ready : Instr → State → Prop
  /-- What holds just after an instruction. -/
  lawful : Γ → State → Prop
  /-- How things stand between two requests. -/
  rest : Γ → State → Prop
  /-- The memory that requests are about. -/
  view : State → Memory
  /-- Others may do nothing. -/
  env_refl : ∀ i s, env i s s
  /-- The next request is watched from the start again. -/
  rest_start : ∀ {t s}, rest t s → rest start s
  /-- Nothing unlawful lasts until then. -/
  rest_lawful : ∀ {t s}, rest t s → lawful t s

/-- How a ghost may move with the memory that is looked at. It may always stay where it is while
memory stays as it is. -/
structure Protocol (γ : Type) where
  move : γ → Memory → γ → Memory → Prop
  stay : ∀ g m, move g m g m

namespace World

variable {Γ α β σ : Type}

/-- What a program has to comply with in a world, while its caller keeps to a protocol. -/
def discipline {γ : Type} (W : World Γ) (T : Protocol γ) : Discipline (Γ × γ) where
  env := W.env
  own i r g s g' s' :=
    W.ready i s ∧ g'.1 = W.note ⟨i, r⟩ g.1 ∧ W.lawful g'.1 s' ∧
      T.move g.2 (W.view s) g'.2 (W.view s')

/-- The program does nothing to memory. -/
def Silent (W : World Γ) (R : Γ → State → Prop) (p : Prog α) (R' : α → Γ → State → Prop) : Prop :=
  ∀ (γ : Type) (T : Protocol γ) (g : γ) (t : Γ) (s : State), R t s →
    (W.discipline T).Always (fun a g' s => R' a g'.1 s ∧ g'.2 = g) p (t, g) s

/-- The program does what the effect says, at one instant, with memory as `K` says; or it does
nothing, if `out` has no answer in what it answers. The caller says for every such memory how its
ghost moves if that is the memory at the instant, and learns what it has said of the memory that it
was. -/
def Acts (W : World Γ) (K : Memory → Prop) (R : Γ → State → Prop) (p : Prog β) (out : β → Option α)
    (E : Effect α) (R' : Γ → State → Prop) : Prop :=
  ∀ (γ : Type) (T : Protocol γ) (g : γ) (P : α → γ → Prop),
    (∀ m, K m → ∃ g', T.move g m g' (E m).2 ∧ P (E m).1 g') → ∀ (t : Γ) (s : State), R t s →
      (W.discipline T).Always (fun b g' s => R' g'.1 s ∧ match out b with
        | none => g'.2 = g
        | some a => P a g'.2) p (t, g) s

/-- The program does what the effect says, at one instant, with memory as `K` says. -/
def CommitsOn (W : World Γ) (K : Memory → Prop) (R : Γ → State → Prop) (p : Prog α) (E : Effect α)
    (R' : Γ → State → Prop) : Prop :=
  W.Acts K R p some E R'

/-- The program does what the effect says, at one instant. -/
def Commits (W : World Γ) (R : Γ → State → Prop) (p : Prog α) (E : Effect α)
    (R' : Γ → State → Prop) : Prop :=
  W.CommitsOn (fun _ => True) R p E R'

/-- The program does what the effect says, at one instant, or nothing, and then it is to be
repeated. -/
def Tries (W : World Γ) (R : Γ → State → Prop) (p : Prog (σ ⊕ α)) (E : Effect α)
    (R' : Γ → State → Prop) : Prop :=
  W.Acts (fun _ => True) R p Sum.getRight? E R'

/-- The program is indivisible: it commits from rest to rest. -/
def Indivisible (W : World Γ) (p : Prog α) (E : Effect α) : Prop := W.Commits W.rest p E W.rest

variable {W : World Γ} {p : Prog α} {q : Prog β} {out : β → Option α} {E : Effect α}
  {R M R' : Γ → State → Prop} {K : Memory → Prop}

/-! ## Instructions -/

/-- An instruction that leaves the view of memory alone is silent. -/
theorem Silent.instr {i : Instr} {R' : i.Reply → Γ → State → Prop}
    (h : ∀ t s s' refused, R t s → W.env i s s' → W.ready i s' ∧
      W.lawful (W.note ⟨i, (i.exec refused s').1⟩ t) (i.exec refused s').2 ∧
      W.view (i.exec refused s').2 = W.view s' ∧
      R' (i.exec refused s').1 (W.note ⟨i, (i.exec refused s').1⟩ t) (i.exec refused s').2) :
    W.Silent R (Prog.perform i) R' := by
  intro γ T g t s hs
  refine .instr fun s' he refused => ?_
  obtain ⟨hr, hl, hv, hR⟩ := h t s s' refused hs he
  refine ⟨(W.note ⟨i, (i.exec refused s').1⟩ t, g), ⟨hr, rfl, hl, ?_⟩, .ret ⟨hR, rfl⟩⟩
  rw [hv]
  exact T.stay g _

/-- An instruction acts that does what the effect says, or nothing. -/
theorem Acts.instr {i : Instr} {out : i.Reply → Option α}
    (h : ∀ t s s' refused, R t s → W.env i s s' → W.ready i s' ∧
      W.lawful (W.note ⟨i, (i.exec refused s').1⟩ t) (i.exec refused s').2 ∧
      (match out (i.exec refused s').1 with
        | none => W.view (i.exec refused s').2 = W.view s'
        | some a => K (W.view s') ∧ (a, W.view (i.exec refused s').2) = E (W.view s')) ∧
      R' (W.note ⟨i, (i.exec refused s').1⟩ t) (i.exec refused s').2) :
    W.Acts K R (Prog.perform i) out E R' := by
  intro γ T g P instant t s hs
  refine .instr fun s' he refused => ?_
  obtain ⟨hr, hl, hE, hR⟩ := h t s s' refused hs he
  cases ho : out (i.exec refused s').1 with
  | none =>
    have hv : W.view (i.exec refused s').2 = W.view s' := by simpa only [ho] using hE
    refine ⟨(W.note ⟨i, (i.exec refused s').1⟩ t, g), ⟨hr, rfl, hl, ?_⟩, .ret ⟨hR, by rw [ho]⟩⟩
    rw [hv]
    exact T.stay g _
  | some a =>
    obtain ⟨hK, hE⟩ : K (W.view s') ∧ (a, W.view (i.exec refused s').2) = E (W.view s') := by
      simpa only [ho] using hE
    obtain ⟨g', move, hP⟩ := instant (W.view s') hK
    rw [← hE] at move hP
    refine ⟨(W.note ⟨i, (i.exec refused s').1⟩ t, g'), ⟨hr, rfl, hl, move⟩, .ret ⟨hR, ?_⟩⟩
    rw [ho]
    exact hP

/-- An instruction that does what the effect says commits. -/
theorem CommitsOn.instr {i : Instr} {E : Effect i.Reply}
    (h : ∀ t s s' refused, R t s → W.env i s s' → W.ready i s' ∧
      W.lawful (W.note ⟨i, (i.exec refused s').1⟩ t) (i.exec refused s').2 ∧
      (K (W.view s') ∧ ((i.exec refused s').1, W.view (i.exec refused s').2) = E (W.view s')) ∧
      R' (W.note ⟨i, (i.exec refused s').1⟩ t) (i.exec refused s').2) :
    W.CommitsOn K R (Prog.perform i) E R' :=
  Acts.instr h

/-- **An instruction that finds out whether there is anything to do.** It leaves memory alone and
makes sure of `L`. If its answer says that there is nothing more to do, that was the instant; if
not, the instant is one of the rest of the program, and has to have a memory as `L` says. -/
theorem Acts.instr_or {i : Instr} {f : i.Reply → Prog β} {L : i.Reply → Memory → Prop}
    {M : i.Reply → Γ → State → Prop} {k : i.Reply → α} (D : i.Reply → Prop)
    (h : ∀ t s s' refused, R t s → W.env i s s' → W.ready i s' ∧
      W.lawful (W.note ⟨i, (i.exec refused s').1⟩ t) (i.exec refused s').2 ∧
      W.view (i.exec refused s').2 = W.view s' ∧ K (W.view s') ∧
      L (i.exec refused s').1 (W.view s') ∧
      M (i.exec refused s').1 (W.note ⟨i, (i.exec refused s').1⟩ t) (i.exec refused s').2)
    (now : ∀ r, D r → (∀ m, L r m → E m = (k r, m)) ∧
      W.Silent (M r) (f r) fun b t s => out b = some (k r) ∧ R' t s)
    (later : ∀ r, ¬ D r → W.Acts K (M r) (f r) out E R') :
    W.Acts K R ((Prog.perform i).bind f) out E R' := by
  intro γ T g P instant t s hs
  refine .instr fun s' he refused => ?_
  obtain ⟨hr, hl, hv, hK, hL, hR⟩ := h t s s' refused hs he
  by_cases hD : D (i.exec refused s').1
  -- the instant was this one, though memory has not changed
  · obtain ⟨hE, hsilent⟩ := now _ hD
    obtain ⟨g', move, hP⟩ := instant (W.view s') hK
    rw [hE _ hL] at move hP
    refine ⟨(W.note ⟨i, (i.exec refused s').1⟩ t, g'), ⟨hr, rfl, hl, ?_⟩, ?_⟩
    · rw [hv]
      exact move
    · refine (hsilent γ T g' _ _ hR).mono ?_
      rintro b ⟨t', g''⟩ s'' ⟨⟨hb, hs''⟩, rfl⟩
      refine ⟨hs'', ?_⟩
      rw [hb]
      exact hP
  · refine ⟨(W.note ⟨i, (i.exec refused s').1⟩ t, g), ⟨hr, rfl, hl, ?_⟩, ?_⟩
    · rw [hv]
      exact T.stay g _
    · exact later _ hD γ T g P instant _ _ hR

/-! ## One after another -/

theorem Silent.ret {a : α} : W.Silent R (.ret a) fun a' t s => a' = a ∧ R t s :=
  fun _ _ _ _ _ hs => .ret ⟨⟨rfl, hs⟩, rfl⟩

theorem Silent.skip : W.Silent R (.ret ()) fun _ => R :=
  fun _ _ _ _ _ hs => .ret ⟨hs, rfl⟩

theorem Silent.mono {M R' : α → Γ → State → Prop} (h : W.Silent R p M)
    (hR : ∀ a t s, M a t s → R' a t s) : W.Silent R p R' :=
  fun γ T g t s hs => (h γ T g t s hs).mono fun a g' s' h => ⟨hR a g'.1 s' h.1, h.2⟩

/-- What does not depend on the state can be taken as given. -/
theorem Silent.given {A : Prop} {R' : α → Γ → State → Prop} (h : A → W.Silent R p R') :
    W.Silent (fun t s => A ∧ R t s) p R' :=
  fun γ T g t s hs => h hs.1 γ T g t s hs.2

/-- To go on from what is silent, no ghost has to be told. -/
theorem Silent.always {γ : Type} {T : Protocol γ} {g : γ} {t : Γ} {s : State}
    {Q : β → Γ × γ → State → Prop} {f : α → Prog β} {M : α → Γ → State → Prop}
    (h : W.Silent R p M) (hs : R t s)
    (next : ∀ a t s, M a t s → (W.discipline T).Always Q (f a) (t, g) s) :
    (W.discipline T).Always Q (p.bind f) (t, g) s := by
  refine Discipline.Always.bind ((h γ T g t s hs).mono ?_)
  rintro a ⟨t', g'⟩ s' ⟨hs', hg⟩
  change g' = g at hg
  rw [hg]
  exact next a t' s' hs'

theorem Silent.bind {f : α → Prog β} {M : α → Γ → State → Prop} {R' : β → Γ → State → Prop}
    (h : W.Silent R p M) (next : ∀ a, W.Silent (M a) (f a) R') : W.Silent R (p.bind f) R' :=
  fun γ T g _ _ hs => h.always hs fun a t s hs => next a γ T g t s hs

/-- What is silent may come before the instant. -/
theorem Silent.acts {δ : Type} {p : Prog δ} {f : δ → Prog β} {M : δ → Γ → State → Prop}
    (h : W.Silent R p M) (next : ∀ d, W.Acts K (M d) (f d) out E R') :
    W.Acts K R (p.bind f) out E R' :=
  fun γ T g P instant _ _ hs => h.always hs fun d t s hs => next d γ T g P instant t s hs

theorem Silent.commits {f : α → Prog β} {E : Effect β} {M : α → Γ → State → Prop}
    (h : W.Silent R p M) (next : ∀ a, W.CommitsOn K (M a) (f a) E R') :
    W.CommitsOn K R (p.bind f) E R' :=
  h.acts next

/-- What does not depend on the state can be taken as given. -/
theorem Acts.given {A : Prop} (h : A → W.Acts K R q out E R') :
    W.Acts K (fun t s => A ∧ R t s) q out E R' :=
  fun γ T g P instant t s hs => h hs.1 γ T g P instant t s hs.2

/-- What an effect does to memory that is not as `K` says does not matter. -/
theorem CommitsOn.congr {E' : Effect α} (h : W.CommitsOn K R p E R') (hE : ∀ m, K m → E m = E' m) :
    W.CommitsOn K R p E' R' :=
  fun γ T g P instant t s hs => h γ T g P (fun m hm => hE m hm ▸ instant m hm) t s hs

/-- Any memory will do for what acts at some. -/
theorem Acts.anywhere (h : W.Acts K R q out E R') : W.Acts (fun _ => True) R q out E R' :=
  fun γ T g P instant t s hs => h γ T g P (fun m _ => instant m trivial) t s hs

/-- What has to be made of the answer to see whether a program has acted can be made of it. -/
theorem Acts.ret {k : α → β} {out : β → Option σ} {E : Effect σ}
    (h : W.Acts K R p (fun a => out (k a)) E R') :
    W.Acts K R (p.bind fun a => .ret (k a)) out E R' :=
  fun γ T g P instant t s hs =>
    Discipline.Always.bind ((h γ T g P instant t s hs).mono fun _ _ _ h => .ret h)

/-- What is silent may come after the instant, and make something of the answer. -/
theorem CommitsOn.silent {f : α → Prog β} {k : α → β} (h : W.CommitsOn K R p E M)
    (next : ∀ a, W.Silent M (f a) fun b t s => b = k a ∧ R' t s) :
    W.CommitsOn K R (p.bind f) (fun m => (k (E m).1, (E m).2)) R' := by
  intro γ T g P instant t s hs
  refine Discipline.Always.bind ((h γ T g (fun a g => P (k a) g) instant t s hs).mono ?_)
  rintro a ⟨t', g'⟩ s' ⟨hs', hP⟩
  refine (next a γ T g' t' s' hs').mono ?_
  rintro b ⟨t'', g''⟩ s'' ⟨⟨rfl, hs''⟩, rfl⟩
  exact ⟨hs'', hP⟩

/-- To make something of the answer takes no instant. -/
theorem CommitsOn.map (k : α → β) (h : W.CommitsOn K R p E R') :
    W.CommitsOn K R (p.bind fun a => .ret (k a)) (fun m => (k (E m).1, (E m).2)) R' :=
  h.silent fun _ => Silent.ret

/-- What commits and leaves memory alone can be done at any time. -/
theorem Commits.skip (h : W.Commits R p E R') (hE : ∀ m, (E m).2 = m) :
    W.Silent R p fun _ => R' :=
  fun γ T g t s hs => h γ T g (fun _ g' => g' = g)
    (fun m _ => ⟨g, by rw [hE]; exact T.stay g m, rfl⟩) t s hs

/-- A program in between two that are silent. -/
theorem CommitsOn.between {before after : Prog Unit} (hb : W.Silent R before fun _ => R)
    (h : W.CommitsOn K R p E R') (ha : W.Silent R' after fun _ => R') :
    W.CommitsOn K R (before.bind fun _ => p.bind fun a => after.bind fun _ => .ret a) E R' :=
  hb.commits fun _ => h.silent (k := id) fun _ => ha.bind fun _ => Silent.ret

/-! ## Loops -/

/-- A loop is silent if every round is. -/
theorem Silent.loop {body : σ → Prog (σ ⊕ β)} {I : σ → Γ → State → Prop} {R' : β → Γ → State → Prop}
    (round : ∀ x, W.Silent (I x) (body x) fun r t s => match r with
      | .inl x => I x t s
      | .inr b => R' b t s) (x : σ) :
    W.Silent (I x) (Prog.iterate body x) R' := by
  intro γ T g t s hs
  refine Discipline.Always.loop (fun x g' s => I x g'.1 s ∧ g'.2 = g)
    (fun b g' s => R' b g'.1 s ∧ g'.2 = g) (fun x g' s hg => ?_) (fun b g' s h => .ret h) ⟨hs, rfl⟩
  obtain ⟨t, g'⟩ := g'
  obtain ⟨hs, hg⟩ := hg
  change g' = g at hg
  subst hg
  refine (round x γ T g' t s hs).mono fun r g'' s' h => ?_
  cases r with
  | inl x => exact h
  | inr b => exact h

/-- An attempt that leaves everything as it was until it succeeds. -/
theorem Silent.untilTrue {attempt : Prog Bool} (h : W.Silent R attempt fun ok t s => match ok with
    | true => R' t s
    | false => R t s) : W.Silent R (Prog.untilTrue attempt) fun _ => R' := by
  refine Silent.loop (I := fun _ => R) (fun _ => h.bind fun ok => ?_) ()
  cases ok with
  | true => exact Silent.ret.mono fun _ t s hr => hr.1 ▸ hr.2
  | false => exact Silent.ret.mono fun _ t s hr => hr.1 ▸ hr.2

/-- **A loop commits if every round tries.** The invariant is that the ghost has not moved: however
often it has been tried, nothing has been done yet. -/
theorem Commits.loop {body : σ → Prog (σ ⊕ α)} (round : ∀ x, W.Tries R (body x) E R) (x : σ) :
    W.Commits R (Prog.iterate body x) E R := by
  intro γ T g P instant t s hs
  refine Discipline.Always.loop (fun _ g' s => R g'.1 s ∧ g'.2 = g)
    (fun a g' s => R g'.1 s ∧ P a g'.2) (fun x g' s hg => ?_) (fun a g' s h => .ret h) ⟨hs, rfl⟩
  obtain ⟨t, g'⟩ := g'
  obtain ⟨hs, hg⟩ := hg
  change g' = g at hg
  subst hg
  refine (round x γ T g' P instant t s hs).mono fun r g'' s' h => ?_
  cases r with
  | inl x => exact h
  | inr a => exact h

/-! ## Plain accesses -/

variable {b : Backend} {w : Width} {a : Addr}

/-- A read between two fences. -/
theorem Commits.load {isa : Isa} (fence : W.Silent R (Prog.perform (.fence isa)) fun _ => R)
    (read : W.Commits R (Prog.perform (.read w a)) (Effect.load w a) R) :
    W.Commits R (isa.load w a) (Effect.load w a) R :=
  CommitsOn.between fence read fence

/-- A write between two fences. -/
theorem Commits.store {isa : Isa} {v : Word w}
    (fence : W.Silent R (Prog.perform (.fence isa)) fun _ => R)
    (write : W.Commits R (Prog.perform (.write w a v)) (Effect.store w a v) R) :
    W.Commits R (isa.store w a v) (Effect.store w a v) R :=
  fence.commits fun _ => CommitsOn.silent (k := id) write fun _ =>
    fence.mono fun _ _ _ h => ⟨rfl, h⟩

/-- A swap between two fences. -/
theorem Commits.exchange {isa : SwapIsa} {v : Word w}
    (fence : W.Silent R (Prog.perform (.fence (.swap isa))) fun _ => R)
    (swap : W.Commits R (Prog.perform (.swap isa w a v)) (Effect.replace w a fun _ => v) R) :
    W.Commits R (isa.exchange w a v) (Effect.replace w a fun _ => v) R :=
  CommitsOn.between fence swap fence

/-! ## Fetch and modify -/

/-- A compare-and-exchange with what a function makes of the word expected tries to do what the
function does: where it finds another word, nothing has been done. -/
theorem Commits.attempt {p : Prog (Comparison (Word w))} (f : Word w → Word w) {expected : Word w}
    (again : Word w → σ) (k : Word w → β)
    (h : W.Commits R p (Effect.compareExchange w a expected (f expected)) R') :
    W.Tries R
      (p.bind fun o => .ret (if o.swapped then .inr (k expected) else .inl (again o.expected)))
      (fun m => (k (Effect.replace w a f m).1, (Effect.replace w a f m).2)) R' := by
  intro γ T g P instant t s hs
  refine Discipline.Always.bind ((h γ T g
    (fun o g' => if o.swapped then P (k expected) g' else g' = g) (fun m => ?_) t s hs).mono ?_)
  · intro _
    -- the ghost moves only if the word is the one that `f` was applied to
    by_cases hm : m.read w a = expected
    · obtain ⟨g', move, hP⟩ := instant m trivial
      subst hm
      exact ⟨g', by simpa [Effect.replace, Effect.compareExchange] using move,
        by simpa [Effect.replace, Effect.compareExchange] using hP⟩
    · exact ⟨g, by simpa [Effect.compareExchange, hm] using T.stay g m,
        by simp [Effect.compareExchange, hm]⟩
  · rintro o g' s' ⟨hs', ho⟩
    refine .ret ⟨hs', ?_⟩
    cases hsw : o.swapped with
    | true => simpa [hsw] using ho
    | false => simpa [hsw] using ho

/-- **Fetch and modify is indivisible** where load and compare-and-exchange are. -/
theorem Indivisible.fetchApply (f : Word w → Word w)
    (enter : W.Silent W.rest (Prog.perform .enterUpdate) fun _ => W.rest)
    (load : W.Indivisible (b.load w a) (Effect.load w a))
    (swap : ∀ e d, W.Indivisible (b.compareExchange w a e d) (Effect.compareExchange w a e d)) :
    W.Indivisible (b.fetchApply w a f) (Effect.replace w a f) := by
  refine CommitsOn.map Prod.fst (E := fun m => ((m.read w a, ()), _)) ?_
  refine Silent.commits (load.skip fun _ => rfl) fun first => Commits.loop (fun x => ?_) (first, ())
  exact enter.acts fun _ =>
    Commits.attempt f (fun found => (found, ())) (fun old => (old, ())) (swap x.1 (f x.1))

/-! ## All operations from the primitive ones -/

/-- The primitive operations of a backend are indivisible, on all words but that of the global
lock. -/
structure Provides (W : World Γ) (b : Backend) : Prop where
  enterUpdate : W.Silent W.rest (Prog.perform .enterUpdate) fun _ => W.rest
  load : ∀ {a}, a ≠ .globalLock → ∀ w, W.Indivisible (b.load w a) (Effect.load w a)
  store : ∀ {a}, a ≠ .globalLock → ∀ w v, W.Indivisible (b.store w a v) (Effect.store w a v)
  exchange : ∀ {a}, a ≠ .globalLock → ∀ w v,
    W.Indivisible (b.exchange w a v) (Effect.replace w a fun _ => v)
  compareExchange : ∀ {a}, a ≠ .globalLock → ∀ w e d,
    W.Indivisible (b.compareExchange w a e d) (Effect.compareExchange w a e d)
  fetchAdd : ∀ {a}, a ≠ .globalLock → ∀ w v,
    W.Indivisible (b.fetchAdd w a v) (Effect.replace w a (· + v))
  testSetLock : ∀ {a}, a ≠ .globalLock → ∀ v,
    W.Indivisible (b.testSetLock a v) (Effect.replace .w64 a fun _ => v)
  privilegedStore : ∀ {a}, a ≠ .globalLock → ∀ v,
    W.Indivisible (b.privilegedStore a v) (Effect.store .w64 a v)

namespace Provides

/-- Fetch and modify with any function. -/
theorem fetchApply (h : W.Provides b) (ha : a ≠ .globalLock) (w : Width) (f : Word w → Word w) :
    W.Indivisible (b.fetchApply w a f) (Effect.replace w a f) :=
  .fetchApply f h.enterUpdate (h.load ha w) (h.compareExchange ha w)

/-- Fetch and modify with an operand. Subtraction adds the negated operand. -/
theorem fetch (h : W.Provides b) (ha : a ≠ .globalLock) (op : FetchOp) (w : Width) (v : Word w) :
    W.Indivisible (b.fetch op w a v) (Effect.replace w a (op.combine · v)) := by
  cases op with
  | add => exact h.fetchAdd ha w v
  | sub => exact h.fetchAdd ha w (-v)
  | and => exact h.fetchApply ha w _
  | or => exact h.fetchApply ha w _
  | xor => exact h.fetchApply ha w _

/-- **Every operation is indivisible** if the primitive ones are. -/
theorem operation (h : W.Provides b) (o : Operation) (ho : o.addr ≠ .globalLock) :
    W.Indivisible (o.prog b) o.effect := by
  cases o with
  | load w a => exact h.load ho w
  | store w a v => exact h.store ho w v
  | exchange w a v => exact h.exchange ho w v
  | compareExchange w a e d => exact h.compareExchange ho w e d
  | fetch op w a v => exact h.fetch ho op w v
  | fetchNew op w a v => exact (h.fetch ho op w v).map (op.combine · v)
  | update w a f => exact h.fetchApply ho w f
  | testSetLock a v => exact h.testSetLock ho v
  | privilegedStore a v => exact h.privilegedStore ho v

end Provides

end World

end Atomicity
