import Atomicity.Proofs.Interfered
import Atomicity.Proofs.Interference.ToCome

/-!
# Passages under interference

`Prog.Passes` is the judgment of what follows: begun in a state, anywhere in a schedule of
interference and whatever is to be done after it, a program comes to its end, and of its answer, of
what happens to memory meanwhile and of the state it leaves something is so. How many steps that
takes is bounded, by a number and three for each foreign write or rejection that is used up.

Two forms of it say what a program does to the word at an address. A program that `Bypasses` the
address stores nothing there. A program that `Acts` there has one instant (`Effective`): it finds a
word, perhaps puts another in its place with nothing in between, and stores nothing else at the
address. A program that acts does so still with others before and after it that bypass the address
(`Acts.after`, `Acts.before`).

A loop passes if its first round answers. The loops for which that is not so have rules of their
own, elsewhere.
-/

namespace Atomicity

/-- The context writes to an address, at any width. -/
def Access.storesTo (a : Addr) : Access → Bool
  | .stored _ b _ => b = a
  | _ => false

theorem Access.storesTo_of_not_isStored {e : Access} (h : e.isStored = false) (a : Addr) :
    e.storesTo a = false := by
  cases e with
  | stored w b v => cases h
  | loaded w b v => rfl
  | foreign w b v => rfl

theorem Access.storesTo_of_isForeign {e : Access} (h : e.isForeign = true) (a : Addr) :
    e.storesTo a = false := by
  cases e with
  | foreign w b v => rfl
  | loaded w b v => cases h
  | stored w b v => cases h

/-- The trace has one instant at which a word is found, and written if it is to be. Nothing happens
between the two, and nothing else of what the context stores goes to the address. -/
def Effective (m : Memory) (tr : List Access) {w : Width} (a : Addr) (found : Word w)
    (written : Option (Word w)) : Prop :=
  ∃ before after, tr = before ++ .loaded w a found :: (written.toList.map (.stored w a) ++ after) ∧
    (before.foldl Access.apply m).read w a = found ∧ ∀ e ∈ before ++ after, e.storesTo a = false

namespace Effective

variable {m : Memory} {tr tr' : List Access} {w : Width} {a : Addr} {found : Word w}
  {written : Option (Word w)}

theorem prepend (hquiet : ∀ e ∈ tr, e.storesTo a = false)
    (h : Effective (tr.foldl Access.apply m) tr' a found written) :
    Effective m (tr ++ tr') a found written := by
  obtain ⟨before, after, rfl, hfound, hothers⟩ := h
  refine ⟨tr ++ before, after, (List.append_assoc ..).symm, ?_, fun e he => ?_⟩
  · rw [List.foldl_append]
    exact hfound
  · rw [List.append_assoc] at he
    exact (List.mem_append.mp he).elim (hquiet e) (hothers e)

theorem append (h : Effective m tr a found written) (hquiet : ∀ e ∈ tr', e.storesTo a = false) :
    Effective m (tr ++ tr') a found written := by
  obtain ⟨before, after, rfl, hfound, hothers⟩ := h
  refine ⟨before, after ++ tr', by simp, hfound, fun e he => ?_⟩
  rw [← List.append_assoc] at he
  exact (List.mem_append.mp he).elim (hothers e) (hquiet e)

/-- What is found at the first access is what is in memory. -/
theorem first {after : List Access} (hfound : m.read w a = found)
    (hquiet : ∀ e ∈ after, e.storesTo a = false) :
    Effective m (.loaded w a found :: (written.toList.map (.stored w a) ++ after)) a
      found written :=
  ⟨[], after, rfl, hfound, hquiet⟩

end Effective

namespace Interference

/-- What holds of a state still does after a foreign write. -/
def Leaves (x : Interference) (R : State → Prop) : Prop :=
  ∀ s v, R s → R ((s.write x.width x.addr v).reserve Option.none)

theorem Leaves.and {x : Interference} {R R' : State → Prop} (h : x.Leaves R) (h' : x.Leaves R') :
    x.Leaves fun s => R s ∧ R' s :=
  fun s v hs => ⟨h s v hs.1, h' s v hs.2⟩

end Interference

namespace Prog

variable {α β σ : Type} {x : Interference} {n k : Nat}

/-- Begun in a state under interference, the program comes to its end, wherever in the schedule it
is begun and whatever follows it. -/
def Passes (x : Interference) (p : Prog α) (n : Nat) (s : State)
    (Q : α → List Access → State → Prop) : Prop :=
  ∀ ⦃β : Type⦄ (next : α → Prog β) (c : Solo β), c.rest = p.bind next → c.state = s →
    ∃ m tr r d, m + 3 * d.toCome x ≤ n + 3 * c.toCome x ∧ Solo.Steps x m c tr d ∧ d.rest = next r ∧
      d.updates = c.updates ∧ Q r tr d.state

namespace Passes

variable {p : Prog α} {f : α → Prog β} {s : State} {Q Q' : α → List Access → State → Prop}
  {M : β → List Access → State → Prop}

theorem ret {r : α} (h : Q r [] s) : (Prog.ret r).Passes x n s Q := by
  intro β next c hc hs
  subst hs
  exact ⟨0, [], r, c, by omega, ⟨rfl, rfl⟩, hc, rfl, h⟩

theorem mono (h : p.Passes x n s Q) (hQ : ∀ r tr s', Q r tr s' → Q' r tr s') :
    p.Passes x n s Q' := by
  intro β next c hc hs
  obtain ⟨m, tr, r, d, hm, hsteps, hd, hupdates, hq⟩ := h next c hc hs
  exact ⟨m, tr, r, d, hm, hsteps, hd, hupdates, hQ r tr _ hq⟩

theorem le (h : p.Passes x n s Q) (hnk : n ≤ k) : p.Passes x k s Q := by
  intro β next c hc hs
  obtain ⟨m, tr, r, d, hm, hrest⟩ := h next c hc hs
  exact ⟨m, tr, r, d, by omega, hrest⟩

/-- The trace leads from the memory before to the memory after. -/
theorem replay (h : p.Passes x n s Q) : p.Passes x n s fun r tr s' =>
    tr.foldl Access.apply s.shared.memory = s'.shared.memory ∧ Q r tr s' := by
  intro β next c hc hs
  obtain ⟨m, tr, r, d, hm, hsteps, hd, hupdates, hq⟩ := h next c hc hs
  subst hs
  exact ⟨m, tr, r, d, hm, hsteps, hd, hupdates, hsteps.replay, hq⟩

theorem bind (h : p.Passes x n s Q)
    (next : ∀ r tr s', Q r tr s' → (f r).Passes x k s' fun r' tr' => M r' (tr ++ tr')) :
    (p.bind f).Passes x (n + k) s M := by
  intro γ last c hc hs
  rw [bind_assoc] at hc
  obtain ⟨i, tr, r, d, hi, hsteps, hd, hupdates, hq⟩ := h _ c hc hs
  obtain ⟨j, tr', r', e, hj, hsteps', he, hupdates', hm⟩ := next r tr _ hq last d hd rfl
  exact ⟨i + j, tr ++ tr', r', e, by omega, hsteps.trans hsteps', he, hupdates'.trans hupdates, hm⟩

/-- **A loop passes if its first round answers.** -/
theorem iterate {body : σ → Prog (σ ⊕ α)} {t : σ}
    (h : (body t).Passes x n s fun r tr s' => ∃ a, r = .inr a ∧ Q a tr s') :
    (Prog.iterate body t).Passes x (n + 1) s Q := by
  intro β next c hc hs
  have hopen := Solo.Steps.loop (x := x) hc
  obtain ⟨m, tr, r, d, hm, hsteps, hd, hupdates, a, rfl, hq⟩ :=
    h _ { c with rest := Prog.unroll body t fun a => (Prog.ret a).bind next } rfl hs
  refine ⟨1 + m, tr, a, d, ?_, hopen.trans hsteps, hd, hupdates, hq⟩
  have hcome : Solo.toCome x { c with rest := Prog.unroll body t fun a => (Prog.ret a).bind next } =
      c.toCome x := rfl
  omega

/-- An instruction, after what interference does before it. -/
theorem instr (hx : x.budget = none) {i : Instr} (hu : i.entersUpdate = false)
    {Q : i.Reply → List Access → State → Prop} {R : State → Prop} (hR : x.Leaves R) (hs : R s)
    (h : ∀ refused tr s', (i.storesExclusively = false → refused = false) →
      (∀ e ∈ tr, e.isForeign = true) →
      tr.foldl Access.apply s.shared.memory = s'.shared.memory → R s' →
      Q (i.exec refused s').1 (tr ++ i.accesses (i.exec refused s').1) (i.exec refused s').2) :
    (perform i).Passes x 1 s Q := by
  intro β next c hc hcs
  have hone := Solo.Steps.instr hx hc
  have hforeign : ∀ e ∈ c.due x i, e.isForeign = true := by
    intro e he
    unfold Solo.due at he
    rcases List.mem_append.mp he with he | he
    · split at he
      · exact x.due_isForeign _ _ e he
      · cases he
    · rw [hu, if_neg Bool.false_ne_true] at he
      cases he
  have hcome := hone.toCome_le
  refine ⟨1, _, _, _, by omega, hone, rfl, ?_, h _ _ _ (fun hi => ?_) hforeign ?_ ?_⟩
  · simp [Solo.after, hu]
  · rw [Solo.rejected, hi, Bool.false_and]
  · exact hcs ▸ Solo.due_apply x c i
  · exact Solo.finds_induction x hR i (hcs ▸ hs)

/-- An instruction that is not seen: nothing comes before it. -/
theorem unseen (hx : x.budget = none) {i : Instr} (hu : i.entersUpdate = false)
    (hseen : ∀ core, i.event? core = none) {Q : i.Reply → List Access → State → Prop}
    (h : ∀ refused, Q (i.exec refused s).1 (i.accesses (i.exec refused s).1) (i.exec refused s).2) :
    (perform i).Passes x 1 s Q := by
  intro β next c hc hcs
  have hone := Solo.Steps.instr hx hc
  have hdue : c.due x i = [] := by simp [Solo.due, hseen, hu]
  have hfinds : c.finds x i = s := by simp [Solo.finds, hseen, hu, hcs]
  have hcome := hone.toCome_le
  refine ⟨1, _, _, _, by omega, hone, rfl, ?_, ?_⟩
  · simp [Solo.after, hu]
  · simp only [Solo.after, hdue, hfinds, List.nil_append]
    exact h _

end Passes

/-! ## Programs that bypass an address -/

section

variable {a : Addr}

/-- The program comes to its end and stores nothing at the address. -/
def Bypasses (x : Interference) (a : Addr) (p : Prog α) (n : Nat) (R : State → Prop)
    (Q : α → State → Prop) :
    Prop :=
  ∀ s, R s → p.Passes x n s fun r tr s' => (∀ e ∈ tr, e.storesTo a = false) ∧ Q r s'

namespace Bypasses

variable {p : Prog α} {f : α → Prog β} {R S : State → Prop} {Q : α → State → Prop}
  {V : β → State → Prop}

theorem ret {r : α} (h : ∀ s, R s → Q r s) : (Prog.ret r).Bypasses x a n R Q :=
  fun s hs => .ret ⟨fun _ he => absurd he List.not_mem_nil, h s hs⟩

theorem le (h : p.Bypasses x a n R Q) (hnk : n ≤ k) : p.Bypasses x a k R Q :=
  fun s hs => (h s hs).le hnk

theorem mono (h : p.Bypasses x a n R Q) (hpre : ∀ s, S s → R s) {T : α → State → Prop}
    (hpost : ∀ r s, Q r s → T r s) : p.Bypasses x a n S T :=
  fun s hs => (h s (hpre s hs)).mono fun r _ s' hr => ⟨hr.1, hpost r s' hr.2⟩

theorem bind (h : p.Bypasses x a n R Q) (next : ∀ r, (f r).Bypasses x a k (Q r) V) :
    (p.bind f).Bypasses x a (n + k) R V := by
  intro s hs
  refine (h s hs).bind fun r tr s' hr => ?_
  refine (next r s' hr.2).mono fun r' tr' s'' hr' => ⟨fun e he => ?_, hr'.2⟩
  exact (List.mem_append.mp he).elim (hr.1 e) (hr'.1 e)

theorem map {g : α → β} (h : p.Bypasses x a n R fun r => V (g r)) :
    (p.bind fun r => .ret (g r)).Bypasses x a n R V :=
  Bypasses.bind (k := 0) h fun _ => .ret fun _ hs => hs

theorem iterate {body : σ → Prog (σ ⊕ α)} {t : σ}
    (h : (body t).Bypasses x a n R fun r s => ∃ b, r = .inr b ∧ Q b s) :
    (Prog.iterate body t).Bypasses x a (n + 1) R Q := by
  intro s hs
  refine Passes.iterate ((h s hs).mono fun r tr s' hr => ?_)
  obtain ⟨hquiet, b, rfl, hb⟩ := hr
  exact ⟨b, rfl, hquiet, hb⟩

/-- An attempt that succeeds is not repeated. -/
theorem untilTrue {attempt : Prog Bool} (h : attempt.Bypasses x a n R fun ok s => ok = true ∧ S s) :
    (Prog.untilTrue attempt).Bypasses x a (n + 1) R fun _ => S := by
  refine iterate (map (h.mono (fun _ hs => hs) ?_))
  rintro ok s ⟨rfl, hs⟩
  exact ⟨(), rfl, hs⟩

/-- An instruction that writes nothing at the address. -/
theorem instr (hx : x.budget = none) {i : Instr} (hu : i.entersUpdate = false) (hR : x.Leaves R)
    (hquiet : ∀ r, ∀ e ∈ i.accesses r, e.storesTo a = false) {Q : i.Reply → State → Prop}
    (h : ∀ refused s, (i.storesExclusively = false → refused = false) → R s →
      Q (i.exec refused s).1 (i.exec refused s).2) : (perform i).Bypasses x a 1 R Q := by
  intro s hs
  refine .instr hx hu hR hs fun refused tr s' hrefused hforeign _ hs' =>
    ⟨fun e he => ?_, h _ s' hrefused hs'⟩
  rcases List.mem_append.mp he with he | he
  · exact Access.storesTo_of_isForeign (hforeign e he) a
  · exact hquiet _ e he

theorem fence (hx : x.budget = none) {isa : Isa} (hR : x.Leaves R) :
    (perform (.fence isa)).Bypasses x a 1 R fun _ => R :=
  instr hx rfl hR (fun _ _ he => absurd he List.not_mem_nil) fun _ _ _ hs => hs

end Bypasses

/-! ## Programs that replace what has been read -/

section

variable {w : Width} {v? : Option (Word w)} {f : Unit → Prog α} {R S : State → Prop} {r : α}

/-- The program comes to its end. It begins by writing the word at the address, if there is one, and
stores nothing there after that. -/
def Replaces (x : Interference) {w : Width} (a : Addr) (p : Prog α) (n : Nat) (R : State → Prop)
    (v? : Option (Word w)) (r : α) (S : State → Prop) : Prop :=
  ∀ s, R s → p.Passes x n s fun r' tr s' => r' = r ∧
    (∃ after, tr = v?.toList.map (.stored w a) ++ after ∧ ∀ e ∈ after, e.storesTo a = false) ∧ S s'

theorem Replaces.none {p : Prog α} (h : p.Bypasses x a n R fun r' s => r' = r ∧ S s) :
    p.Replaces x (w := w) a n R Option.none r S :=
  fun s hs => (h s hs).mono fun _ tr _ ⟨hquiet, hr, hs'⟩ => ⟨hr, ⟨tr, rfl, hquiet⟩, hs'⟩

/-- A plain write is not seen: nothing comes before it. -/
theorem Replaces.write (hx : x.budget = Option.none) {v : Word w}
    (hR : ∀ s, R s → R (s.write w a v)) (h : (f ()).Bypasses x a n R fun r' s => r' = r ∧ S s) :
    ((perform (.write w a v)).bind f).Replaces x a (1 + n) R (some v) r S := by
  intro s hs
  refine Passes.bind (Q := fun _ tr s' => tr = [.stored w a v] ∧ R s')
    (.unseen hx rfl (fun _ => rfl) fun _ => ⟨rfl, hR s hs⟩) ?_
  rintro u tr s' ⟨rfl, hs'⟩
  exact (h s' hs').mono fun _ tr _ ⟨hquiet, hr, hs''⟩ => ⟨hr, ⟨tr, rfl, hquiet⟩, hs''⟩

theorem Replaces.writeWhen (hx : x.budget = Option.none) {P : Prop} [Decidable P] {v : Word w}
    (hR : ∀ s, R s → R (s.write w a v)) (h : (f ()).Bypasses x a n R fun r' s => r' = r ∧ S s) :
    ((Prog.when P (perform (.write w a v))).bind f).Replaces x a (1 + n) R
      (if P then some v else Option.none) r S := by
  unfold Prog.when
  by_cases hP : P
  · rw [if_pos hP, if_pos hP]
    exact .write hx hR h
  · rw [if_neg hP, if_neg hP]
    exact .none (h.le (Nat.le_add_left n 1))

end

/-! ## Programs that act at an address -/

/-- The program comes to its end and has one instant at the address. Its answer and what it writes
go by what it finds there. -/
def Acts (x : Interference) {w : Width} (a : Addr) (p : Prog α) (n : Nat) (R : State → Prop)
    (answer : Word w → α) (written : Word w → Option (Word w)) (R' : State → Prop) : Prop :=
  ∀ s, R s → p.Passes x n s fun r tr s' =>
    (∃ found, r = answer found ∧ Effective s.shared.memory tr a found (written found)) ∧ R' s'

namespace Acts

variable {w : Width} {p : Prog α} {q : Prog β} {R S T : State → Prop} {answer : Word w → α}
  {written : Word w → Option (Word w)}

theorem le (h : p.Acts x a n R answer written S) (hnk : n ≤ k) : p.Acts x a k R answer written S :=
  fun s hs => (h s hs).le hnk

theorem mono (h : p.Acts x a n R answer written S) (hpre : ∀ s, T s → R s) {U : State → Prop}
    (hpost : ∀ s, S s → U s) : p.Acts x a n T answer written U :=
  fun s hs => (h s (hpre s hs)).mono fun _ _ s' hr => ⟨hr.1, hpost s' hr.2⟩

/-- A program that acts, after one that bypasses the address. -/
theorem after {f : β → Prog α} {Q : β → State → Prop} (hq : q.Bypasses x a n R Q)
    (h : ∀ r, (f r).Acts x a k (Q r) answer written S) :
    (q.bind f).Acts x a (n + k) R answer written S := by
  intro s hs
  refine (hq s hs).replay.bind fun r tr s' hr => ?_
  obtain ⟨hreplay, hquiet, hr⟩ := hr
  refine (h r s' hr).mono fun r' tr' s'' hr' => ⟨?_, hr'.2⟩
  obtain ⟨⟨found, hanswer, heffective⟩, -⟩ := hr'
  exact ⟨found, hanswer, .prepend hquiet (hreplay ▸ heffective)⟩

/-- A program that acts, before one that bypasses the address. -/
theorem before {f : α → Prog β} {g : α → β} (h : p.Acts x a n R answer written S)
    (hf : ∀ r, (f r).Bypasses x a k S fun r' s => r' = g r ∧ T s) :
    (p.bind f).Acts x a (n + k) R (fun found => g (answer found)) written T := by
  intro s hs
  refine (h s hs).bind fun r tr s' hr => ?_
  obtain ⟨⟨found, rfl, heffective⟩, hs'⟩ := hr
  refine (hf _ s' hs').mono fun r' tr' s'' hr' => ?_
  obtain ⟨hquiet, rfl, hs''⟩ := hr'
  exact ⟨⟨found, rfl, heffective.append hquiet⟩, hs''⟩

theorem map {g : α → β} (h : p.Acts x a n R answer written S) :
    (p.bind fun r => .ret (g r)).Acts x a n R (fun found => g (answer found)) written S :=
  before (k := 0) h fun _ => .ret fun _ hs => ⟨rfl, hs⟩

/-- One instruction that is not seen, and finds what it answers. -/
theorem unseen (hx : x.budget = none) {i : Instr} (hu : i.entersUpdate = false)
    (hseen : ∀ core, i.event? core = none) {answer : Word w → i.Reply}
    (hreply : ∀ refused s, (i.exec refused s).1 = answer (s.read w a))
    (haccesses : ∀ found, i.accesses (answer found) =
      .loaded w a found :: (written found).toList.map (.stored w a))
    (hR : ∀ refused s, R s → R (i.exec refused s).2) :
    (perform i).Acts x a 1 R answer written R := by
  intro s hs
  refine .unseen hx hu hseen fun refused => ⟨⟨s.read w a, hreply refused s, ?_⟩, hR refused s hs⟩
  rw [hreply, haccesses]
  have hfirst : Effective s.shared.memory (.loaded w a (s.read w a) ::
      ((written (s.read w a)).toList.map (.stored w a) ++ [])) a (s.read w a)
        (written (s.read w a)) :=
    .first rfl fun _ he => absurd he List.not_mem_nil
  rwa [List.append_nil] at hfirst

/-- A plain read is not seen either, so nothing comes between it and a plain write. -/
theorem read (hx : x.budget = none) {f : Word w → Prog α}
    (h : ∀ found, (f found).Replaces x a n R (written found) (answer found) S) :
    ((perform (.read w a)).bind f).Acts x a (1 + n) R answer written S := by
  intro s hs
  refine Passes.bind
    (Q := fun found tr s' => found = s.read w a ∧ tr = [.loaded w a found] ∧ s' = s)
    (.unseen hx rfl (fun _ => rfl) fun _ => ⟨rfl, rfl, rfl⟩) ?_
  rintro found tr s' ⟨hfound, rfl, rfl⟩
  refine (h found s' hs).mono fun r tr s'' hr => ?_
  obtain ⟨rfl, ⟨after, rfl, hquiet⟩, hs''⟩ := hr
  exact ⟨⟨found, rfl, .first hfound.symm hquiet⟩, hs''⟩

end Acts

end

end Prog

end Atomicity
