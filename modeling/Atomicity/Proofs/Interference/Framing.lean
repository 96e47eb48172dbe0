import Atomicity.Proofs.Interference.Passage
import Atomicity.Proofs.Leads

/-!
# What else is known of a passage

`Prog.Passes` says where a program comes to its end and what its trace amounts to. What a discipline
says of the program (`Passes.leads`), and what is known of all its instructions (`Passes.all`),
holds of the same passage: it is one of the program run by itself, with what follows put after it
(`Solo.Steps.andThen`).
-/

namespace Atomicity

/-- The foreign writes of an interference, whenever they come. -/
def Interference.writes (x : Interference) : List Access :=
  (x.pokes ++ x.updatePokes).map fun e => .foreign x.width x.addr e.2

namespace Interference

variable (x : Interference)

theorem mem_writes_of_due {schedule : List (Nat × Word x.width)} {n : Nat}
    (h : ∀ e ∈ schedule, e ∈ x.pokes ++ x.updatePokes) {e : Access} (he : e ∈ x.due schedule n) :
    e ∈ x.writes := by
  obtain ⟨entry, hentry, rfl⟩ := List.mem_map.mp he
  exact List.mem_map.mpr ⟨entry, h entry (List.mem_filter.mp hentry).1, rfl⟩

theorem isForeign_of_mem_writes {e : Access} (he : e ∈ x.writes) : e.isForeign = true := by
  obtain ⟨entry, -, rfl⟩ := List.mem_map.mp he
  rfl

end Interference

namespace Solo

variable {α β : Type} {x : Interference}

theorem mem_writes_of_due {c : Solo α} {i : Instr} {e : Access} (he : e ∈ c.due x i) :
    e ∈ x.writes := by
  unfold due at he
  rcases List.mem_append.mp he with he | he
  · split at he
    · exact x.mem_writes_of_due (fun _ h => List.mem_append_left _ h) he
    · cases he
  · split at he
    · exact x.mem_writes_of_due (fun _ h => List.mem_append_right _ h) he
    · cases he

/-- Whatever happens to memory while a program runs is a foreign write of the schedule, or an access
of one of its instructions. -/
theorem mem_trace {P : Instr → Prop} (n : Nat) {c : Solo α} (h : c.rest.All P) {e : Access}
    (he : e ∈ c.trace x n) : e ∈ x.writes ∨ ∃ i r, P i ∧ e ∈ i.accesses r := by
  induction n generalizing c with
  | zero => cases he
  | succ n ih =>
    unfold trace at he
    cases hs : c.step x with
    | none =>
      rw [hs] at he
      cases he
    | some d =>
      rw [hs] at he
      cases hp : c.rest with
      | ret a => simp [step, hp] at hs
      | loop body t k =>
        obtain rfl : { c with rest := Prog.unroll body t k } = d := by simpa [step, hp] using hs
        rw [hp] at h
        rcases List.mem_append.mp he with he | he
        · simp [accesses, hp] at he
        · exact ih h.unroll he
      | instr i k =>
        rw [step_instr x hp] at hs
        obtain rfl : c.after x i k = d := by
          split at hs
          · cases hs
          · exact Option.some.inj hs
        rw [hp] at h
        rcases List.mem_append.mp he with he | he
        · simp only [accesses, hp] at he
          rcases List.mem_append.mp he with he | he
          · exact .inl (mem_writes_of_due he)
          · exact .inr ⟨i, _, h.1, he⟩
        · exact ih (h.2 _) he

/-- A run to an answer is one to what follows, with the same trace. -/
theorem Steps.andThen {m : Nat} {c d : Solo α} {tr : List Access} {r : α} (h : Steps x m c tr d)
    (hd : d.rest = .ret r) (f : α → Prog β) :
    ∃ j, j ≤ m ∧ Steps x j (c.andThen f) tr (d.resume (f r)) := by
  have answered : ∀ {c : Solo α}, c.rest = .ret r → c.andThen f = c.resume (f r) := fun hc =>
    andThen_of_result f (congrArg Prog.result? hc)
  obtain ⟨rfl, rfl⟩ := h
  induction m generalizing c with
  | zero => exact ⟨0, Nat.le_refl 0, answered hd, rfl⟩
  | succ m ih =>
    cases hs : c.step x with
    | none =>
      rw [run_of_step_none x _ hs] at hd ⊢
      rw [trace_of_step_none x _ hs]
      exact ⟨0, Nat.zero_le _, answered hd, rfl⟩
    | some e =>
      have hnone : c.result? = none := by
        cases hr : c.result? with
        | none => rfl
        | some a =>
          rw [step_isNone_of_result x hr] at hs
          cases hs
      have hone : Steps x 1 (c.andThen f) (c.accesses x) (e.andThen f) := by
        have hstep : (c.andThen f).step x = some (e.andThen f) := by
          rw [step_andThen x f hnone, hs]
          rfl
        have hfirst := Steps.one hstep
        have haccesses : (c.andThen f).accesses x = c.accesses x := by
          obtain ⟨p, s, es, u, i⟩ := c
          cases p with
          | ret a => cases hnone
          | instr i k => rfl
          | loop body t k => rfl
        rwa [haccesses] at hfirst
      rw [run_succ x m hs] at hd ⊢
      obtain ⟨j, hj, hsteps⟩ := ih hd
      refine ⟨1 + j, by omega, ?_⟩
      have hall := hone.trans hsteps
      have htrace : c.trace x (m + 1) = c.accesses x ++ e.trace x m := by simp [trace, hs]
      rwa [htrace]

end Solo

namespace Prog.Passes

variable {α : Type} {x : Interference} {n : Nat} {p : Prog α} {s : State}
  {Q Q' : α → List Access → State → Prop}

/-- What holds of the program run by itself holds of its passage, whatever follows. -/
theorem alone (h : p.Passes x n s Q)
    (hQ : ∀ (c d : Solo α) m tr r, c.rest = p → c.state = s → Solo.Steps x m c tr d →
      d.rest = .ret r →
      Q r tr d.state → Q' r tr d.state) : p.Passes x n s Q' := by
  intro β next c hc hs
  obtain ⟨m, tr, r, d, hm, hsteps, hd, hupdates, hq⟩ := h .ret (c.resume p) (bind_ret p).symm hs
  obtain ⟨j, hj, hthen⟩ := hsteps.andThen hd next
  have hwhole : (c.resume p).andThen next = c := by
    obtain ⟨rest, t, es, u, i⟩ := c
    obtain rfl : rest = p.bind next := hc
    rfl
  rw [hwhole] at hthen
  refine ⟨j, tr, r, d.resume (next r), ?_, hthen, rfl, hupdates, hQ _ d m tr r rfl hs hsteps hd hq⟩
  have hd' : Solo.toCome x (d.resume (next r)) = d.toCome x := rfl
  have hc' : Solo.toCome x (c.resume p) = c.toCome x := rfl
  omega

/-- A program that passes and complies with a discipline comes to its end where the discipline
says. -/
theorem leads {γ : Type} {D : Discipline γ} {R : γ → State → Prop} {M : α → γ → State → Prop}
    (h : p.Passes x n s Q) (hx : D.Admits x) (hp : D.Leads R p M) {g : γ} (hg : R g s) :
    p.Passes x n s fun r tr s' => Q r tr s' ∧ ∃ g', M r g' s' := by
  refine h.alone fun c d m tr r hc hs hsteps hd hq => ⟨hq, ?_⟩
  obtain ⟨rfl, -⟩ := hsteps
  subst hc hs
  obtain ⟨g', -, hkeeps⟩ := @Discipline.Keeps.run γ α D x hx M (fun _ _ _ => True)
    (fun _ _ _ _ _ _ _ _ _ _ => trivial) m 1 c [] g (hp g c.state hg (m + 1)) trivial
  rw [hd] at hkeeps
  exact ⟨g', hkeeps⟩

/-- What happens to memory in the passage of a program is done from outside, or by its
instructions. -/
theorem all {P : Instr → Prop} (h : p.Passes x n s Q) (hp : p.All P) :
    p.Passes x n s fun r tr s' =>
      Q r tr s' ∧ ∀ e ∈ tr, e ∈ x.writes ∨ ∃ i r, P i ∧ e ∈ i.accesses r := by
  refine h.alone fun c d m tr r hc hs hsteps hd hq => ⟨hq, fun e he => ?_⟩
  obtain ⟨-, rfl⟩ := hsteps
  exact Solo.mem_trace m (hc ▸ hp) he

end Prog.Passes

end Atomicity
