import Atomicity.Proofs.Trace

/-!
# What an interference has still to come

A context goes through its schedule from one end to the other: events, calls of an update function
and store-exclusives are counted, and nothing of what is due at a number comes again once it has
passed. So there is less and less to come, and that is what bounds loops that interference makes
longer.

Two measures are taken of what is to come. `Solo.toCome` has foreign writes that follow events, and
rejections: the rounds of an exclusive pair use it up. `Solo.writesToCome` has all foreign writes,
those that open an update function included. **A foreign write to come is in the trace once it has
come, and only then** (`Steps.writes`), so what a run uses up of the second measure can be read off
its trace.
-/

namespace Atomicity

section

variable {β : Type} (f : β → Nat)

theorem countP_le_of_le (l : List β) {m n : Nat} (h : n ≤ m) :
    l.countP (m ≤ f ·) ≤ l.countP (n ≤ f ·) := by
  refine List.countP_mono_left fun e _ he => ?_
  simp only [decide_eq_true_eq] at he ⊢
  omega

theorem countP_lt_of_mem {l : List β} {m n : Nat} {e : β} (he : e ∈ l) (hn : n ≤ f e)
    (hm : f e < m) :
    l.countP (m ≤ f ·) < l.countP (n ≤ f ·) := by
  have h : n ≤ m := Nat.le_of_lt (Nat.lt_of_le_of_lt hn hm)
  obtain ⟨before, after, rfl⟩ := List.append_of_mem he
  have hb := countP_le_of_le f before h
  have ha := countP_le_of_le f after h
  have hlt : ¬ m ≤ f e := by omega
  simp only [List.countP_append, List.countP_cons, hn, hlt, decide_true, decide_false, if_true]
  simp only [Bool.false_eq_true, if_false]
  omega

theorem countP_le_eq_add (l : List β) (n : Nat) :
    l.countP (n ≤ f ·) = l.countP (f · = n) + l.countP (n + 1 ≤ f ·) := by
  induction l with
  | nil => rfl
  | cons e l ih =>
    simp only [List.countP_cons, ih, decide_eq_true_eq]
    split <;> split <;> split <;> omega

end

namespace Interference

variable (x : Interference)

theorem exists_of_due {schedule : List (Nat × Word x.width)} {n : Nat} (h : x.due schedule n ≠ []) :
    ∃ e ∈ schedule, e.1 = n := by
  obtain ⟨e, he⟩ := List.exists_mem_of_ne_nil _ fun hnil => h (List.map_eq_nil_iff.mpr hnil)
  obtain ⟨hmem, hn⟩ := List.mem_filter.mp he
  exact ⟨e, hmem, of_decide_eq_true hn⟩

/-- What is due is foreign writes, one for each entry of the schedule. -/
theorem countP_due (schedule : List (Nat × Word x.width)) (n : Nat) :
    (x.due schedule n).countP Access.isForeign = schedule.countP (·.1 = n) := by
  unfold due
  rw [List.countP_map, List.countP_filter]
  refine List.countP_congr fun e _ => ?_
  simp [Access.isForeign]

/-- An entry of the schedule is due now, or still to come. -/
theorem countP_due_add (schedule : List (Nat × Word x.width)) (n : Nat) (now : Bool) :
    (if now then x.due schedule n else []).countP Access.isForeign +
      schedule.countP (n + now.toNat ≤ ·.1) = schedule.countP (n ≤ ·.1) := by
  cases now with
  | false => simp
  | true =>
    rw [if_pos rfl, countP_due]
    exact (countP_le_eq_add Prod.fst schedule n).symm

end Interference

namespace Solo

variable {α : Type} {x : Interference} {c d : Solo α}

/-- How many foreign writes and rejections are still to come. -/
def toCome (x : Interference) (c : Solo α) : Nat :=
  x.pokes.countP (c.events.length ≤ ·.1) + x.rejects.countP (c.attempts ≤ ·)

/-- How many foreign writes are still to come, at the entry of an update function or elsewhere. -/
def writesToCome (x : Interference) (c : Solo α) : Nat :=
  x.pokes.countP (c.events.length ≤ ·.1) + x.updatePokes.countP (c.updates ≤ ·.1)

/-- A foreign write that has come is not to come any more. -/
theorem toCome_lt_of_due {n : Nat} (hdue : x.due x.pokes n ≠ []) (hn : c.events.length ≤ n)
    (hd : n < d.events.length) (ha : c.attempts ≤ d.attempts) : d.toCome x < c.toCome x := by
  obtain ⟨e, hmem, hen⟩ := x.exists_of_due hdue
  have hlt := countP_lt_of_mem Prod.fst hmem (m := d.events.length) (n := c.events.length)
    (by omega) (by omega)
  have hle := countP_le_of_le id x.rejects ha
  simp only [id] at hle
  unfold toCome
  omega

/-- A rejection that has come is not to come any more. -/
theorem toCome_lt_of_reject (hmem : c.attempts ∈ x.rejects) (ha : d.attempts = c.attempts + 1)
    (hd : c.events.length ≤ d.events.length) : d.toCome x < c.toCome x := by
  have hlt := countP_lt_of_mem id hmem (m := d.attempts) (n := c.attempts) (Nat.le_refl _)
    (by simp [ha])
  have hle := countP_le_of_le Prod.fst x.pokes hd
  simp only [id] at hlt
  unfold toCome
  omega

theorem toCome_le (c : Solo α) : c.toCome x ≤ x.pokes.length + x.rejects.length :=
  Nat.add_le_add List.countP_le_length List.countP_le_length

theorem writesToCome_le (c : Solo α) : c.writesToCome x ≤ x.pokes.length + x.updatePokes.length :=
  Nat.add_le_add List.countP_le_length List.countP_le_length

/-! ## A step -/

/-- A step goes forward in the schedule. -/
theorem toCome_step (h : c.step x = some d) : d.toCome x ≤ c.toCome x := by
  cases hp : c.rest with
  | ret a => simp [step, hp] at h
  | loop body t k =>
    obtain rfl : { c with rest := Prog.unroll body t k } = d := by simpa [step, hp] using h
    exact Nat.le_refl _
  | instr i k =>
    rw [step_instr x hp] at h
    obtain rfl : c.after x i k = d := by
      split at h
      · cases h
      · exact Option.some.inj h
    refine Nat.add_le_add (countP_le_of_le Prod.fst x.pokes ?_) (countP_le_of_le id x.rejects ?_)
    · simp [after]
    · exact Nat.le_add_right _ _

/-- What is due before an instruction is not to come any more after it. -/
theorem writes_due (c : Solo α) (i : Instr) (k : i.Reply → Prog α) :
    (c.due x i).countP Access.isForeign + (c.after x i k).writesToCome x = c.writesToCome x := by
  have hseen : (c.after x i k).events.length =
      c.events.length + (i.event? c.state.core).isSome.toNat := by
    cases h : i.event? c.state.core <;> simp [after, h]
  have hpokes := x.countP_due_add x.pokes c.events.length (i.event? c.state.core).isSome
  have hupdates := x.countP_due_add x.updatePokes c.updates i.entersUpdate
  rw [← hseen] at hpokes
  unfold due writesToCome
  rw [List.countP_append, Nat.add_add_add_comm, hpokes]
  exact congrArg (_ + ·) hupdates

/-- A foreign write to come is made in a step, or is still to come. -/
theorem writes_step (h : c.step x = some d) :
    (c.accesses x).countP Access.isForeign + d.writesToCome x = c.writesToCome x := by
  cases hp : c.rest with
  | ret a => simp [step, hp] at h
  | loop body t k =>
    obtain rfl : { c with rest := Prog.unroll body t k } = d := by simpa [step, hp] using h
    simp [accesses, hp, writesToCome]
  | instr i k =>
    rw [step_instr x hp] at h
    obtain rfl : c.after x i k = d := by
      split at h
      · cases h
      · exact Option.some.inj h
    simp only [accesses, hp, List.countP_append, Instr.countP_accesses, Nat.add_zero]
    exact writes_due c i k

/-! ## A run -/

namespace Steps

variable {n : Nat} {tr : List Access}

/-- A run goes forward in the schedule. -/
theorem toCome_le (h : Steps x n c tr d) : d.toCome x ≤ c.toCome x := by
  obtain ⟨rfl, -⟩ := h
  induction n generalizing c with
  | zero => exact Nat.le_refl _
  | succ n ih =>
    cases hs : c.step x with
    | none => exact Nat.le_of_eq (by rw [run_of_step_none x _ hs])
    | some e =>
      rw [run_succ x n hs]
      exact Nat.le_trans ih (toCome_step hs)

/-- **A foreign write to come is in the trace of a run, or is still to come.** -/
theorem writes (h : Steps x n c tr d) :
    tr.countP Access.isForeign + d.writesToCome x = c.writesToCome x := by
  obtain ⟨rfl, rfl⟩ := h
  induction n generalizing c with
  | zero => simp [trace]
  | succ n ih =>
    unfold trace run
    cases hs : c.step x with
    | none => simp
    | some e =>
      simp only
      rw [List.countP_append, Nat.add_assoc, ih, writes_step hs]

end Steps

end Solo

end Atomicity
