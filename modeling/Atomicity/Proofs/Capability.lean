import Atomicity.Atomic

/-!
# The capability queries

A backend is asked what it can do in several ways: by a byte count (`capability`, `require`), by the
width of an operand (`Backend.isLockFree`, `Backend.implements`), by a cell (`Atomic.isLockFree`),
and by the status that a query collapses to. Each of them looks into the two sets of widths by
itself, and the native one is consulted first. So they agree only where no width is native without
being provided: that is what `WidthTable.consistent` says of a pair of sets, whoever publishes them.

**Every backend publishes such a pair** (`Backend.table_consistent`), however global locks are
nested and whatever widths a single core swaps, **so all queries tell one story**
(`Backend.queries_tell_one_story`).
-/

namespace Atomicity

/-! ## Byte counts -/

namespace Width

theorem ofBytes?_eq_some_iff {n : Nat} {w : Width} : ofBytes? n = some w ↔ w.bytes = n :=
  ⟨bytes_of_ofBytes?, fun h => h ▸ ofBytes?_bytes w⟩

theorem bytes_inj {w w' : Width} : w.bytes = w'.bytes ↔ w = w' := by
  refine ⟨fun h => ?_, congrArg bytes⟩
  rw [← ofBytes?_eq_some_iff, ofBytes?_bytes] at h
  exact (Option.some.inj h).symm

theorem ofBytes?_eq_none_iff {n : Nat} : ofBytes? n = none ↔ n ∉ [1, 2, 4, 8] := by
  unfold ofBytes?
  split <;> simp_all

end Width

/-! ## Two sets of widths -/

/-- A set has the widths of every set that it contains. -/
theorem WidthSet.has_of_contains {a b : WidthSet} {w : Width} (h : a.contains b = true)
    (hw : b.has w = true) : a.has w = true := by
  have hbits : (a.inter b).has w = b.has w := congrArg (·.has w) (beq_iff_eq.mp h)
  have hboth : (a.has w && b.has w) = b.has w := by simpa [has, inter] using hbits
  rw [hw, Bool.and_true] at hboth
  exact hboth

namespace WidthTable

variable {t : WidthTable} {n : Nat} {w : Width} {c : Capability} {e : QueryError}

theorem provides_eq_lockFree_iff : t.provides w = .lockFree ↔ t.lockFree.has w = true := by
  unfold provides
  split
  · simp [*]
  · split <;> simp [*]

theorem provides_eq_emulated_iff :
    t.provides w = .emulated ↔ t.implemented.has w = true ∧ t.lockFree.has w = false := by
  unfold provides
  split
  · simp [*]
  · split <;> simp_all

/-- Where every native width is provided, a width is provided in one of the two ways or is not in
the set. -/
theorem provides_ne_unsupported_iff (h : t.consistent = true) :
    t.provides w ≠ .unsupported ↔ t.implemented.has w = true := by
  unfold provides
  split
  · next hnative => simp [WidthSet.has_of_contains h hnative]
  · split <;> simp_all

/-! ## Queries by a byte count -/

theorem capability_eq_ok_iff :
    t.capability n = .ok c ↔ ∃ w : Width, w.bytes = n ∧ t.provides w = c := by
  simp only [← Width.ofBytes?_eq_some_iff]
  cases hn : Width.ofBytes? n with
  | none => simp [capability, Width.ofBytes, hn, Except.map]
  | some v => simp [capability, Width.ofBytes, hn, Except.map]

/-- Something is required with success for the byte counts of the widths in the set. -/
theorem exists_require_eq_ok_iff (h : t.consistent = true) :
    (∃ c, t.require n = .ok c) ↔ ∃ w : Width, w.bytes = n ∧ t.implemented.has w = true := by
  simp only [require_eq_ok_iff, Width.ofBytes?_eq_some_iff, ← provides_ne_unsupported_iff h]
  constructor
  · rintro ⟨c, w, hw, hc, hne⟩
    exact ⟨w, hw, hc ▸ hne⟩
  · rintro ⟨w, hw, hne⟩
    exact ⟨_, w, hw, rfl, hne⟩

theorem require_eq_error_iff : t.require n = .error e ↔
    t.capability n = .error e ∨ t.capability n = .ok .unsupported ∧ e = .unsupported n := by
  unfold require
  split
  · next h => simp [h, eq_comm]
  · next h =>
    refine ⟨.inl, fun hc => ?_⟩
    rcases hc with hc | ⟨hc, -⟩
    · exact hc
    · exact absurd hc h

theorem capability_eq_invalidWidth_iff :
    t.capability n = .error (.invalidWidth n) ↔ n ∉ [1, 2, 4, 8] := by
  rw [capability_eq_error_iff, Width.ofBytes?_eq_none_iff]
  simp

theorem require_eq_invalidWidth_iff :
    t.require n = .error (.invalidWidth n) ↔ n ∉ [1, 2, 4, 8] := by
  rw [require_eq_error_iff, capability_eq_invalidWidth_iff]
  simp

theorem require_eq_unsupported_iff :
    t.require n = .error (.unsupported n) ↔ t.capability n = .ok .unsupported := by
  rw [require_eq_error_iff, capability_eq_error_iff]
  simp

end WidthTable

theorem statusOf_eq_zero_iff {α : Type} (r : Except QueryError α) :
    statusOf r = 0 ↔ ∃ a, r = .ok a := by
  cases r with
  | ok a => simp [statusOf]
  | error e => cases e <;> simp [statusOf, QueryError.status]

/-! ## One story -/

/-- The queries by a byte count agree with the two sets of widths, and with one another. -/
structure WidthTable.OneStory (t : WidthTable) : Prop where
  /-- Every native width is provided. -/
  native_provided : t.implemented.contains t.lockFree = true
  /-- What is required is there for the byte counts of the widths that are provided. -/
  require_ok : ∀ n, (∃ c, t.require n = .ok c) ↔
    ∃ w : Width, w.bytes = n ∧ t.implemented.contains w.flag = true
  require_lockFree : ∀ n, t.require n = .ok .lockFree ↔
    ∃ w : Width, w.bytes = n ∧ t.lockFree.contains w.flag = true
  require_emulated : ∀ n, t.require n = .ok .emulated ↔
    ∃ w : Width, w.bytes = n ∧ t.implemented.contains w.flag = true ∧
      t.lockFree.contains w.flag = false
  capability_of_require : ∀ n c, t.require n = .ok c → t.capability n = .ok c
  unsupported : ∀ n, t.capability n = .ok .unsupported ↔ t.require n = .error (.unsupported n)
  capability_invalid : ∀ n, t.capability n = .error (.invalidWidth n) ↔ n ∉ [1, 2, 4, 8]
  require_invalid : ∀ n, t.require n = .error (.invalidWidth n) ↔ n ∉ [1, 2, 4, 8]
  /-- There is no other error. -/
  capability_error : ∀ n e, t.capability n = .error e → e = .invalidWidth n
  require_error : ∀ n e, t.require n = .error e → e = .invalidWidth n ∨ e = .unsupported n

/-- **Where every native width is provided, the queries by a byte count tell one story.** -/
theorem WidthTable.oneStory {t : WidthTable} (h : t.consistent = true) : t.OneStory where
  native_provided := h
  require_ok n := by
    simpa only [WidthSet.contains_flag] using exists_require_eq_ok_iff h
  require_lockFree n := by
    simp [require_eq_ok_iff, Width.ofBytes?_eq_some_iff, provides_eq_lockFree_iff,
      WidthSet.contains_flag]
  require_emulated n := by
    simp [require_eq_ok_iff, Width.ofBytes?_eq_some_iff, provides_eq_emulated_iff,
      WidthSet.contains_flag]
  capability_of_require n c hc := by
    obtain ⟨w, hw, hprovides, -⟩ := (require_eq_ok_iff t n c).mp hc
    exact capability_eq_ok_iff.mpr ⟨w, Width.ofBytes?_eq_some_iff.mp hw, hprovides⟩
  unsupported n := require_eq_unsupported_iff.symm
  capability_invalid n := capability_eq_invalidWidth_iff
  require_invalid n := require_eq_invalidWidth_iff
  capability_error n e he := ((capability_eq_error_iff t n e).mp he).2
  require_error n e he := by
    rcases require_eq_error_iff.mp he with he | ⟨-, he⟩
    · exact .inl ((capability_eq_error_iff t n e).mp he).2
    · exact .inr he

namespace Backend

/-- All queries of a backend agree: those by a byte count, the predicates of a width and of a cell,
and the statuses. -/
structure OneStory (b : Backend) : Prop extends b.table.OneStory where
  width_lockFree : ∀ w : Width, b.isLockFree w = true ↔ b.table.capability w.bytes = .ok .lockFree
  width_implemented : ∀ w : Width, b.implements w = true ↔ ∃ c, b.table.require w.bytes = .ok c
  cell_lockFree : ∀ (t : Scalar) (a : Addr),
    (⟨b, a⟩ : Atomic t).isLockFree = true ↔ b.table.capability t.width.bytes = .ok .lockFree
  /-- The status of a query is zero for an answer and for no error. -/
  status : ∀ (α : Type) (r : Except QueryError α), statusOf r = 0 ↔ ∃ a, r = .ok a

theorem isLockFree_iff (b : Backend) (w : Width) :
    b.isLockFree w = true ↔ b.table.capability w.bytes = .ok .lockFree := by
  rw [WidthTable.capability_bytes, Except.ok.injEq, WidthTable.provides_eq_lockFree_iff]
  rfl

theorem implements_iff (b : Backend) (w : Width) :
    b.implements w = true ↔ ∃ c, b.table.require w.bytes = .ok c := by
  rw [WidthTable.exists_require_eq_ok_iff b.table_consistent]
  refine ⟨fun h => ⟨w, rfl, h⟩, ?_⟩
  rintro ⟨w', hw', h⟩
  obtain rfl : w' = w := Width.bytes_inj.mp hw'
  exact h

/-- **The capability queries of every backend tell one story.** -/
theorem queries_tell_one_story (b : Backend) : b.OneStory where
  toOneStory := WidthTable.oneStory b.table_consistent
  width_lockFree := b.isLockFree_iff
  width_implemented := b.implements_iff
  cell_lockFree t _ := b.isLockFree_iff t.width
  status _ r := statusOf_eq_zero_iff r

/-- Behind two global locks, a core that swaps bytes and double words has them emulated, and no
others. -/
example :
    let b := globalLock .line (globalLock .hosted (singleCore .line .bench (.ofWidths [.w8, .w64])))
    b.table.require 8 = .ok .emulated ∧ b.table.capability 2 = .ok .unsupported ∧
      b.table.require 2 = .error (.unsupported 2) ∧ b.table.require 3 = .error (.invalidWidth 3) :=
  ⟨rfl, rfl, rfl, rfl⟩

end Backend

end Atomicity
