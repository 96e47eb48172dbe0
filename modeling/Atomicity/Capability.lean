import Atomicity.Width.Set

/-!
# Capability queries

A backend publishes two sets of widths: those that it has a native instruction for and those that it
provides at all. `WidthTable` is that pair. `capability` looks a byte count up in it, and `require`
does the same but takes a width that is not provided for an error.

`QueryError.invalidWidth` means that the byte count is no operand width at all, and
`QueryError.unsupported` that it is one, but not provided.

Main facts: `require_eq_ok_iff` says what `require` accepts in terms of the two sets, and
`capability_eq_error_iff` that `capability` fails on the counts that are no width and on nothing
else.
-/

namespace Atomicity

/-- Why a capability query failed, with the byte count that was asked for. -/
inductive QueryError where
  /-- The count is not the size of an operand. -/
  | invalidWidth (bytes : Nat)
  /-- The count is the size of an operand that the backend does not provide. -/
  | unsupported (bytes : Nat)
  deriving DecidableEq, Repr

namespace QueryError

/-- The message for a reader. -/
def message : QueryError → String
  | invalidWidth n => s!"{n} bytes is not an atomic width"
  | unsupported n => s!"{n}-byte atomics are not implemented on this architecture"

/-- The error written as a term. -/
def render : QueryError → String
  | invalidWidth n => s!"InvalidWidth({n})"
  | unsupported n => s!"Unsupported({n})"

/-- The status code that stands for the error. -/
def status : QueryError → Int
  | invalidWidth _ => -10
  | unsupported _ => -2

end QueryError

/-- The status code of a query: zero for success. -/
def statusOf {α : Type} : Except QueryError α → Int
  | .ok _ => 0
  | .error e => e.status

/-- How one operand width is provided. -/
inductive Capability where
  /-- By a native atomic instruction. -/
  | lockFree
  /-- By emulation. -/
  | emulated
  /-- Not at all. -/
  | unsupported
  deriving DecidableEq, Repr

namespace Capability

def name : Capability → String
  | lockFree => "LockFree"
  | emulated => "Emulated"
  | unsupported => "Unsupported"

end Capability

/-- The width of an operand of so many bytes. -/
def Width.ofBytes (bytes : Nat) : Except QueryError Width :=
  match Width.ofBytes? bytes with
  | some w => .ok w
  | none => .error (.invalidWidth bytes)

/-- The widths that a backend has native instructions for, and those that it provides at all. -/
structure WidthTable where
  lockFree : WidthSet
  implemented : WidthSet
  deriving DecidableEq, Repr

namespace WidthTable

/-- Both sets are the same: whatever is provided is native. -/
def native (a : WidthSet) : WidthTable := ⟨a, a⟩

/-- Behind one global lock everything that the base provides is provided, and nothing natively. -/
def behindGlobalLock (t : WidthTable) : WidthTable := ⟨.empty, t.implemented⟩

/-- Every native width is provided. -/
def consistent (t : WidthTable) : Bool := t.implemented.contains t.lockFree

/-- How one width is provided. -/
def provides (t : WidthTable) (w : Width) : Capability :=
  if t.lockFree.has w then .lockFree
  else if t.implemented.has w then .emulated
  else .unsupported

/-- How operands of so many bytes are provided. -/
def capability (t : WidthTable) (bytes : Nat) : Except QueryError Capability :=
  (Width.ofBytes bytes).map t.provides

/-- Like `capability`, but a width that is not provided is an error. -/
def require (t : WidthTable) (bytes : Nat) : Except QueryError Capability :=
  match t.capability bytes with
  | .ok .unsupported => .error (.unsupported bytes)
  | other => other

theorem capability_bytes (t : WidthTable) (w : Width) :
    t.capability w.bytes = .ok (t.provides w) := by
  simp [capability, Width.ofBytes, Except.map]

theorem capability_eq_error_iff (t : WidthTable) (n : Nat) (e : QueryError) :
    t.capability n = .error e ↔ Width.ofBytes? n = none ∧ e = .invalidWidth n := by
  cases h : Width.ofBytes? n with
  | none => simp [capability, Width.ofBytes, h, Except.map, eq_comm]
  | some w => simp [capability, Width.ofBytes, h, Except.map]

theorem require_eq_ok_iff (t : WidthTable) (n : Nat) (c : Capability) :
    t.require n = .ok c ↔
      ∃ w, Width.ofBytes? n = some w ∧ t.provides w = c ∧ c ≠ .unsupported := by
  cases h : Width.ofBytes? n with
  | none => simp [require, capability, Width.ofBytes, h, Except.map]
  | some w =>
    cases hc : t.provides w <;> cases c <;>
      simp [require, capability, Width.ofBytes, h, Except.map, hc]

end WidthTable

end Atomicity
