import Atomicity.Scalar

/-!
# Update functions

The functions that a read-modify-write may be asked to apply to a typed value. On integers addition
and multiplication wrap around in the type, and saturating addition stops at the ends of its range;
`complement` and `xor` act on the bits, `min` and `max` compare values, so signed types compare
signed. A pointer is updated as its unsigned address. On truth values the arithmetic is modulo two,
false is less than true, and saturating addition stops at true.
-/

namespace Atomicity

/-- A named function on the values of a scalar type. -/
inductive Update (t : Scalar) where
  | keep
  | complement
  | const (v : t.Value)
  | add (v : t.Value)
  | mul (v : t.Value)
  | xor (v : t.Value)
  | min (v : t.Value)
  | max (v : t.Value)
  | saturatingAdd (v : t.Value)

namespace Update

/-- The same function with its operand carried over to another type. -/
def map {s t : Scalar} (g : s.Value → t.Value) : Update s → Update t
  | keep => .keep
  | complement => .complement
  | const v => .const (g v)
  | add v => .add (g v)
  | mul v => .mul (g v)
  | xor v => .xor (g v)
  | min v => .min (g v)
  | max v => .max (g v)
  | saturatingAdd v => .saturatingAdd (g v)

/-- An update of an integer. -/
def onInteger {k : IntType} (x : k.Value) : Update (.int k) → k.Value
  | keep => x
  | complement => .ofBits (~~~x.toBits)
  | const v => v
  | add v => .wrap k (x.val + IntType.Value.val v)
  | mul v => .wrap k (x.val * IntType.Value.val v)
  | xor v => .ofBits (x.toBits ^^^ IntType.Value.toBits v)
  | min v => if x.val ≤ IntType.Value.val v then x else v
  | max v => if x.val ≤ IntType.Value.val v then v else x
  | saturatingAdd v => .clamp k (x.val + IntType.Value.val v)

/-- An update of a truth value. -/
def onTruth (x : Bool) : Update .bool → Bool
  | keep => x
  | complement => !x
  | const v => v
  | add v | xor v => Bool.xor x v
  | mul v | min v => x && v
  | max v | saturatingAdd v => x || v

/-- The function that an update names. -/
def apply : {t : Scalar} → Update t → t.Value → t.Value
  | .int _, u, x => onInteger x u
  | .bool, u, x => onTruth x u
  | .pointer, u, x =>
    let address (p : Scalar.pointer.Value) : (Scalar.unsigned .w64).Value :=
      IntType.Value.ofBits (Pointer.address p)
    Pointer.mk (onInteger (address x) (u.map address)).toBits

@[simp]
theorem apply_keep {t : Scalar} (x : t.Value) : (keep : Update t).apply x = x := by
  cases t with
  | int => rfl
  | bool => rfl
  | pointer => exact congrArg Pointer.mk (IntType.Value.toBits_ofBits _)

@[simp]
theorem apply_const {t : Scalar} (v x : t.Value) : (const v).apply x = v := by
  cases t with
  | int => rfl
  | bool => rfl
  | pointer => exact congrArg Pointer.mk (IntType.Value.toBits_ofBits _)

end Update

end Atomicity
