import Stepwise.Heap.Property
import Stepwise.Tree.Operator

/-!
# Operators on values

What the operators of expressions compute from evaluated operands.
-/

namespace Stepwise

namespace Heap

/-- Whether `a` is less than `b`; there is no answer if one of them is no number. Two strings are
compared character by character. -/
def less? (h : Heap) (a b : Value) : Option Bool :=
  match h.toPrimitive a, h.toPrimitive b with
  | .string s, .string t => some (s < t)
  | p, q =>
    let x := h.toNumber p
    let y := h.toNumber q
    if x.isNaN || y.isNaN then none else some (x < y)

/-- Concatenates if one side is a string, and adds otherwise. -/
def addValues (h : Heap) (a b : Value) : Value :=
  match h.toPrimitive a, h.toPrimitive b with
  | .string s, q => .string (s ++ h.toText q)
  | p, .string t => .string (h.toText p ++ t)
  | p, q => .number (h.toNumber p + h.toNumber q)

/-- An operation on numbers. -/
def arithmetic (h : Heap) (f : Float → Float → Float) (a b : Value) : Value :=
  .number (f (h.toNumber a) (h.toNumber b))

/-- An operation on 32-bit words. -/
def bitwise (h : Heap) (f : Int32 → Int32 → Int32) (a b : Value) : Value :=
  .number (ofInt32 (f (toInt32 (h.toNumber a)) (toInt32 (h.toNumber b))))

/-- Whether an object has the property that a value names. -/
def within (h : Heap) (key owner : Value) : Except Throw Bool :=
  match h.deref? owner with
  | some o => .ok (h.has o (h.toKey key))
  | none => .error (.inNonObject (h.toText key) (h.toText owner))

/-- The result of a binary operator. -/
def applyBinary (h : Heap) (op : BinaryOp) (a b : Value) : Except Throw Value :=
  match op with
  | .add => .ok (h.addValues a b)
  | .subtract => .ok (h.arithmetic (· - ·) a b)
  | .multiply => .ok (h.arithmetic (· * ·) a b)
  | .divide => .ok (h.arithmetic (· / ·) a b)
  | .modulo => .ok (h.arithmetic remainder a b)
  | .equal => .ok (.bool (h.looselyEqual a b))
  | .notEqual => .ok (.bool (!h.looselyEqual a b))
  | .strictEqual => .ok (.bool (a.strictEquals b))
  | .strictNotEqual => .ok (.bool (!a.strictEquals b))
  | .less => .ok (.bool (h.less? a b == some true))
  | .greater => .ok (.bool (h.less? b a == some true))
  | .lessEqual => .ok (.bool (h.less? b a == some false))
  | .greaterEqual => .ok (.bool (h.less? a b == some false))
  | .bitAnd => .ok (h.bitwise (· &&& ·) a b)
  | .bitOr => .ok (h.bitwise (· ||| ·) a b)
  | .bitXor => .ok (h.bitwise (· ^^^ ·) a b)
  | .shiftLeft => .ok (h.bitwise (fun x y => x <<< (y &&& 31)) a b)
  | .shiftRight => .ok (h.bitwise (fun x y => x >>> (y &&& 31)) a b)
  | .unsignedShift =>
    .ok (.number (ofUInt32 (toUInt32 (h.toNumber a) >>> (toUInt32 (h.toNumber b) &&& 31))))
  | .within => .bool <$> h.within a b
  | .instanceof => .bool <$> h.instanceOf a b

/-- The result of a unary operator other than `delete`. -/
def applyUnary (h : Heap) (op : UnaryOp) (v : Value) : Value :=
  match op with
  | .minus => .number (-h.toNumber v)
  | .plus => .number (h.toNumber v)
  | .not => .bool (!v.truthy)
  | .bitNot => .number (ofInt32 (~~~toInt32 (h.toNumber v)))
  | .typeof => .string (h.typeOf v)
  | .void | .delete => .undefined

end Heap

end Stepwise
