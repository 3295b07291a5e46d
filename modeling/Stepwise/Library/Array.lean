import Stepwise.Library.Object

/-!
# Functions on arrays

Those that call back into the program are written in the interpreted language; see `Library.Script`.
-/

namespace Stepwise.Library

open Native

/-- The receiver, which has to store elements. -/
def thisArray (c : NativeCall) (method : String) : HeapM Object := do
  match (← get).deref? c.this with
  | some o =>
    if o.cls.hasElements then return o
    else typeError ("Array.prototype." ++ method ++ " called on non-array")
  | none => typeError ("Array.prototype." ++ method ++ " called on non-array")

/-- Replaces the elements of an array. -/
def setElements (o : Object) (elems : Array Value) : HeapM Unit := modify (·.store { o with elems })

/-- A new array: of a given length if the only argument is a number, else of the arguments. -/
def arrayConstructor : Native := fun c => do
  match c.args with
  | [.number n] =>
    if n < 0 || !(n == ofUInt32 (toUInt32 n)) then rangeError "Invalid array length"
    else giveNew (·.newArray (Array.replicate (toUInt32 n).toNat .undefined))
  | args => giveNew (·.newArray args.toArray)

/-- Whether the argument is an array; the arguments of a call are none. -/
def isArray : Native := fun c => do
  giveBool (((← get).deref? (c.arg 0)).any (·.cls == .array))

/-- Adds elements at the end and answers the new length. -/
def arrayPush : Native := fun c => do
  let o ← thisArray c "push"
  let elems := o.elems ++ c.args.toArray
  setElements o elems
  give (.ofNat elems.size)

/-- Drops the last element and answers it. -/
def arrayPop : Native := fun c => do
  let o ← thisArray c "pop"
  match o.elems.back? with
  | none => give .undefined
  | some last =>
    setElements o o.elems.pop
    give last

/-- Drops the first element and answers it. -/
def arrayShift : Native := fun c => do
  let o ← thisArray c "shift"
  match o.elems[0]? with
  | none => give .undefined
  | some first =>
    setElements o (o.elems.drop 1)
    give first

/-- Adds elements at the front and answers the new length. -/
def arrayUnshift : Native := fun c => do
  let o ← thisArray c "unshift"
  let elems := c.args.toArray ++ o.elems
  setElements o elems
  give (.ofNat elems.size)

/-- How many elements a splice removes: none without arguments, all from `start` on with one. -/
def spliceCount (h : Heap) (c : NativeCall) (rest : Nat) : Nat :=
  match c.args.length with
  | 0 => 0
  | 1 => rest
  | _ => clampIndex (c.integer h 1) rest

/-- Replaces a stretch of elements by others and answers those that were there. -/
def arraySplice : Native := fun c => do
  let o ← thisArray c "splice"
  let h ← get
  let start := relativeIndex (c.integer h 0) o.elems.size
  let count := spliceCount h c (o.elems.size - start)
  let removed := o.elems.extract start (start + count)
  setElements o (o.elems.take start ++ (c.args.drop 2).toArray ++ o.elems.drop (start + count))
  giveNew (·.newArray removed)

/-- A new array of a stretch of elements. -/
def arraySlice : Native := fun c => do
  let o ← thisArray c "slice"
  let h ← get
  let start := relativeIndex (c.integer h 0) o.elems.size
  let stop := if (c.arg 1).isUndefined then o.elems.size else relativeIndex (c.integer h 1) o.elems.size
  giveNew (·.newArray (o.elems.extract start stop))

/-- A new array of the elements and the arguments; the elements of arrays stand for them. -/
def arrayConcat : Native := fun c => do
  let o ← thisArray c "concat"
  let h ← get
  let parts (v : Value) : Array Value :=
    match h.deref? v with
    | some other => if other.cls = .array then other.elems else #[v]
    | none => #[v]
  giveNew (·.newArray (c.args.foldl (fun elems v => elems ++ parts v) o.elems))

/-- The answer to a search: the position, or -1. -/
def givePosition (i : Option Nat) : HeapM Reply :=
  match i with
  | some i => give (.ofNat i)
  | none => giveNumber (-1)

/-- The first position of an element that is strictly equal to the argument. -/
def arrayIndexOf : Native := fun c => do
  let o ← thisArray c "indexOf"
  let start := relativeIndex (c.integer (← get) 1) o.elems.size
  givePosition (((o.elems.drop start).findIdx? fun v => v.strictEquals (c.arg 0)).map (· + start))

/-- How many elements a search from the end looks at. -/
def lastIndexCount (h : Heap) (c : NativeCall) (size : Nat) : Nat :=
  if c.args.length ≤ 1 then size
  else
    let start := c.integer h 1
    if start < 0 then (truncateToInt (Float.ofNat size + start + 1)).toNat
    else clampIndex (start + 1) size

/-- The last position of an element that is strictly equal to the argument. -/
def arrayLastIndexOf : Native := fun c => do
  let o ← thisArray c "lastIndexOf"
  let count := lastIndexCount (← get) c o.elems.size
  let fromEnd := (o.elems.take count).reverse.findIdx? fun v => v.strictEquals (c.arg 0)
  givePosition (fromEnd.map fun i => count - 1 - i)

/-- Turns the order of the elements around. -/
def arrayReverse : Native := fun c => do
  let o ← thisArray c "reverse"
  setElements o o.elems.reverse
  give c.this

/-- The texts of the elements with a separator between them; null and undefined have none. -/
def arrayJoin : Native := fun c => do
  let o ← thisArray c "join"
  let h ← get
  let separator := if (c.arg 0).isUndefined then "," else h.toText (c.arg 0)
  let part (v : Value) : String := if v.isNullish then "" else h.toText v
  giveText (String.intercalate separator (o.elems.toList.map part))

/-- The elements as a text, or the class of a receiver that has none. -/
def arrayToString : Native := fun c => do
  let h ← get
  if (h.deref? c.this).any (·.cls.hasElements) then giveText (h.toText c.this) else objectToString c

/-- What every array inherits. -/
def arrayMethods : List Method :=
  [⟨"push", 1, arrayPush⟩, ⟨"pop", 0, arrayPop⟩, ⟨"shift", 0, arrayShift⟩,
   ⟨"unshift", 1, arrayUnshift⟩, ⟨"splice", 2, arraySplice⟩, ⟨"slice", 2, arraySlice⟩,
   ⟨"concat", 1, arrayConcat⟩, ⟨"indexOf", 1, arrayIndexOf⟩, ⟨"lastIndexOf", 1, arrayLastIndexOf⟩,
   ⟨"reverse", 0, arrayReverse⟩, ⟨"join", 1, arrayJoin⟩, ⟨"toString", 0, arrayToString⟩]

end Stepwise.Library
