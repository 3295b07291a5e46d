import Stepwise.Library.Array
import Stepwise.Text.Case
import Stepwise.Text.Search
import Stepwise.Text.Units

/-!
# Functions on strings

Strings are sequences of characters; positions count characters.
-/

namespace Stepwise.Library

open Native

/-- The characters of the receiver, which is converted to a string. -/
def thisChars (c : NativeCall) (method : String) : HeapM (List Char) := do
  if c.this.isNullish then typeError ("String.prototype." ++ method ++ " called on null or undefined")
  else return ((← get).toText c.this).toList

/-- Answers characters as a string. -/
def giveChars (cs : List Char) : HeapM Reply := giveText (String.ofList cs)

/-- The argument as a string. -/
def stringConstructor : Native := fun c => do
  let h ← get
  giveWrapped c (.string (c.args.head?.elim "" h.toText))

/-- The character at a position. One of more than 64 bits is converted to a negative position, where nothing can be
read. -/
def charAt? (c : NativeCall) (h : Heap) (cs : List Char) : Option Char :=
  let i := c.integer h 0
  let position := truncateToWord i
  if i < 0 || position < 0 then none else cs[position.toNat]?

/-- The character at a position; the empty string outside. -/
def stringCharAt : Native := fun c => do
  let cs ← thisChars c "charAt"
  giveChars (charAt? c (← get) cs).toList

/-- The code point at a position; not a number outside. -/
def stringCharCodeAt : Native := fun c => do
  let cs ← thisChars c "charCodeAt"
  match charAt? c (← get) cs with
  | some ch => give (.ofNat ch.toNat)
  | none => giveNumber notANumber

/-- The first position of a part. -/
def stringIndexOf : Native := fun c => do
  let cs ← thisChars c "indexOf"
  let h ← get
  let start := clampIndex (c.integer h 1) cs.length
  givePosition (findText? (h.toText (c.arg 0)).toList start (cs.drop start))

/-- The last position of a part. -/
def stringLastIndexOf : Native := fun c => do
  let cs ← thisChars c "lastIndexOf"
  let h ← get
  let part := (h.toText (c.arg 0)).toList
  let all := cs.length + 1 - part.length
  let n := h.toNumber (c.arg 1)
  let count := if n.isNaN then all else min all (clampIndex (toInteger n) cs.length + 1)
  givePosition (findLastText? part cs count)

/-- The characters between two positions, which may count from the end. -/
def stringSlice : Native := fun c => do
  let cs ← thisChars c "slice"
  let h ← get
  let start := relativeIndex (c.integer h 0) cs.length
  let stop := if (c.arg 1).isUndefined then cs.length else relativeIndex (c.integer h 1) cs.length
  giveChars ((cs.take stop).drop start)

/-- The characters between two positions in either order. -/
def stringSubstring : Native := fun c => do
  let cs ← thisChars c "substring"
  let h ← get
  let a := clampIndex (c.integer h 0) cs.length
  let b := if (c.arg 1).isUndefined then cs.length else clampIndex (c.integer h 1) cs.length
  giveChars ((cs.take (max a b)).drop (min a b))

/-- A number of characters from a position on. -/
def stringSubstr : Native := fun c => do
  let cs ← thisChars c "substr"
  let h ← get
  let rest := cs.drop (relativeIndex (c.integer h 0) cs.length)
  giveChars (if (c.arg 1).isUndefined then rest else rest.take (clampIndex (c.integer h 1) rest.length))

/-- The receiver in upper case. -/
def stringToUpperCase : Native := fun c => do
  giveText (toUpperCase (String.ofList (← thisChars c "toUpperCase")))

/-- The receiver in lower case. -/
def stringToLowerCase : Native := fun c => do
  giveText (toLowerCase (String.ofList (← thisChars c "toLowerCase")))

/-- The receiver without the blanks around it. -/
def stringTrim : Native := fun c => do
  giveChars (trimBlankChars (← thisChars c "trim"))

/-- The pieces of the receiver between separators, up to a limit. -/
def stringSplit : Native := fun c => do
  let cs ← thisChars c "split"
  let h ← get
  let parts :=
    if (c.arg 0).isUndefined then [cs] else splitText (h.toText (c.arg 0)).toList cs
  let kept :=
    if (c.arg 1).isUndefined then parts else parts.take (toUInt32 (h.toNumber (c.arg 1))).toNat
  giveNew (·.newTexts (kept.map String.ofList))

/-- The receiver and the arguments as one string. -/
def stringConcat : Native := fun c => do
  let cs ← thisChars c "concat"
  let h ← get
  giveText (c.args.foldl (fun s v => s ++ h.toText v) (String.ofList cs))

/-- Replaces the first occurrence; a function as replacement is refused. -/
def stringReplace : Native := fun c => do
  let cs ← thisChars c "replace"
  let h ← get
  if h.isCallable (c.arg 1) then typeError "String.prototype.replace with a function is not supported"
  else
    let part := (h.toText (c.arg 0)).toList
    let replacement := (h.toText (c.arg 1)).toList
    match findText? part 0 cs with
    | some i => giveChars (cs.take i ++ replacement ++ cs.drop (i + part.length))
    | none => giveChars cs

/-- The string of the receiver. -/
def stringValueOf : Native := fun c => do
  match c.this, (← get).deref? c.this with
  | .string s, _ => giveText s
  | _, some { cls := .string, primitive := some p, .. } => give p
  | _, _ => typeError "String.prototype.valueOf requires that 'this' be a String"

/-- The string of some UTF-16 units. -/
def fromCharCode : Native := fun c => do
  let h ← get
  giveChars (decodeUnits (c.args.map fun v => (toUInt32 (h.toNumber v)).toNat % Nat.pow 2 16))

/-- What every string inherits. -/
def stringMethods : List Method :=
  [⟨"charAt", 1, stringCharAt⟩, ⟨"charCodeAt", 1, stringCharCodeAt⟩, ⟨"indexOf", 1, stringIndexOf⟩,
   ⟨"lastIndexOf", 1, stringLastIndexOf⟩, ⟨"slice", 2, stringSlice⟩,
   ⟨"substring", 2, stringSubstring⟩, ⟨"substr", 2, stringSubstr⟩,
   ⟨"toUpperCase", 0, stringToUpperCase⟩, ⟨"toLowerCase", 0, stringToLowerCase⟩,
   ⟨"trim", 0, stringTrim⟩, ⟨"split", 2, stringSplit⟩, ⟨"concat", 1, stringConcat⟩,
   ⟨"replace", 2, stringReplace⟩, ⟨"toString", 0, stringValueOf⟩, ⟨"valueOf", 0, stringValueOf⟩]

end Stepwise.Library
