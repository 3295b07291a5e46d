import Stepwise.Decimal.Numeral
import Stepwise.Text.Search
import Stepwise.Yaml.Basic

/-!
# Reading YAML

Mappings and sequences are read by indentation or in brackets, scalars plain, in quotes or as blocks.
Anchors, tags and directives are not read, and a mapping holds a key only once.

The readers take the rest of the text and return what is left of it. Readers of whole values end at the
start of a line.
-/

namespace Stepwise.Yaml

/-- A blank within a line. -/
def isGap (c : Char) : Bool := c == ' ' || c == '\t'

/-- A blank or the end of a line. -/
def isSpace (c : Char) : Bool := isGap c || c == '\n'

/-- Whether a word ends before `cs`. -/
def endsWord (cs : List Char) : Bool := (cs.head?.map isSpace).getD true

/-- Whether a document may hold this character. -/
def isAllowed (c : Char) : Bool :=
  let n := c.toNat
  c == '\t' || c == '\n' || (0x20 ≤ n && n ≤ 0x7E) || n == 0x85 ||
    (0xA0 ≤ n && n ≤ 0xFFFD && n != 0xFEFF) || 0x10000 ≤ n

/-- The text with all line ends written as line feeds. -/
def unifyLines : List Char → List Char
  | [] => []
  | '\x0d' :: '\n' :: cs => '\n' :: unifyLines cs
  | '\x0d' :: cs => '\n' :: unifyLines cs
  | c :: cs => c :: unifyLines cs

/-- The spaces at the start of a line. -/
def indentOf (cs : List Char) : Nat := (cs.takeWhile (· == ' ')).length

/-- The text after the current line. -/
def nextLine (cs : List Char) : List Char := (cs.dropWhile (· != '\n')).drop 1

/-- The next line, if the current one holds nothing more than a comment. -/
def endLine? (cs : List Char) : Option (List Char) :=
  match cs.dropWhile isGap with
  | [] => some []
  | '\n' :: rest => some rest
  | '#' :: rest => if (cs.head?.map isGap).getD false then some (nextLine rest) else none
  | _ => none

/-- The text from the first line that holds more than a comment. -/
def skipLines : (turns : Nat) → List Char → List Char
  | 0, cs => cs
  | turns + 1, cs =>
    match cs.dropWhile isGap with
    | [] => []
    | '\n' :: rest => skipLines turns rest
    | '#' :: rest => skipLines turns (nextLine rest)
    | _ => cs

/-- What the blanks around line ends within a scalar stand for: a space, or the empty lines. -/
def foldBreaks (blanks : List Char) : List Char :=
  let breaks := blanks.filter (· == '\n')
  if breaks.length ≤ 1 then [' '] else breaks.drop 1

/-! ### Quoted scalars -/

/-- The rest of a text in single quotes, where a quote is doubled. -/
def readSingle : (turns : Nat) → (acc : List Char) → List Char → Option (String × List Char)
  | turns + 1, acc, '\x27' :: '\x27' :: cs => readSingle turns ('\x27' :: acc) cs
  | _ + 1, acc, '\x27' :: cs => some (String.ofList acc.reverse, cs)
  | turns + 1, acc, '\n' :: cs =>
    let blanks := cs.takeWhile isSpace
    readSingle turns (foldBreaks ('\n' :: blanks) ++ acc.dropWhile isGap) (cs.drop blanks.length)
  | turns + 1, acc, c :: cs => readSingle turns (c :: acc) cs
  | _, _, _ => none

/-- What an escape of one character stands for. -/
def escape? : Char → Option Char
  | '0' => some '\x00'
  | 'a' => some '\x07'
  | 'b' => some '\x08'
  | 't' | '\t' => some '\t'
  | 'n' => some '\n'
  | 'v' => some '\x0b'
  | 'f' => some '\x0c'
  | 'r' => some '\x0d'
  | 'e' => some '\x1b'
  | ' ' => some ' '
  | '"' => some '"'
  | '/' => some '/'
  | '\\' => some '\\'
  | 'N' => some '\x85'
  | '_' => some '\xa0'
  | 'L' => some '\u2028'
  | 'P' => some '\u2029'
  | _ => none

/-- The digits of an escape by code point. -/
def escapeWidth? : Char → Option Nat
  | 'x' => some 2
  | 'u' => some 4
  | 'U' => some 8
  | _ => none

/-- A character written as hexadecimal digits. -/
def ofHex? (ds : List Char) : Option Char := do
  let n ← ds.foldlM (fun n c => (digitBelow? 16 c).map (n * 16 + ·)) 0
  if n.isValidChar then some (Char.ofNat n) else none

/-- The rest of a text in double quotes. -/
def readDouble : (turns : Nat) → (acc : List Char) → List Char → Option (String × List Char)
  | _ + 1, acc, '"' :: cs => some (String.ofList acc.reverse, cs)
  | turns + 1, acc, '\\' :: '\n' :: cs => readDouble turns acc (cs.dropWhile isSpace)
  | turns + 1, acc, '\\' :: c :: cs =>
    match escape? c, escapeWidth? c with
    | some e, _ => readDouble turns (e :: acc) cs
    | none, some width =>
      if cs.length < width then none
      else (ofHex? (cs.take width)).bind fun e => readDouble turns (e :: acc) (cs.drop width)
    | none, none => none
  | turns + 1, acc, '\n' :: cs =>
    let blanks := cs.takeWhile isSpace
    readDouble turns (foldBreaks ('\n' :: blanks) ++ acc.dropWhile isGap) (cs.drop blanks.length)
  | turns + 1, acc, c :: cs => readDouble turns (c :: acc) cs
  | _, _, _ => none

/-- A text in quotes, if `cs` starts with one. -/
def readQuoted? : List Char → Option (String × List Char)
  | '\x27' :: cs => readSingle (cs.length + 1) [] cs
  | '"' :: cs => readDouble (cs.length + 1) [] cs
  | _ => none

/-! ### Plain scalars -/

/-- Whether `cs` starts a plain scalar. -/
def startsPlain : List Char → Bool
  | [] => false
  | c :: cs =>
    if c == '-' || c == '?' || c == ':' then !endsWord cs else !isYamlIndicator c && !isSpace c

/-- Whether `cs` starts an item of a sequence. -/
def startsItem : List Char → Bool
  | '-' :: cs => endsWord cs
  | _ => false

/-- Whether `c` is a bracket or a comma. -/
def isFlowMark (c : Char) : Bool := ",[]\x7b\x7d".toList.contains c

/-- A plain scalar up to the end of its line in reverse, and what follows it. -/
def readPlain ( inFlow : Bool) (acc : List Char) : List Char → List Char × List Char
  | [] => (acc, [])
  | c :: cs =>
    let stops :=
      c == '\n' ||
      (c == ':' && (endsWord cs || (inFlow && (cs.head?.map isFlowMark).getD false))) ||
      (c == '#' && (acc.head?.map isGap).getD false) ||
      ( inFlow && isFlowMark c)
    if stops then (acc.dropWhile isGap, c :: cs) else readPlain inFlow (c :: acc) cs

/-- A plain scalar with its further lines, each indented by `least` or more. -/
def readPlainLines (least : Nat) : (turns : Nat) → (acc : List Char) → List Char → Option (List Char × List Char)
  | 0, _, _ => none
  | turns + 1, acc, cs =>
    let (acc, rest) := readPlain false acc cs
    match rest with
    | [] => some (acc, [])
    | '\n' :: rest =>
      let blanks := rest.takeWhile isSpace
      let line := rest.drop blanks.length
      let column := (blanks.reverse.takeWhile (· == ' ')).length
      if line.isEmpty ∨ column < least ∨ line.head? = some '#' then some (acc, rest)
      else readPlainLines least turns (foldBreaks ('\n' :: blanks) ++ acc) line
    | '#' :: rest => some (acc, nextLine rest)
    | _ => none

/-! ### Values in brackets -/

/-- The text after blanks, line ends and comments. -/
def skipFlow : (turns : Nat) → List Char → List Char
  | 0, cs => cs
  | turns + 1, cs =>
    match cs.dropWhile isSpace with
    | '#' :: rest => skipFlow turns (nextLine rest)
    | rest => rest

mutual

/-- A value within brackets. -/
def readFlow : (turns : Nat) → List Char → Option (Yaml × List Char)
  | 0, _ => none
  | turns + 1, cs =>
    match skipFlow (turns + 1) cs with
    | '[' :: cs => do
      let (items, cs) ← readFlowItems turns cs
      return (.sequence items, cs)
    | '\x7b' :: cs => do
      let (entries, cs) ← readFlowEntries turns [] cs
      return (.mapping entries, cs)
    | cs =>
      match readQuoted? cs with
      | some (text, cs) => some (.scalar text .quoted, cs)
      | none =>
        if startsPlain cs then
          let (text, cs) := readPlain true [] cs
          some (.scalar (String.ofList text.reverse) .plain, cs)
        else none

/-- The items of a sequence up to its bracket. -/
def readFlowItems : (turns : Nat) → List Char → Option (List Yaml × List Char)
  | 0, _ => none
  | turns + 1, cs =>
    match skipFlow (turns + 1) cs with
    | ']' :: cs => some ([], cs)
    | cs => do
      let (item, cs) ← readFlow turns cs
      match skipFlow (turns + 1) cs with
      | ',' :: cs =>
        let (items, cs) ← readFlowItems turns cs
        return (item :: items, cs)
      | ']' :: cs => return ([item], cs)
      | _ => none

/-- The entries of a mapping up to its bracket; `keys` were there before. -/
def readFlowEntries : (turns : Nat) → (keys : List String) → List Char → Option (List (String × Yaml) × List Char)
  | 0, _, _ => none
  | turns + 1, keys, cs =>
    match skipFlow (turns + 1) cs with
    | '\x7d' :: cs => some ([], cs)
    | cs => do
      let (key, cs) ← readFlow turns cs
      let key ← key.text?
      if keys.contains key then none
      let (value, cs) ← match skipFlow (turns + 1) cs with
        | ':' :: cs =>
          match skipFlow (turns + 1) cs with
          | ',' :: cs => some (null, ',' :: cs)
          | '\x7d' :: cs => some (null, '\x7d' :: cs)
          | cs => readFlow turns cs
        | cs => some (null, cs)
      match skipFlow (turns + 1) cs with
      | ',' :: cs =>
        let (entries, cs) ← readFlowEntries turns (key :: keys) cs
        return ((key, value) :: entries, cs)
      | '\x7d' :: cs => return ([(key, value)], cs)
      | _ => none

end

/-! ### Block scalars -/

/-- The lines of a block that is indented by `column`, and the lines after it. -/
def blockLines (column : Nat) : List (List Char) → List (List Char) × List (List Char)
  | [] => ([], [])
  | line :: lines =>
    if line.all (· == ' ') ∨ column ≤ indentOf line then
      let (block, rest) := blockLines column lines
      (line.drop column :: block, rest)
    else ([], line :: lines)

/-- Lines joined by spaces; empty lines stay line ends. -/
def foldLines : List (List Char) → List Char
  | [] => []
  | [line] => line
  | [] :: lines => '\n' :: foldLines lines
  | line :: [] :: lines => line ++ foldLines ([] :: lines)
  | line :: lines => line ++ ' ' :: foldLines lines

/-- A scalar that is written as a block of lines after `|` or `>`. -/
def readBlockScalar (least : Nat) (folded : Bool) (cs : List Char) : Option (Yaml × List Char) := do
  let mark := cs.takeWhile fun c => c == '-' || c == '+'
  let rest ← endLine? (cs.drop mark.length)
  let lines := splitText ['\n'] rest
  let column := ((lines.find? fun line => !line.all (· == ' ')).map indentOf).getD 0
  let (block, after) := if column < least then ([], lines) else blockLines column lines
  let kept := (block.reverse.dropWhile List.isEmpty).reverse
  let body := if folded then foldLines kept else ['\n'].intercalate kept
  let ending := match mark with
    | ['-'] => []
    | ['+'] => List.replicate (block.length - kept.length + 1) '\n'
    | _ => if kept.isEmpty then [] else ['\n']
  return (.scalar (String.ofList (body ++ ending)) .quoted, ['\n'].intercalate after)

/-! ### Values by indentation -/

/-- The key that a line starts with, and what follows its colon. -/
def readKey? (cs : List Char) : Option (String × List Char) := do
  let (key, rest) ←
    match readQuoted? cs with
    | some (key, rest) => some (key, rest.dropWhile isGap)
    | none =>
      if startsPlain cs then
        let (key, rest) := readPlain false [] cs
        some (String.ofList key.reverse, rest)
      else none
  match rest with
  | ':' :: rest => if endsWord rest then some (key, rest) else none
  | _ => none

/-- A value that starts within a line. Its further lines are indented by `least` or more. -/
def readInline (least : Nat) (cs : List Char) : Option (Yaml × List Char) :=
  match cs with
  | '|' :: rest => readBlockScalar least false rest
  | '>' :: rest => readBlockScalar least true rest
  | _ =>
    if (cs.head?.map fun c => c == '[' || c == '\x7b').getD false then do
      let (value, rest) ← readFlow (2 * cs.length + 2) cs
      return (value, ← endLine? rest)
    else
      match readQuoted? cs with
      | some (text, rest) => do return (.scalar text .quoted, ← endLine? rest)
      | none =>
        if startsPlain cs then do
          let (text, rest) ← readPlainLines least (cs.length + 1) [] cs
          return (.scalar (String.ofList text.reverse) .plain, rest)
        else none

mutual

/-- A value that starts on a line of its own, indented by `least` or more; no value if there is none. -/
def readBlock (least : Nat) : (turns : Nat) → List Char → Option (Yaml × List Char)
  | 0, _ => none
  | turns + 1, cs =>
    let cs := skipLines (cs.length + 1) cs
    let column := indentOf cs
    let body := cs.drop column
    if cs.isEmpty ∨ column < least then some (null, cs)
    else if startsItem body then do
      let (items, rest) ← readItems column turns cs
      return (.sequence items, rest)
    else if (readKey? body).isSome then do
      let (entries, rest) ← readEntries column turns [] cs
      return (.mapping entries, rest)
    else readInline least body

/-- The items of a sequence whose dashes stand at `column`. -/
def readItems (column : Nat) : (turns : Nat) → List Char → Option (List Yaml × List Char)
  | 0, _ => none
  | turns + 1, cs =>
    let cs := skipLines (cs.length + 1) cs
    let here := indentOf cs
    if cs.isEmpty ∨ here < column then some ([], cs)
    else if column < here then none
    else if startsItem (cs.drop column) then do
      -- The item is read as if a space stood in place of the dash.
      let (item, rest) ← readBlock (column + 1) turns (cs.take column ++ ' ' :: cs.drop (column + 1))
      let (items, rest) ← readItems column turns rest
      return (item :: items, rest)
    else some ([], cs)

/-- The entries of a mapping whose keys stand at `column`; `keys` were there before. -/
def readEntries (column : Nat) : (turns : Nat) → (keys : List String) → List Char →
    Option (List (String × Yaml) × List Char)
  | 0, _, _ => none
  | turns + 1, keys, cs =>
    let cs := skipLines (cs.length + 1) cs
    let here := indentOf cs
    if cs.isEmpty ∨ here < column then some ([], cs)
    else if column < here then none
    else do
      let (key, rest) ← readKey? (cs.drop column)
      if keys.contains key then none
      let (value, rest) ← readValue column turns rest
      let (entries, rest) ← readEntries column turns (key :: keys) rest
      return ((key, value) :: entries, rest)

/-- The value after the colon of a key at `column`. The dashes of a sequence may stand below the key. -/
def readValue (column : Nat) : (turns : Nat) → List Char → Option (Yaml × List Char)
  | 0, _ => none
  | turns + 1, cs =>
    match endLine? cs with
    | none => readInline (column + 1) (cs.dropWhile isGap)
    | some rest =>
      let rest := skipLines (rest.length + 1) rest
      if indentOf rest = column ∧ startsItem (rest.drop column) then do
        let (items, rest) ← readItems column turns rest
        return (.sequence items, rest)
      else readBlock (column + 1) turns rest

end

/-- Whether a line starts or ends a document. -/
def isMarker : List Char → Bool
  | '-' :: '-' :: '-' :: cs => endsWord cs
  | '.' :: '.' :: '.' :: cs => endsWord cs
  | _ => false

/-- The text of the first document. -/
def firstDocument (cs : List Char) : List Char :=
  let cs := skipLines (cs.length + 1) cs
  let cs := if isMarker cs ∧ cs.head? = some '-' then ' ' :: ' ' :: ' ' :: cs.drop 3 else cs
  ['\n'].intercalate ((splitText ['\n'] cs).takeWhile (!isMarker ·))

/-- The value of a document. -/
def parse? (text : String) : Option Yaml := do
  let cs := unifyLines (text.toList.dropWhile (· == '\uFEFF'))
  if !cs.all isAllowed then none
  let cs := firstDocument cs
  let (value, rest) ← readBlock 0 (3 * cs.length + 3) cs
  if (skipLines (rest.length + 1) rest).isEmpty then some value else none

end Stepwise.Yaml
