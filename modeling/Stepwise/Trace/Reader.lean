import Stepwise.Decimal.Numeral
import Stepwise.Json.Reader
import Stepwise.Text.Quoted
import Stepwise.Trace.Printer

/-!
# Reading traces

A field that is missing keeps its default, and so does one that is null. A field of the wrong type is
an error, but one that is noticed only at the end: an unknown kind of value further on comes first.
-/

namespace Stepwise

/-- Why a trace cannot be read. -/
inductive TraceError where
  /-- The text is no JSON, or a field has the wrong type. -/
  | malformed
  | unknownValueKind (kind : String)
  | unknownElementKind (kind : String)
  /-- An entry of an object has no value. -/
  | missingValue
  deriving DecidableEq, Repr

/-- The wording of an error. -/
def TraceError.message : TraceError → String
  | malformed => "malformed trace"
  | unknownValueKind kind => "trace: unknown value kind " ++ quoted kind
  | unknownElementKind kind => "trace: unknown heap element kind " ++ quoted kind
  | missingValue => "trace: unknown value kind " ++ quoted ""

namespace TraceReader

/-- Errors that are reported at the end. -/
structure Pending where
  malformed : Bool := false
  missingValue : Bool := false

/-- Reads a part of a trace. -/
abbrev Decoder := StateT Pending (Except TraceError)

/-- Notes a field of the wrong type, and keeps what was there. -/
def wrongType {α : Type} (old : α) : Decoder α := do
  modify fun p => { p with malformed := true }
  return old

/-- The text of a field. -/
def text (old : String) : Json → Decoder String
  | .str s => return s
  | .null => return old
  | _ => wrongType old

/-- The integer of a field. -/
def int (old : Int) (j : Json) : Decoder Int :=
  match j, j.int64? with
  | .null, _ => return old
  | _, some n => return n
  | _, none => wrongType old

/-- The list of a field. -/
def items {α : Type} (item : Json → Decoder α) (old : Option (List α)) : Json → Decoder (Option (List α))
  | .arr xs => return some (← xs.mapM item)
  | .null => return none
  | _ => wrongType old

/-- The map of a field. Its keys are added to those that are there. -/
def entries {α : Type} (item : Json → Decoder α) (old : Option (Std.TreeMap String α)) :
    Json → Decoder (Option (Std.TreeMap String α))
  | .obj members => do
    let m ← members.foldlM (fun m (k, j) => return m.insert k (← item j)) (old.getD {})
    return some m
  | .null => return none
  | _ => wrongType old

/-- A record: each member sets the field of its name, in any case of letters. -/
def record {α : Type} (names : List String) (set : α → String → Json → Decoder α) (old : α) :
    Json → Decoder α
  | .obj members =>
    members.foldlM (fun a (key, j) =>
      match (names.find? (· == key)).or (names.find? (Json.sameName key)) with
      | some name => set a name j
      | none => return a) old
  | .null => return old
  | _ => wrongType old

/-- A part that is checked as a whole: a wrong type inside is an error at once. -/
def checked {α : Type} (d : Decoder α) : Decoder α := do
  let p ← get
  set { p with malformed := false }
  let a ← d
  if (← get).malformed then throw .malformed
  modify fun q => { q with malformed := p.malformed }
  return a

/-- The fields of a value before its kind is looked at. -/
structure RawValue where
  kind : String := ""
  value : Option Json := none
  ref : String := ""

/-- The value of a record. -/
def value (j : Json) : Decoder TraceValue := do
  let raw ← checked <| record ["kind", "value", "ref"] (fun (r : RawValue) name j => do
    match name with
    | "kind" => return { r with kind := ← text r.kind j }
    | "value" => return { r with value := some j }
    | _ => return { r with ref := ← text r.ref j }) {} j
  match raw.kind, raw.value with
  | "number", some (.num literal) =>
    match readFloat? literal with
    | some n => return .number n
    | none => throw .malformed
  | "number", some .null => return .number 0
  | "string", some (.str s) => return .string s
  | "string", some .null => return .string ""
  | "boolean", some (.bool b) => return .boolean b
  | "boolean", some .null => return .boolean false
  | "number", _ | "string", _ | "boolean", _ => throw .malformed
  | "null", _ => return .null
  | "undefined", _ => return .undefined
  | "NaN", _ => return .nan
  | "Infinity", _ => return .infinity
  | "-Infinity", _ => return .negativeInfinity
  | "pointer", _ => return .pointer raw.ref
  | kind, _ => throw (.unknownValueKind kind)

/-- An entry of an object, which may lack its value. -/
def entry (j : Json) : Decoder (String × Option TraceValue) :=
  record ["key", "value"] (fun (key, v) name j => do
    match name with
    | "key" => return (← text key j, v)
    | _ => return (key, some (← value j))) ("", none) j

/-- The fields of an element before its kind is looked at. -/
structure RawElement where
  kind : String := ""
  id : String := ""
  values : Option (List TraceValue) := none
  entries : Option (List (String × Option TraceValue)) := none
  name : String := ""
  code : String := ""

/-- The element of a record. -/
def element (j : Json) : Decoder HeapElement := do
  let raw ← checked <| record ["kind", "id", "values", "entries", "name", "code"]
    (fun (r : RawElement) name j => do
      match name with
      | "kind" => return { r with kind := ← text r.kind j }
      | "id" => return { r with id := ← text r.id j }
      | "values" => return { r with values := ← items value r.values j }
      | "entries" => return { r with entries := ← items entry r.entries j }
      | "name" => return { r with name := ← text r.name j }
      | _ => return { r with code := ← text r.code j }) {} j
  match raw.kind with
  | "array" => return .array raw.id (raw.values.getD [])
  | "object" =>
    let entries := raw.entries.getD []
    if entries.any (·.2.isNone) then modify fun p => { p with missingValue := true }
    return .object raw.id (entries.map fun (k, v) => (k, v.getD .undefined))
  | "function" => return .function raw.id raw.name raw.code
  | kind => throw (.unknownElementKind kind)

/-- A line of output. -/
def outputLine (j : Json) : Decoder OutputLine :=
  record ["content", "line"] (fun (l : OutputLine) name j => do
    match name with
    | "content" => return { l with content := ← text l.content j }
    | _ => return { l with line := ← int l.line j }) ⟨"", 0⟩ j

/-- A value that may be null. -/
def value? : Json → Decoder (Option TraceValue)
  | .null => return none
  | j => return some (← value j)

/-- A text that may be null. -/
def text? (old : Option String) : Json → Decoder (Option String)
  | .null => return none
  | .str s => return some s
  | _ => wrongType old

/-- A call. -/
def frame (j : Json) : Decoder StackFrame :=
  record ["frame_id", "function_name", "function_code", "code_line_start", "code_col_start",
    "code_line_end", "code_col_end", "state_line_start", "state_col_start", "state_line_end",
    "state_col_end", "locals", "ordered_locals", "return_value"]
    (fun (f : StackFrame) name j => do
      match name with
      | "frame_id" => return { f with frameId := ← int f.frameId j }
      | "function_name" => return { f with functionName := ← text f.functionName j }
      | "function_code" => return { f with functionCode := ← text f.functionCode j }
      | "code_line_start" => return { f with code.lineStart := ← int f.code.lineStart j }
      | "code_col_start" => return { f with code.colStart := ← int f.code.colStart j }
      | "code_line_end" => return { f with code.lineEnd := ← int f.code.lineEnd j }
      | "code_col_end" => return { f with code.colEnd := ← int f.code.colEnd j }
      | "state_line_start" => return { f with state.lineStart := ← int f.state.lineStart j }
      | "state_col_start" => return { f with state.colStart := ← int f.state.colStart j }
      | "state_line_end" => return { f with state.lineEnd := ← int f.state.lineEnd j }
      | "state_col_end" => return { f with state.colEnd := ← int f.state.colEnd j }
      | "locals" => return { f with locals := ← entries value f.locals j }
      | "ordered_locals" => return { f with orderedLocals := ← items (text "") f.orderedLocals j }
      | _ => return { f with returnValue := ← value? j }) {} j

/-- A step. -/
def step (j : Json) : Decoder TraceStep :=
  record ["stdout", "line_start", "line_end", "col_start", "col_end", "function_name", "event",
    "stack_frames", "heap", "exception_message"]
    (fun (s : TraceStep) name j => do
      match name with
      | "stdout" => return { s with stdout := ← items outputLine s.stdout j }
      | "line_start" => return { s with range.lineStart := ← int s.range.lineStart j }
      | "line_end" => return { s with range.lineEnd := ← int s.range.lineEnd j }
      | "col_start" => return { s with range.colStart := ← int s.range.colStart j }
      | "col_end" => return { s with range.colEnd := ← int s.range.colEnd j }
      | "function_name" => return { s with functionName := ← text s.functionName j }
      | "event" => return { s with event := .ofName (← text s.event.name j) }
      | "stack_frames" => return { s with frames := ← items frame s.frames j }
      | "heap" => return { s with heap := ← entries element s.heap j }
      | _ => return { s with exceptionMessage := ← text? s.exceptionMessage j }) {} j

/-- A step that may be null. -/
def step? : Json → Decoder (Option TraceStep)
  | .null => return none
  | j => return some (← step j)

/-- A run. -/
def trace (j : Json) : Decoder Trace :=
  record ["programCode", "steps"] (fun (t : Trace) name j => do
    match name with
    | "programCode" => return { t with programCode := ← text t.programCode j }
    | _ => return { t with steps := ← items step? t.steps j }) {} j

/-- Reads a text as a whole. -/
def ofText {α : Type} (d : Json → Decoder α) (s : String) : Except TraceError α := do
  match Json.parse? s with
  | none => throw .malformed
  | some j =>
    let (a, p) ← (d j).run {}
    if p.malformed then throw .malformed
    if p.missingValue then throw .missingValue
    return a

end TraceReader

end Stepwise
