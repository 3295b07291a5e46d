import Stepwise.Decimal.Layout
import Stepwise.Json.Basic
import Stepwise.Trace.Basic

/-!
# Traces as JSON
-/

namespace Stepwise

/-- A list or map that is written as null if it is missing. -/
def Json.orNull {α : Type} (write : α → Json) : Option α → Json
  | some a => write a
  | none => .null

/-- A map as an object, its keys in order. -/
def Json.map {α : Type} (write : α → Json) (m : Std.TreeMap String α) : Json :=
  .obj (m.toList.map fun (k, a) => (k, write a))

/-- A value as a record with its kind. -/
def TraceValue.toJson : TraceValue → Json
  | number n => .obj [("kind", .str "number"), ("value", .num (NumberStyle.json.render n))]
  | string s => .obj [("kind", .str "string"), ("value", .str s)]
  | boolean b => .obj [("kind", .str "boolean"), ("value", .bool b)]
  | null => .obj [("kind", .str "null")]
  | undefined => .obj [("kind", .str "undefined")]
  | nan => .obj [("kind", .str "NaN")]
  | infinity => .obj [("kind", .str "Infinity")]
  | negativeInfinity => .obj [("kind", .str "-Infinity")]
  | pointer ref => .obj [("kind", .str "pointer"), ("ref", .str ref)]

/-- An element of the heap as a record with its kind. -/
def HeapElement.toJson : HeapElement → Json
  | array id values =>
    .obj [("kind", .str "array"), ("id", .str id), ("values", .arr (values.map TraceValue.toJson))]
  | object id entries =>
    .obj [("kind", .str "object"), ("id", .str id), ("entries", .arr (entries.map fun (key, v) =>
      .obj [("key", .str key), ("value", v.toJson)]))]
  | function id name code =>
    .obj [("kind", .str "function"), ("id", .str id), ("name", .str name), ("code", .str code)]

/-- A line of output as a record. -/
def OutputLine.toJson (l : OutputLine) : Json := .obj [("content", .str l.content), ("line", .int l.line)]

/-- A call as a record. -/
def StackFrame.toJson (f : StackFrame) : Json :=
  .obj ([("frame_id", .int f.frameId), ("function_name", .str f.functionName),
    ("function_code", .str f.functionCode),
    ("code_line_start", .int f.code.lineStart), ("code_col_start", .int f.code.colStart),
    ("code_line_end", .int f.code.lineEnd), ("code_col_end", .int f.code.colEnd),
    ("state_line_start", .int f.state.lineStart), ("state_col_start", .int f.state.colStart),
    ("state_line_end", .int f.state.lineEnd), ("state_col_end", .int f.state.colEnd),
    ("locals", Json.orNull (Json.map TraceValue.toJson) f.locals),
    ("ordered_locals", Json.orNull Json.strs f.orderedLocals)] ++
    (f.returnValue.toList.map fun v => ("return_value", v.toJson)))

/-- A step as a record. -/
def TraceStep.toJson (s : TraceStep) : Json :=
  .obj ([("stdout", Json.orNull (fun ls => .arr (ls.map OutputLine.toJson)) s.stdout),
    ("line_start", .int s.range.lineStart), ("line_end", .int s.range.lineEnd),
    ("col_start", .int s.range.colStart), ("col_end", .int s.range.colEnd),
    ("function_name", .str s.functionName), ("event", .str s.event.name),
    ("stack_frames", Json.orNull (fun fs => .arr (fs.map StackFrame.toJson)) s.frames),
    ("heap", Json.orNull (Json.map HeapElement.toJson) s.heap)] ++
    (s.exceptionMessage.toList.map fun m => ("exception_message", Json.str m)))

/-- A run as a record. -/
def Trace.toJson (t : Trace) : Json :=
  .obj [("programCode", .str t.programCode),
    ("steps", Json.orNull (fun ss => .arr (ss.map (Json.orNull TraceStep.toJson))) t.steps)]

end Stepwise
