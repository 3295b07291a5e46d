import Std.Data.TreeMap
import Stepwise.Session.Console
import Stepwise.Tree.Basic

/-!
# Traces

What a reader sees of a program at each stop: where it is, the calls that are running with their
variables, and every object that can be reached from them. A list or map that is missing is kept apart
from an empty one.
-/

namespace Stepwise

/-- A primitive value, or a pointer to an element of the step's heap. -/
inductive TraceValue where
  /-- A finite number. -/
  | number (n : Float)
  | string (s : String)
  | boolean (b : Bool)
  | null
  | undefined
  | nan
  | infinity
  | negativeInfinity
  | pointer (ref : String)
  deriving Inhabited

/-- The value of any number. -/
def TraceValue.ofNumber (n : Float) : TraceValue :=
  if n.isNaN then nan
  else if n.isInf then if n < 0 then negativeInfinity else infinity
  else number n

/-- An object that can be reached from a call. -/
inductive HeapElement where
  | array (id : String) (values : List TraceValue)
  | object (id : String) (entries : List (String × TraceValue))
  | function (id name code : String)
  deriving Inhabited

/-- The code that is shown for a native function. -/
def nativeCode : String := "function() \x7b [native code] \x7d"

/-- A span of the source. Lines count from 1 and columns from 0. -/
structure LineRange where
  lineStart : Int := 0
  colStart : Int := 0
  lineEnd : Int := 0
  colEnd : Int := 0
  deriving DecidableEq, Repr, Inhabited

/-- The span of a node. -/
def LineRange.ofLoc (l : Loc) : LineRange := ⟨l.start.line, l.start.column, l.stop.line, l.stop.column⟩

/-- A call that is running, or the program itself. -/
structure StackFrame where
  frameId : Int := 0
  functionName : String := ""
  functionCode : String := ""
  /-- The span of the function. -/
  code : LineRange := {}
  /-- The span of the node that is being evaluated. -/
  state : LineRange := {}
  locals : Option (Std.TreeMap String TraceValue) := none
  /-- The names of the variables, in the order of declaration. -/
  orderedLocals : Option (List String) := none
  /-- The value that the call is about to return. -/
  returnValue : Option TraceValue := none

/-- What happens at a step. -/
inductive TraceEvent where
  | stepLine
  | return_
  | exception
  /-- An event that only a text knows. -/
  | other (name : String)
  deriving DecidableEq, Repr, Inhabited

namespace TraceEvent

/-- The name of an event. -/
def name : TraceEvent → String
  | stepLine => "step_line"
  | return_ => "return"
  | exception => "exception"
  | other name => name

/-- The event of a name. -/
def ofName (s : String) : TraceEvent :=
  match s with
  | "step_line" => stepLine
  | "return" => return_
  | "exception" => exception
  | s => other s

end TraceEvent

/-- What is visible at a stop. -/
structure TraceStep where
  stdout : Option (List OutputLine) := none
  range : LineRange := {}
  functionName : String := ""
  event : TraceEvent := .other ""
  /-- The outermost call first. -/
  frames : Option (List StackFrame) := none
  heap : Option (Std.TreeMap String HeapElement) := none
  /-- The description of what was thrown. -/
  exceptionMessage : Option String := none

/-- A run of a program. -/
structure Trace where
  programCode : String := ""
  steps : Option (List (Option TraceStep)) := none

end Stepwise
