import Stepwise.Check.Header
import Stepwise.Session.Basic

/-!
# Running example programs

Every example is stepped to its end. It passes if it prints what its header says and ends as its header
says.
-/

namespace Stepwise

/-- What came of an example. -/
inductive Verdict where
  | pass
  | fail
  | skip
  | error
  deriving DecidableEq, Repr, Inhabited

/-- The name of a verdict. -/
def Verdict.name : Verdict → String
  | pass => "PASS"
  | fail => "FAIL"
  | skip => "SKIP"
  | error => "ERROR"

/-- Why an example did not pass. -/
inductive CheckProblem where
  | header (e : HeaderError)
  | skipped (reason : String)
  | unknownMode (name : String)
  | session (e : SessionError)
  | fault (f : Fault)
  | stepLimit (steps : Nat)
  | output (want got : List String)
  | uncaught (exception : String)
  | noException (part : String)
  | otherException (exception part : String)

namespace CheckProblem

/-- The verdict on an example with this problem. -/
def verdict : CheckProblem → Verdict
  | skipped _ => .skip
  | output .. | uncaught _ | noException _ | otherException .. => .fail
  | _ => .error

/-- The wording of a problem. -/
def message : CheckProblem → String
  | header e => e.message
  | skipped reason => reason
  | unknownMode name => Mode.unknown name
  | session e => e.message
  | fault f => f.message
  | stepLimit steps => "step limit (" ++ toString steps ++ ")"
  | output want got =>
    "stdout mismatch (-want +got):\n" ++
      String.join ((want.map fun l => "- " ++ quoted l ++ "\n") ++ got.map fun l => "+ " ++ quoted l ++ "\n")
  | uncaught exception => "uncaught exception: " ++ exception
  | noException part => "expected an exception containing " ++ quoted part
  | otherException exception part =>
    "exception " ++ quoted exception ++ " does not contain " ++ quoted part

end CheckProblem

/-- What came of an example, and after how many steps. -/
structure CheckResult where
  problem : Option CheckProblem := none
  steps : Nat := 0

namespace CheckResult

/-- The verdict on an example. -/
def verdict (r : CheckResult) : Verdict := (r.problem.map (·.verdict)).getD .pass

/-- Why an example did not pass. -/
def message (r : CheckResult) : String := (r.problem.map (·.message)).getD ""

end CheckResult

/-- Which examples are run, and how. -/
structure CheckOptions where
  mode : Mode
  /-- Only files whose path contains this are run. -/
  filter : String := ""
  /-- How many files are run, if positive. -/
  limit : Int := 0
  /-- How many steps an example may take, if positive. -/
  maxSteps : Int := 0

namespace Check

/-- The steps that an example may take unless something else is said. -/
def defaultMaxSteps : Nat := 100000

/-- Whether `part` occurs in `s`. -/
def contains (s part : String) : Bool := (findText? part.toList 0 s.toList).isSome

/-- Steps to the end within `left` steps. Returns the number of steps, and the session unless it failed. -/
def walk (mode : Mode) : (left : Nat) → (steps : Nat) → Session Unit String →
    Nat × Except CheckProblem (Session Unit String)
  | left, steps, s =>
    if s.isLast then (steps, .ok s)
    else
      match left with
      | 0 => (steps, .error (.stepLimit steps))
      | left + 1 =>
        match (Session.forward mode).run s with
        | .ok _ s => walk mode left (steps + 1) s
        | .error e _ => (steps, .error (.session e))

/-- Compares how an example ended with what its header says. -/
def compare (h : Header) (s : Session Unit String) : Except CheckProblem Unit := do
  let step ← s.collect.mapError .fault
  let got := (step.stdout.getD []).map (·.content)
  if h.expect ≠ got then throw (.output h.expect got)
  match s.status.description? with
  | none => if !h.throws.isEmpty then throw (.noException h.throws)
  | some exception =>
    if h.throws.isEmpty then throw (.uncaught exception)
    if !contains exception h.throws then throw (.otherException exception h.throws)

/-- The problem of an example that cannot be started. Its header may say that it is refused. -/
def refused (h : Header) : SessionError → Option CheckProblem
  | .restricted f =>
    if !h.throws.isEmpty ∧ contains (SessionError.restricted f).message h.throws then none
    else some (.session (.restricted f))
  | e => some (.session e)

/-- Runs an example. -/
def run (mode : Mode) (maxSteps : Nat) (source : String) : CheckResult :=
  match Header.ofSource source with
  | .error e => { problem := some (.header e) }
  | .ok h =>
    if !h.skip.isEmpty then { problem := some (.skipped h.skip) }
    else
      match if h.mode.isEmpty then some mode else Mode.ofName? h.mode with
      | none => { problem := some (.unknownMode h.mode) }
      | some mode =>
        match Session.start source [SessionFunction.output] () with
        | .error e => { problem := refused h e }
        | .ok s =>
          match walk mode maxSteps 0 s with
          | (steps, .error p) => { problem := some p, steps }
          | (steps, .ok s) =>
            match compare h s with
            | .ok _ => { steps }
            | .error p => { problem := some p, steps }

/-- Whether a file is an example. -/
def isExample (path : String) : Bool := ".js".toList.isSuffixOf path.toList

/-- The examples that are run, by name. -/
def selected (o : CheckOptions) (examples : List (String × String)) : List (String × String) :=
  let found := (examples.filter fun (path, _) => contains path o.filter).mergeSort
    fun a b => decide (a.1 ≤ b.1)
  if 0 < o.limit then found.take o.limit.toNat else found

/-- Runs examples, given by name and source. -/
def runAll (o : CheckOptions) (examples : List (String × String)) : List (String × CheckResult) :=
  let maxSteps := if 0 < o.maxSteps then o.maxSteps.toNat else defaultMaxSteps
  (selected o examples).map fun (path, source) => (path, run o.mode maxSteps source)

/-- How many results have a verdict. -/
def count (v : Verdict) (results : List (String × CheckResult)) : Nat :=
  results.countP fun (_, r) => r.verdict == v

/-- Whether nothing failed. -/
def isOk (results : List (String × CheckResult)) : Bool :=
  count .fail results == 0 && count .error results == 0

end Check

end Stepwise
