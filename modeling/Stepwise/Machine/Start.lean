import Stepwise.Machine.Step

/-!
# Starting a program

Before a program starts, the library is installed and its own code runs to its end. Then the functions
of the host are bound, and the declarations of the program.
-/

namespace Stepwise

variable {ω : Type}

namespace Setting

/-- How deep the stack may get if nothing else is asked for. -/
def defaultDepth : Nat := 10000

/-- The source of random numbers that gives nothing but zeros. -/
def zeros : Nat → Float := fun _ => 0

/-- A source of numbers from zero up to one that are well spread over the states of a run. -/
def spread (state : Nat) : Float :=
  let scrambled := (state + 1) * 6364136223846793005 + 1442695040888963407
  let mixed := Nat.xor (scrambled % Nat.pow 2 64) (scrambled / Nat.pow 2 29) * 2685821657736338717 % Nat.pow 2 64
  Float.ofNat (mixed / Nat.pow 2 11) / 9007199254740992

/-- The setting of a program over a library, with the functions of its host and a source of random numbers. -/
def ofPrograms (library program : Program) (host : List (HostFunction ω)) (maxDepth : Nat) (draws : Nat → Float) :
    Setting ω where
  program
  nodes := program.index
  library
  libraryNodes := library.index
  host
  maxDepth
  draws

/-- The setting of a program over the library's own code. -/
def ofProgram (program : Program) (host : List (HostFunction ω)) (maxDepth : Nat) (draws : Nat → Float) : Setting ω :=
  ofPrograms Library.script program host maxDepth draws

/-- The setting without the functions of its host. -/
def alone (c : Setting ω) : Setting Unit := { c with host := [] }

end Setting

namespace Machine

/-- Pushes a program and binds what it declares. -/
def enter (m : Machine) (c : Setting ω) (p : Program) : Machine :=
  let m := m.push c (.program p) m.global false []
  { m with heap := m.heap.hoist p.declarations m.global }

/-- The machine on which only the library has been installed. -/
def bare : Machine :=
  let (global, heap) := Library.install
  { global, heap, stack := [], lastId := 0 }

/-- Hides the visible properties of an object. -/
def hideVisible (o : Object) : Object :=
  o.keys.foldl (fun o k =>
    if o.hidden.contains k then o else o.putHidden k ((o.own? k).getD .undefined)) o

/-- The machine after the library's own code has run. -/
def withLibrary (c : Setting ω) : Except Fault Machine :=
  let r := (bare.enter c.alone c.library).run c.alone endless ()
  match r.outcome with
  | .ended =>
    let m := r.machine
    let arrays := m.heap.intrinsic Intrinsic.arrayPrototype
    .ok { m with heap := m.heap.modify arrays hideVisible, stack := [] }
  | outcome => .error (.libraryFailed outcome.name)

/-- Binds a function of the host as a global that loops do not show. -/
def bindHost (m : Machine) (name : String) : Machine :=
  let (id, heap) := m.heap.newFunction ⟨name, .native ("host." ++ name), 0⟩
  { m with heap := heap.modify m.global (·.putHidden name (.object id)) }

/-- The machine at the start of a program. -/
def start (c : Setting ω) : Except Fault Machine := do
  let m ← withLibrary c
  let names := (c.host.map HostFunction.name).mergeSort (fun a b => decide (a ≤ b))
  if names.contains "" then throw .unnamedHostFunction
  return (names.foldl bindHost m).enter c c.program

end Machine

end Stepwise
