import Stepwise.Proofs.Machine.Step
import Stepwise.Session.Function

/-!
# Functions of a session

* `SessionFunction.keeps_toHost`: they keep what is in the heap.
* `SessionFunction.Steady`: one whose answer depends on its arguments alone. It does not tell worlds with the
  same console apart.
* `Console.Extends`: what they log goes into the newest bin.
-/

namespace Stepwise

variable {σ α β : Type}

/-- A function of a session asks for no call. -/
theorem SessionFunction.ne_tail (f : SessionFunction σ) (call : NativeCall) (h : Heap) (world : World σ) (func this : Value)
    (args : List Value) : (f.toHost.run call h world).1 ≠ .ok (.tail func this args) := by
  have haccept (logged : Bool) (result : Except String HostValue) :
      (accept f.name h logged result).1 ≠ .ok (.tail func this args) := by
    unfold accept
    split
    · nofun
    · split
      · nofun
      · split <;> nofun
  exact haccept _ _

/-! ### The heap -/

/-- The heap is kept, whether or not all values are added. -/
def Intake.Keeps (x : Intake α) : Prop :=
  ∀ h : Heap, match x h with
    | .ok _ h' | .error _ h' => h.Keeps h'

namespace Intake.Keeps

theorem pure (a : α) : Intake.Keeps (pure a) := fun h => .refl h

theorem throw (e : String) : Intake.Keeps (throw e : Intake α) := fun h => .refl h

theorem modifyGet {f : Heap → α × Heap} (hf : ∀ h : Heap, h.Keeps (f h).2) :
    Intake.Keeps (modifyGet f : Intake α) := hf

theorem modify {f : Heap → Heap} (hf : ∀ h : Heap, h.Keeps (f h)) : Intake.Keeps (modify f : Intake Unit) := hf

theorem bind {x : Intake α} {f : α → Intake β} (hx : x.Keeps) (hf : ∀ a, (f a).Keeps) : Keeps (x >>= f) := by
  intro h
  have hk := hx h
  cases hr : x h with
  | ok a h' =>
    have he : (x >>= f) h = f a h' := by
      show EStateM.bind x f h = _
      unfold EStateM.bind
      rw [hr]
    have hk' := hf a h'
    rw [hr] at hk
    rw [he]
    split <;> rename_i he' <;> rw [he'] at hk' <;> exact hk.trans hk'
  | error e h' =>
    have he : (x >>= f) h = .error e h' := by
      show EStateM.bind x f h = _
      unfold EStateM.bind
      rw [hr]
    rw [hr] at hk
    rw [he]
    exact hk

end Intake.Keeps

namespace HostValue

mutual

theorem keeps_intake (x : HostValue) : x.intake.Keeps := by
  cases x with
  | undefined | null | bool | number | string | int | single => exact .pure _
  | function | foreign => exact .throw _
  | list items =>
    exact (keeps_intakeAll items).bind fun elems => (Intake.Keeps.modifyGet fun h => h.keeps_newArray _).bind fun _ =>
      .pure _
  | object fields | record fields =>
    exact (Intake.Keeps.modifyGet fun h => h.keeps_newPlain).bind fun id => (keeps_intakeFields id fields).bind
      fun _ => .pure _

theorem keeps_intakeAll (xs : List HostValue) : (intakeAll xs).Keeps := by
  cases xs with
  | nil => exact .pure _
  | cons x xs => exact (keeps_intake x).bind fun _ => (keeps_intakeAll xs).bind fun _ => .pure _

theorem keeps_intakeFields (id : ObjectId) (fields : List (String × HostValue)) : (intakeFields id fields).Keeps := by
  cases fields with
  | nil => exact .pure _
  | cons field fields =>
    obtain ⟨key, x⟩ := field
    refine (keeps_intake x).bind fun v => ?_
    refine (Intake.Keeps.modify fun h => Heap.keeps_modify (fun o => o.alike_put key v) h id).bind fun _ => ?_
    exact keeps_intakeFields id fields

end

end HostValue

namespace SessionFunction

theorem keeps_accept (name : String) (h : Heap) (logged : Bool) (result : Except String HostValue) :
    h.Keeps (accept name h logged result).2 := by
  unfold accept
  split
  · exact .refl h
  · rename_i x
    split
    · exact .refl h
    · have hk := x.keeps_intake h
      split <;> rename_i he <;> rw [he] at hk <;> exact hk

theorem keeps_toHost (f : SessionFunction σ) : f.toHost.Keeps := fun _ _ _ => keeps_accept _ _ _ _

end SessionFunction

/-! ### The console -/

namespace Console

/-- The second console has more in its newest bin than the first, and is the same below. -/
def Extends (c c' : Console) : Prop :=
  c' = c ∨ ∃ bin bin' bins, c.bins = bin :: bins ∧ c'.bins = bin' :: bins

@[refl] theorem Extends.refl (c : Console) : c.Extends c := .inl rfl

theorem Extends.trans {c c' c'' : Console} (h : c.Extends c') (h' : c'.Extends c'') : c.Extends c'' := by
  rcases h with rfl | ⟨bin, bin', bins, he, he'⟩
  · exact h'
  · rcases h' with rfl | ⟨bin₁, bin₂, bins', he₁, he₂⟩
    · exact .inr ⟨bin, bin', bins, he, he'⟩
    · cases he'.symm.trans he₁
      exact .inr ⟨bin, bin₂, bins, he, he₂⟩

/-- The bins of earlier steps stay as they are. -/
theorem Extends.drop?_eq {c c' : Console} (h : c.Extends c') : c'.drop? = c.drop? := by
  rcases h with rfl | ⟨bin, bin', bins, he, he'⟩
  · rfl
  · unfold drop?
    rw [he, he']

theorem Extends.size_eq {c c' : Console} (h : c.Extends c') : c'.size = c.size := by
  rcases h with rfl | ⟨bin, bin', bins, he, he'⟩
  · rfl
  · unfold size
    rw [he, he', List.length_cons, List.length_cons]

theorem extends_of_log? {c c' : Console} {content : String} {line : Int} (h : c.log? content line = some c') :
    c.Extends c' := by
  unfold log? at h
  split at h
  · cases h
  · rename_i bin bins he
    cases h
    exact .inr ⟨bin, _, bins, he, rfl⟩

private theorem extends_foldl {f : Console × Bool → String → Console × Bool}
    (hf : ∀ (p : Console × Bool) (content : String), p.1.Extends (f p content).1) (lines : List String) (p : Console × Bool) :
    p.1.Extends (lines.foldl f p).1 := by
  induction lines generalizing p with
  | nil => exact .refl p.1
  | cons content lines ih => exact (hf p content).trans (ih (f p content))

theorem extends_logAll (c : Console) (lines : List String) (line : Int) : c.Extends (c.logAll lines line).1 := by
  refine extends_foldl (fun p content => ?_) lines (c, true)
  dsimp only
  split
  · exact extends_of_log? ‹_›
  · exact .refl _

end Console

theorem SessionFunction.extends_toHost (f : SessionFunction σ) (call : NativeCall) (h : Heap) (world : World σ) :
    world.console.Extends (f.toHost.run call h world).2.2.console := Console.extends_logAll _ _ _

/-! ### The state of the host -/

/-- What a function answers depends on its arguments alone. -/
def SessionFunction.Steady (f : SessionFunction σ) : Prop :=
  ∀ args state state', (f.call args state).logged = (f.call args state').logged ∧
    (f.call args state).result = (f.call args state').result

/-- Two worlds with the same console. -/
def World.Alike (world world' : World σ) : Prop := world.console = world'.console

theorem SessionFunction.Steady.respects {f : SessionFunction σ} (h : f.Steady) : f.toHost.Respects World.Alike := by
  intro call heap world world' hw
  obtain ⟨hlogged, hresult⟩ := h (call.args.map heap.toHost) world.host world'.host
  have hw : world.console = world'.console := hw
  unfold toHost World.Alike
  dsimp only
  rw [hlogged, hresult, hw]
  exact ⟨rfl, rfl, rfl⟩

end Stepwise
