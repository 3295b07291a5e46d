import Stepwise.Heap.Basic

/-!
# Variables

A name is looked up in a scope and then in the scopes around it.
-/

namespace Stepwise

namespace Heap

/-- The scope of an identity. -/
def scope? (h : Heap) (id : ObjectId) : Option Scope := h.scopes[id]?

/-- Adds a scope whose bindings are an object that is there. -/
def addScope (h : Heap) (s : Scope) : Heap := { h with scopes := h.scopes.insert s.id s }

/-- Adds a scope without bindings. -/
def newScope (h : Heap) (parent : ObjectId) (strict : Bool) : ObjectId × Heap :=
  let (id, h) := h.alloc .object 0
  (id, h.addScope ⟨id, parent, strict⟩)

/-- Binds a name in this scope. -/
def declare (h : Heap) (scope : ObjectId) (name : String) (v : Value) : Heap :=
  h.modify scope (·.put name v)

/-- A scope and the scopes around it, at most `limit` of them. -/
def enclosing (h : Heap) : (limit : Nat) → ObjectId → List Scope
  | 0, _ => []
  | limit + 1, id =>
    match h.scope? id with
    | none => []
    | some s => s :: if s.parent = 0 then [] else h.enclosing limit s.parent

/-- A scope and all scopes around it. -/
def scopeChain (h : Heap) (id : ObjectId) : List Scope := h.enclosing h.scopes.size id

/-- What a scope itself binds a name to. -/
def binding? (h : Heap) (scope : ObjectId) (name : String) : Option Value :=
  (h.object? scope).bind (·.own? name)

/-- What a name is bound to. -/
def lookup? (h : Heap) (scope : ObjectId) (name : String) : Option Value :=
  (h.scopeChain scope).findSome? fun s => h.binding? s.id name

/-- Changes the nearest binding of a name. A name that is bound nowhere is an error in a strict scope
and becomes a global variable in another. -/
def assign (h : Heap) (scope : ObjectId) (name : String) (v : Value) : Except Throw Heap :=
  let chain := h.scopeChain scope
  match chain.find? fun s => (h.binding? s.id name).isSome with
  | some s => .ok (h.declare s.id name v)
  | none =>
    match chain.head?, chain.getLast? with
    | some first, some last =>
      if first.strict then .error (.notDefined name) else .ok (h.declare last.id name v)
    | _, _ => .error (.notDefined name)

end Heap

end Stepwise
