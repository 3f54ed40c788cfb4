/-!
# Scopes

A scope binds names to values and may lie inside another scope. Scopes are numbered in the order
of their creation and never vanish, so a function can keep the scope it was made in. A look-up
walks outward to the nearest scope that binds the name.
-/

namespace Vorn

/-- The number of a scope. -/
structure ScopeRef where
  index : Nat
deriving DecidableEq, Repr, Inhabited

/-- One scope: the scope around it and its bindings. -/
structure Scope (α : Type) where
  outer : Option ScopeRef
  bindings : List (String × α) := []
deriving Inhabited

/-- All scopes of a run. -/
structure Scopes (α : Type) where
  cells : Array (Scope α)
deriving Inhabited

namespace Scope

variable {α : Type}

def find? (s : Scope α) (name : String) : Option α := s.bindings.lookup name

/-- Binds a name in an association list; a name that is there keeps its place. -/
def bind (name : String) (value : α) : List (String × α) → List (String × α)
  | [] => [(name, value)]
  | (n, v) :: rest => if n = name then (n, value) :: rest else (n, v) :: bind name value rest

def set (s : Scope α) (name : String) (value : α) : Scope α :=
  { s with bindings := bind name value s.bindings }

end Scope

namespace Scopes

variable {α : Type}

/-- The scope that exists from the start. -/
def root : ScopeRef := ⟨0⟩

/-- One empty scope with nothing around it. -/
def initial : Scopes α := ⟨#[{ outer := none }]⟩

/-- A new empty scope inside `outer`. -/
def enclose (s : Scopes α) (outer : ScopeRef) : ScopeRef × Scopes α :=
  (⟨s.cells.size⟩, ⟨s.cells.push { outer := some outer }⟩)

/-- Binds a name in the scope itself. -/
def set (s : Scopes α) (e : ScopeRef) (name : String) (value : α) : Scopes α :=
  ⟨s.cells.modify e.index (·.set name value)⟩

/-- The value that the scope itself binds the name to. -/
def getLocal? (s : Scopes α) (e : ScopeRef) (name : String) : Option α :=
  s.cells[e.index]?.bind (·.find? name)

def contains (s : Scopes α) (e : ScopeRef) (name : String) : Bool := (s.getLocal? e name).isSome

/-- The value of a name seen from scope number `i`, with the scope that binds it. The scope around
another one is older, which is why the walk ends. -/
def findFrom (s : Scopes α) (name : String) (i : Nat) : Option (α × ScopeRef) :=
  match s.cells[i]? with
  | none => none
  | some cell =>
    match cell.find? name with
    | some value => some (value, ⟨i⟩)
    | none =>
      match cell.outer with
      | none => none
      | some outer => if outer.index < i then findFrom s name outer.index else none
termination_by i

/-- The value of a name seen from a scope, with the scope that binds it. -/
def get? (s : Scopes α) (e : ScopeRef) (name : String) : Option (α × ScopeRef) :=
  s.findFrom name e.index

/-- The names that a scope itself binds. -/
def names (s : Scopes α) (e : ScopeRef) : List String :=
  match s.cells[e.index]? with
  | some cell => cell.bindings.map (·.1)
  | none => []

end Scopes

end Vorn
