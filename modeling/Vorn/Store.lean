import Vorn.Table

/-!
# The store

The arrays, hashes and scopes of a run. Each is known by its number, and all references to one
number see the same contents.
-/

namespace Vorn

structure Store where
  arrays : Array (Array Value) := #[]
  tables : Array Table := #[]
  scopes : Scopes Value := .initial
  /-- The number of the next function or signal. -/
  fresh : Nat := 0
deriving Inhabited

namespace Store

/-- The elements of an array. -/
def array (s : Store) (r : ArrayRef) : Array Value := s.arrays.getD r.index #[]

def table (s : Store) (r : TableRef) : Table := s.tables.getD r.index .empty

/-- A new array. -/
def newArray (s : Store) (elements : Array Value) : ArrayRef × Store :=
  (⟨s.arrays.size⟩, { s with arrays := s.arrays.push elements })

/-- A new hash. -/
def newTable (s : Store) (t : Table) : TableRef × Store :=
  (⟨s.tables.size⟩, { s with tables := s.tables.push t })

/-- Changes an array in place. -/
def modifyArray (s : Store) (r : ArrayRef) (f : Array Value → Array Value) : Store :=
  { s with arrays := s.arrays.modify r.index f }

def newId (s : Store) : Nat × Store := (s.fresh, { s with fresh := s.fresh + 1 })

/-- A new scope inside `outer`. -/
def enclose (s : Store) (outer : ScopeRef) : ScopeRef × Store :=
  let (e, scopes) := s.scopes.enclose outer
  (e, { s with scopes })

/-- Binds a name in the scope itself. -/
def bind (s : Store) (e : ScopeRef) (name : String) (v : Value) : Store :=
  { s with scopes := s.scopes.set e name v }

/-- The number of arrays and hashes; no chain of references that avoids a cycle is longer. -/
def collections (s : Store) : Nat := s.arrays.size + s.tables.size

end Store

end Vorn
