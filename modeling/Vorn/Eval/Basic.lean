import Vorn.Fault
import Vorn.Store.Clone
import Vorn.Store.Snapshot

/-!
# Running programs: the machine

A run changes the state, which holds the store, what was printed and the trace. It ends with a
value or it stops; what it did to the state before it stopped stays done.
-/

namespace Vorn

/-- A line of the trace, with the level from which on it is kept. -/
structure TraceLine where
  level : Nat
  text : String
deriving DecidableEq, Repr

structure State where
  store : Store := {}
  output : String := ""
  trace : Array TraceLine := #[]
deriving Inhabited

/-- Why a run ends without a value. -/
inductive Stop where
  /-- The program is at fault. -/
  | fault (f : Fault)
  /-- Calls or values are nested too deeply. -/
  | exhausted
  /-- A loop went on for longer than the bound on iterations. -/
  | outOfFuel
  /-- A part of the tree is missing. -/
  | incomplete

/-- The bounds of a run, and how much of it is traced. -/
structure Settings where
  /-- Lines of the trace up to this level are kept. -/
  traceLevel : Nat := 0
  /-- How deeply evaluation may nest. -/
  depth : Nat := 10000
  /-- How often one loop may go round. -/
  iterations : Nat := 0x4000000000000000

/-- A computation of a run. -/
abbrev Run := EStateM Stop State

namespace Run

/-- Stops with a fault. -/
def fault {α : Type} (pos : Pos) (cause : Cause) : Run α := throw (.fault ⟨pos, cause⟩)

/-- A result that is there, or exhaustion. -/
def orExhausted {α : Type} : Option α → Run α
  | some a => return a
  | none => throw .exhausted

def store : Run Store := return (← get).store

def modifyStore (f : Store → Store) : Run Unit := modify fun s => { s with store := f s.store }

/-- How a value is shown. -/
def inspect (v : Value) : Run String := do orExhausted ((← store).inspect? v)

/-- Changes the store and gives the result that comes with the change. -/
def updateStore {α : Type} (f : Store → α × Store) : Run α :=
  modifyGet fun s =>
    let (a, store) := f s.store
    (a, { s with store })

/-- A copy of the value that comes from `pos`. -/
def clone (v : Value) (pos : Pos) : Run Value := do
  orExhausted (← updateStore (·.clone v pos))

def elements (r : ArrayRef) : Run (Array Value) := return (← store).array r

/-- A new array that comes from `pos`. -/
def newArray (elements : Array Value) (pos : Pos) : Run Value := do
  return .array (← updateStore (·.newArray elements)) pos

/-- A new hash that comes from `pos`. -/
def newTable (t : Table) (pos : Pos) : Run Value := do
  return .hash (← updateStore (·.newTable t)) pos

/-- A number for a new function or signal. -/
def newId : Run Nat := updateStore (·.newId)

/-- A new scope inside `outer`. -/
def enclose (outer : ScopeRef) : Run ScopeRef := updateStore (·.enclose outer)

/-- Binds a name in the scope itself. -/
def bind (e : ScopeRef) (name : String) (v : Value) : Run Unit :=
  modifyStore (·.bind e name v)

/-- Prints a line. -/
def printLine (text : String) : Run Unit :=
  modify fun s => { s with output := s.output ++ text ++ "\n" }

/-- Adds a line to the trace if its level is kept; otherwise the line is not even made. -/
def trace (settings : Settings) (level : Nat) (line : Run String) : Run Unit := do
  if level ≤ settings.traceLevel then
    let text ← line
    modify fun s => { s with trace := s.trace.push ⟨level, text⟩ }

/-- The truth value that a value converts to, if it has one. -/
def toBool? (v : Value) : Run (Option Bool) := do
  match v with
  | .null => return some false
  | .bool b => return some b
  | .int n _ => return some (n ≠ 0)
  | .float x _ => return some (x != 0)
  | .string s _ => return some (s ≠ "")
  | .array r _ => return some ((← elements r).size ≠ 0)
  | .hash r _ => return some (((← store).table r).size ≠ 0)
  | _ => return none

end Run

end Vorn
