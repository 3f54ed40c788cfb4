import Vorn.Store

/-!
# Copies

A copy of a value has collections of its own, all the way down. Functions, built-in functions and
signals are not copied, and a value that contains itself has no copy. Copying only adds to the
store: what was there before stays as it was, with or without a result.
-/

namespace Vorn.Store

/-- A computation that adds to the store and may find no result. -/
abbrev Copy := OptionT (StateM Store)

/-- The entry of a copied hash. -/
def copyEntry (inner : Value → Copy Value) (pos : Pos) (e : Entry) : Copy Entry := do
  return { e with pos, value := ← inner e.value }

/-- Copies a value, with `inner` for the elements of its collection. All copies come from `pos`. -/
def copyOf (inner : Value → Copy Value) (pos : Pos) : Value → Copy Value
  | .int n _ => return .int n pos
  | .float x _ => return .float x pos
  | .string s _ => return .string s pos
  | .array r _ => do
    let elements ← ((← get).array r).toList.mapM inner
    return .array (← modifyGet (·.newArray elements.toArray)) pos
  | .hash r _ => do
    let entries ← ((← get).table r).entries.mapM (copyEntry inner pos)
    let t := entries.foldl (fun t e => t.insert e.key e.pos e.value) Table.empty
    return .hash (← modifyGet (·.newTable t)) pos
  | v => return v

/-- Copies a value with at most `depth` collections inside each other. -/
def copyWithin (pos : Pos) : (depth : Nat) → Value → Copy Value
  | 0 => copyOf (fun _ => failure) pos
  | depth + 1 => copyOf (copyWithin pos depth) pos

/-- A copy of a value that comes from `pos`, and the store behind the copying. There is no copy if a
collection in the value contains itself. -/
def clone (s : Store) (v : Value) (pos : Pos) : Option Value × Store :=
  (copyWithin pos s.collections v).run s

end Vorn.Store
