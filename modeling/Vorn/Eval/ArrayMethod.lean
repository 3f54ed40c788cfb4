import Vorn.Eval.Builtin
import Vorn.Eval.Order
import Vorn.Method

/-!
# Array methods

Five methods change the array itself: `push`, `append`, `prepend`, `shift` and `pop`. All others
leave it alone, unless a callback changes it. Errors about arguments are reported at the place of
the array, errors about callbacks at the place of the callback.
-/

namespace Vorn

/-- The part of a sequence of `length` items that `slice` takes: from the first number on, up to
the second, which counts from the end if it is negative. -/
def sliceBounds (callee : Callee) (pos : Pos) (length : Nat) (args : List Value) :
    Run (Nat × Nat) :=
  match args with
  | [] => Run.fault pos (.methodCount callee .oneOrTwo none)
  | start :: more => do
    if 1 < more.length then Run.fault pos (.methodCount callee .oneOrTwo none)
    let .int start _ := start
      | Run.fault pos (.argument .first callee [.integer] start.ty)
    if start < 0 ∨ (length : Int) < start then Run.fault pos (.outOfRange .first callee)
    let stop ← match more with
      | [] => pure (length : Int)
      | .int stop _ :: _ => pure (if stop < 0 then stop + length else stop)
      | v :: _ => Run.fault pos (.argument .second callee [.integer] v.ty)
    if stop < start ∨ (length : Int) < stop then Run.fault pos (.outOfRange .second callee)
    return (start.toNat, stop.toNat)

namespace ArrayMethod

open Run Script

def callee (m : ArrayMethod) : Callee := .method .array m.name

/-- Refuses a wrong number of arguments. -/
def refuseCount {α : Type} (m : ArrayMethod) (pos : Pos) (want : Count) : Run α :=
  fault pos (.methodCount m.callee want none)

/-- Refuses a wrong number of arguments and says how many there were. -/
def refuseCountGot {α : Type} (m : ArrayMethod) (pos : Pos) (want : Count) (args : List Value) :
    Run α :=
  fault pos (.methodCount m.callee want (some args.length))

/-! ## Callbacks -/

/-- A callback is a function, and one of the program takes enough parameters. -/
def checkCallback (m : ArrayMethod) (f : Value) (least : Nat) : Run Unit :=
  match f with
  | .function c =>
    if c.params.length < least then fault c.pos (.callbackParameters m.callee least) else return ()
  | .builtin _ => return ()
  | v => fault v.pos (.notCallback m.callee v.ty)

/-- Calls back with as many of the arguments as the callback has parameters; a built-in function
gets `builtinCount` of them. -/
def invoke (pos : Pos) (f : Value) (builtinCount : Nat) (args : List Value) : Script Value :=
  match f with
  | .function c => ask (.apply pos f (args.take c.params.length))
  | _ => ask (.apply pos f (args.take builtinCount))

/-- The answer of a predicate for one element. -/
def holds (m : ArrayMethod) (array : Value) (f : Value) (index : Nat) (v : Value) :
    Script Bool := do
  let answer ← invoke array.pos f 1 [v, .int index array.pos, array]
  match ← toBool? answer with
  | some b => return b
  | none => fault f.pos (.callbackResult m.callee answer.ty)

/-- Walks over the array with a predicate. -/
def walkWith {β : Type} (m : ArrayMethod) (settings : Settings) (r : ArrayRef) (array : Value)
    (args : List Value) (next : β → Value → Bool → ForInStep β) (start : β) : Script β :=
  match args with
  | [f] => do
    checkCallback m f 1
    walk r (fun b i v => return next b v (← holds m array f i v)) settings.iterations 0 start
  | _ => refuseCount m array.pos (.exactly 1)

/-! ## Sorting -/

/-- The order of numbers and of texts. -/
def naturalLess (x y : Value) : Run Bool :=
  match x.number?, y.number? with
  | some a, some b => return a < b
  | _, _ =>
    match x, y with
    | .string a _, .string b _ => return a < b
    | _, _ => fault x.pos (.incomparable x.ty y.ty)

/-- The order that a callback defines: its answer is negative if the first argument comes first. -/
def callbackLess (pos : Pos) (f x y : Value) : Script Bool := do
  let answer ← invoke pos f 2 [x, y]
  match answer.number? with
  | some a => return a < 0
  | none => fault f.pos (.comparatorResult answer.ty)

/-- The order that the argument of `sort` asks for, and whether it is descending. -/
def ordering (pos : Pos) : List Value → Run ((Value → Value → Script Bool) × Bool)
  | [] => return (fun x y => naturalLess x y, false)
  | [.bool descending] => return (fun x y => naturalLess x y, descending)
  | [.function c] => do
    checkCallback .sort (.function c) 2
    return (callbackLess pos (.function c), false)
  | [.builtin b] => return (callbackLess pos (.builtin b), false)
  | [v] => fault pos (.argument .only (callee .sort) [.boolean, .function, .builtin] v.ty)
  | args => refuseCountGot .sort pos (.atMost 1) args

/-! ## Methods without callbacks -/

def lengthOf (r : ArrayRef) (pos : Pos) : Run Value := return .int (← elements r).size pos

/-- Adds one element to the array itself and gives the array. -/
def addElement (m : ArrayMethod) (r : ArrayRef) (array : Value)
    (add : Value → Array Value → Array Value) : List Value → Run Value
  | [v] => do
    modifyStore (·.modifyArray r (add v))
    return array
  | _ => refuseCount m array.pos (.exactly 1)

/-- Removes the element at an index from the array itself and gives the element. -/
def removeAt (r : ArrayRef) (i : Nat) : Run Value := do
  let v := (← elements r)[i]?.getD .null
  modifyStore (·.modifyArray r (·.eraseIdxIfInBounds i))
  return v

def shiftFirst (r : ArrayRef) (pos : Pos) : Run Value := do
  if (← elements r).isEmpty then fault pos (.emptyArray (callee .shift))
  removeAt r 0

/-- Removes the last element, or the one at a given index. -/
def popElement (r : ArrayRef) (pos : Pos) (args : List Value) : Run Value := do
  if 1 < args.length then refuseCount .pop pos .optional
  let size := (← elements r).size
  if size = 0 then fault pos (.emptyArray (callee .pop))
  match args with
  | [] => removeAt r (size - 1)
  | .int i _ :: _ =>
    if i < 0 ∨ (size : Int) ≤ i then fault pos .popOutOfRange else removeAt r i.toNat
  | _ => fault pos .popNotInteger

/-- The elements of several arrays, one array behind the other. -/
def concatenation (pos : Pos) (done : Array Value) : List Value → Run (Array Value)
  | [] => return done
  | .array r _ :: rest => do concatenation pos (done ++ (← elements r)) rest
  | v :: _ => fault pos (.argument .only (callee .concat) [.array] v.ty)

def concatOf (r : ArrayRef) (pos : Pos) (args : List Value) : Run Value := do
  newArray (← concatenation pos (← elements r) args) pos

def containsOf (r : ArrayRef) (v : Value) : Run Value :=
  return .bool ((← elements r).any (·.equal v))

def indexIn (r : ArrayRef) (pos : Pos) (v : Value) : Run Value := do
  match (← elements r).findIdx? (·.equal v) with
  | some i => return .int i pos
  | none => return .int (-1) pos

def joined (r : ArrayRef) (sep : String) (pos : Pos) : Run Value := do
  let texts ← (← elements r).toList.mapM inspect
  return .string (String.intercalate sep texts) pos

def reversed (r : ArrayRef) (pos : Pos) : Run Value := do newArray (← elements r).reverse pos

def sliceOf (r : ArrayRef) (pos : Pos) (args : List Value) : Run Value := do
  let vs ← elements r
  let (start, stop) ← sliceBounds (callee .slice) pos vs.size args
  newArray (vs.extract start stop) pos

/-! ## Methods with callbacks -/

def mapped (settings : Settings) (r : ArrayRef) (array f : Value) : Script Value := do
  checkCallback .map f 1
  let results ← walk r
    (fun done i v => do
      let result ← invoke array.pos f 1 [v, .int i array.pos, array]
      return .yield (done.push result))
    settings.iterations 0 #[]
  newArray results array.pos

def filtered (settings : Settings) (r : ArrayRef) (array : Value) (args : List Value) :
    Script Value := do
  let kept ← walkWith .filter settings r array args
    (fun kept v keep => .yield (if keep then kept.push v else kept)) #[]
  newArray kept array.pos

/-- The first element that the predicate holds of; `null` if there is none. -/
def findIn (settings : Settings) (r : ArrayRef) (array : Value) (args : List Value) :
    Script Value :=
  walkWith .find settings r array args
    (fun b v found => if found then .done v else .yield b) .null

def anyOf (settings : Settings) (r : ArrayRef) (array : Value) (args : List Value) :
    Script Value :=
  return .bool (← walkWith .any settings r array args
    (fun b _ holds => if holds then .done true else .yield b) false)

def everyOf (settings : Settings) (r : ArrayRef) (array : Value) (args : List Value) :
    Script Value :=
  return .bool (← walkWith .every settings r array args
    (fun b _ holds => if holds then .yield b else .done false) true)

def reduced (settings : Settings) (r : ArrayRef) (array f start : Value) : Script Value := do
  checkCallback .reduce f 2
  walk r
    (fun acc i v => do
      let result ← invoke array.pos f 2 [acc, v, .int i array.pos, array]
      return .yield result)
    settings.iterations 0 start

def sorted (r : ArrayRef) (pos : Pos) (args : List Value) : Script Value := do
  let (less, descending) ← ordering pos args
  let vs := (← elements r).toList
  newArray (← if descending then Order.sortDescending less vs else Order.sort less vs) pos

/-! ## All methods -/

/-- Calls a method of the array `r`, which is the value `array`. -/
def run (settings : Settings) (m : ArrayMethod) (r : ArrayRef) (array : Value)
    (args : List Value) : Script Value :=
  match m, args with
  | .length, [] => lengthOf r array.pos
  | .push, args => addElement .push r array (fun v vs => vs.push v) args
  | .append, args => addElement .append r array (fun v vs => vs.push v) args
  | .prepend, args => addElement .prepend r array (fun v vs => #[v] ++ vs) args
  | .shift, [] => shiftFirst r array.pos
  | .pop, args => popElement r array.pos args
  | .concat, [] => refuseCount .concat array.pos (.atLeast 1)
  | .concat, args => concatOf r array.pos args
  | .map, [f] => mapped settings r array f
  | .filter, args => filtered settings r array args
  | .find, args => findIn settings r array args
  | .any, args => anyOf settings r array args
  | .every, args => everyOf settings r array args
  | .reduce, [f, start] => reduced settings r array f start
  | .reduce, args => refuseCountGot .reduce array.pos (.exactly 2) args
  | .contains, [v] => containsOf r v
  | .indexOf, [v] => indexIn r array.pos v
  | .join, [] => joined r "," array.pos
  | .join, [.string sep _] => joined r sep array.pos
  | .join, [v] => fault array.pos (.argument .only m.callee [.string] v.ty)
  | .join, args => refuseCountGot .join array.pos (.atMost 1) args
  | .reverse, [] => reversed r array.pos
  | .slice, args => sliceOf r array.pos args
  | .sort, args => sorted r array.pos args
  | .length, _ | .shift, _ | .reverse, _ => refuseCount m array.pos .none
  | .map, _ | .contains, _ | .indexOf, _ => refuseCount m array.pos (.exactly 1)

end ArrayMethod

end Vorn
