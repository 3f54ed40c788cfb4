/-!
# Sorting with a comparison that has effects

The comparison may print, stop or contradict itself, so the order of the comparisons is part of
the result. First the run at the head of the list is measured: if the second element is less than
the first, elements join the run as long as they are less than the one before, and the run is
reversed; otherwise they join as long as they are not less. Then each further element is put into
place by binary search, behind the elements that it is not less than.
-/

namespace Vorn.Order

variable {m : Type → Type} [Monad m] {α : Type}

/-- Extends a run that ends in `last`: elements join as long as `joins` says so. Hands back the
run, latest first, and the rest. -/
def run (joins : α → α → m Bool) (done : List α) (last : α) : List α → m (List α × List α)
  | [] => return (last :: done, [])
  | x :: rest => do
    if ← joins x last then run joins (last :: done) x rest else return (last :: done, x :: rest)

/-- The place of `x` in a sorted array between `low` and `high`, behind the elements that it is not
less than. -/
def place (less : α → α → m Bool) (sorted : Array α) (x : α) (low high : Nat) : m Nat := do
  if low < high then
    let middle := (low + high) / 2
    match sorted[middle]? with
    | none => return low
    | some y =>
      if ← less x y then place less sorted x low middle
      else place less sorted x (middle + 1) high
  else return low
termination_by high - low
decreasing_by all_goals omega

/-- Puts further elements into their places. -/
def insertAll (less : α → α → m Bool) (sorted : Array α) : List α → m (Array α)
  | [] => return sorted
  | x :: rest => do
    let i ← place less sorted x 0 sorted.size
    insertAll less (sorted.insertIdxIfInBounds i x) rest

/-- Sorts a list; elements that are not less than each other keep their order. -/
def sort (less : α → α → m Bool) : List α → m (Array α)
  | [] => return #[]
  | [x] => return #[x]
  | x :: y :: rest => do
    if ← less y x then
      let (sorted, rest) ← run less [x] y rest
      insertAll less sorted.toArray rest
    else
      let (sorted, rest) ← run (fun a b => return !(← less a b)) [x] y rest
      insertAll less sorted.reverse.toArray rest

/-- Sorts a list from the greatest element to the least, keeping the order of equal elements. -/
def sortDescending (less : α → α → m Bool) (xs : List α) : m (Array α) := do
  return (← sort less xs.reverse).reverse

end Vorn.Order
