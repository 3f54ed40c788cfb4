import Vorn.Proofs.Order.Stable
import Vorn.Proofs.Store.Growth

/-!
# Sorting an array

What a call of `sort` comes to, whatever it compares with. The result is a new array with the
elements of the receiver, even if the answers contradict each other; it is sorted and stable as soon
as the answers are those of a total preorder (`ArrayMethod.sort_stable`). The call stops only where
its argument is refused or a comparison stops (`ArrayMethod.sort_stops`).
-/

namespace Vorn

open Run Script

/-! ## Comparisons of elements -/

namespace Order

variable {less : Value → Value → Run Bool} {vs : List Value}

/-- Comparisons of elements of the list, each with an answer, lead from one state to the other. -/
inductive Compared (less : Value → Value → Run Bool) (vs : List Value) : State → State → Prop where
  | refl (s : State) : Compared less vs s s
  | step {s t u : State} {x y : Value} {b : Bool} (h : Compared less vs s t) (hx : x ∈ vs)
      (hy : y ∈ vs) (hless : less x y t = .ok b u) : Compared less vs s u

/-- The answers that comparisons of elements give from the state on are those of `le`. -/
def Agrees (less : Value → Value → Run Bool) (vs : List Value) (s : State)
    (le : Value → Value → Bool) : Prop :=
  ∀ t, Compared less vs s t → ∀ x ∈ vs, ∀ y ∈ vs, ∀ b u, less x y t = .ok b u → b = !le y x

/-- A comparison of elements stops in a state that others lead to. -/
def Stopped (less : Value → Value → Run Bool) (vs : List Value) (s : State) (stop : Stop)
    (u : State) : Prop :=
  ∃ t, Compared less vs s t ∧ ∃ x ∈ vs, ∃ y ∈ vs, less x y t = .error stop u

/-- Every comparison compares, as far as it agrees. -/
theorem compares_of_agrees (less : Value → Value → Run Bool) (vs : List Value) (s : State)
    (le : Value → Value → Bool) :
    Compares less vs (Compared less vs s) (Stopped less vs s)
      (TotalPreorderOn le vs ∧ Agrees less vs s le) le := by
  intro x hx y hy t ht
  unfold Ensures
  cases hrun : less x y t with
  | ok b u => exact ⟨.step ht hx hy hrun, fun ha => ha.2 t ht x hx y hy b u hrun⟩
  | error stop u => exact ⟨t, ht, x, hx, y, hy, hrun⟩

/-- Comparisons that leave the state alone lead nowhere else. -/
theorem Compared.eq_of_pure {s t : State} (h : Compared less vs s t)
    (hpure : ∀ x y s b t, less x y s = .ok b t → t = s) : t = s := by
  induction h with
  | refl => rfl
  | step _ _ _ hless ih => exact (hpure _ _ _ _ _ hless).trans ih

end Order

namespace ArrayMethod

open Vorn.Order

variable {pos : Pos} {args : List Value} {s t : State} {less : Value → Value → Script Bool}
  {descending : Bool}

/-! ## The order that is asked for -/

/-- The first value is not greater than the second in the natural order. -/
def naturalLe (x y : Value) : Bool :=
  match y.number?, x.number? with
  | some b, some a => !decide (b < a)
  | _, _ =>
    match y, x with
    | .string b _, .string a _ => !decide (b < a)
    | _, _ => true

/-- The natural comparison answers by the natural order, or it is at fault. -/
theorem naturalLess_eq (x y : Value) :
    naturalLess x y = pure !naturalLe y x ∨ ∃ pos cause, naturalLess x y = fault pos cause := by
  unfold naturalLess
  split
  · rename_i a b hx hy
    exact .inl (by simp [naturalLe, hx, hy])
  · split
    · exact .inl (by simp [naturalLe, Value.number?])
    · exact .inr ⟨_, _, rfl⟩

/-- The answers of the natural comparison are those of the natural order. -/
theorem agrees_naturalLe (vs : List Value) (s : State) :
    Agrees naturalLess vs s naturalLe := by
  intro t _ x _ y _ b u hless
  change naturalLess x y t = .ok b u at hless
  rcases naturalLess_eq x y with heq | ⟨pos, cause, heq⟩
  · rw [heq] at hless
    cases hless
    rfl
  · rw [heq] at hless
    cases hless

/-- Without a callback the order is the natural one; a callback defines the order, which is then not
descending. -/
theorem ordering_ok (h : ordering pos args s = .ok (less, descending) t) : t = s ∧
    ((less = fun x y => (naturalLess x y : Script Bool)) ∧ (∀ f ∈ args, f.isCallable = false) ∨
      ∃ f, args = [f] ∧ f.isCallable = true ∧ less = callbackLess pos f ∧ descending = false) := by
  revert h
  unfold ordering
  split
  · rintro ⟨⟩
    exact ⟨rfl, .inl ⟨rfl, by simp⟩⟩
  · rintro ⟨⟩
    exact ⟨rfl, .inl ⟨rfl, by simp [Value.isCallable]⟩⟩
  · unfold checkCallback
    dsimp only
    split
    · rintro ⟨⟩
    · rintro ⟨⟩
      exact ⟨rfl, .inr ⟨_, rfl, rfl, rfl, rfl⟩⟩
  · rintro ⟨⟩
    exact ⟨rfl, .inr ⟨_, rfl, rfl, rfl, rfl⟩⟩
  · rintro ⟨⟩
  · rintro ⟨⟩

end ArrayMethod

/-! ## Calls of `sort` -/

namespace Order

variable (less : Value → Value → Run Bool) (vs : List Value)

/-- Sorts in one direction or in the other. -/
def sortDirected (descending : Bool) : Run (Array Value) :=
  if descending then sortDescending less vs else sort less vs

/-- What sorting comes to, said with the comparison itself. -/
theorem ensures_sortDirected (descending : Bool) (s : State) (le : Value → Value → Bool) :
    (sortDirected less vs descending).Ensures s
      (fun result t => Compared less vs s t ∧ result.toList.Perm vs ∧
        (TotalPreorderOn le vs → Agrees less vs s le →
          StablySorted (directed descending le) vs result.toList))
      (Stopped less vs s) := by
  have hless := compares_of_agrees less vs s le
  have hA : TotalPreorderOn le vs ∧ Agrees less vs s le → TotalPreorderOn le vs := And.left
  cases descending with
  | false =>
    exact (ensures_sort hless hA (.refl s)).mono fun result t ⟨ht, hperm, hsorted⟩ =>
      ⟨ht, hperm, fun hle hagrees => hsorted ⟨hle, hagrees⟩⟩
  | true =>
    exact (ensures_sortDescending hless hA (.refl s)).mono fun result t ⟨ht, hperm, hsorted⟩ =>
      ⟨ht, hperm, fun hle hagrees => hsorted ⟨hle, hagrees⟩⟩

end Order

namespace ArrayMethod

open Vorn.Order

variable {go : Task → Run Value} {r : ArrayRef} {pos : Pos} {args : List Value} {s : State}

/-- A call of `sort` that knows its order sorts, and makes an array of the result. -/
theorem run_sorted {less : Value → Value → Script Bool} {descending : Bool}
    (hordering : ordering pos args s = .ok (less, descending) s) :
    (sorted r pos args).perform go s =
      (sortDirected (fun x y => (less x y).perform go) (s.store.array r).toList descending >>=
        (newArray · pos)) s := by
  rw [sorted, perform_bind, Run.run_bind, perform_lift, hordering]
  dsimp only
  rw [perform_bind, Run.run_bind, perform_lift,
    show elements r s = .ok (s.store.array r) s from rfl]
  dsimp only
  rw [perform_ite, perform_bind, perform_bind, perform_sortDescending, perform_sort]
  cases descending <;> rfl

/-- A call of `sort` whose argument is refused does nothing else. -/
theorem run_sorted_refused {stop : Stop} {t : State} (h : ordering pos args s = .error stop t) :
    (sorted r pos args).perform go s = .error stop t := by
  rw [sorted, perform_bind, Run.run_bind, perform_lift, h]

/-- Without a callback the comparisons leave the state alone. -/
theorem eq_of_compared (go : Task → Run Value) {less : Value → Value → Script Bool}
    {descending : Bool} {vs : List Value} {t : State}
    (hordering : ordering pos args s = .ok (less, descending) s)
    (hargs : ∀ f ∈ args, f.isCallable = false)
    (h : Compared (fun x y => (less x y).perform go) vs s t) : t = s := by
  rcases (ordering_ok hordering).2 with ⟨rfl, -⟩ | ⟨f, rfl, hf, -⟩
  · refine h.eq_of_pure fun x y s b t hless => ?_
    rcases naturalLess_eq x y with heq | ⟨pos, cause, heq⟩
    · rw [perform_lift, heq] at hless
      cases hless
      rfl
    · rw [perform_lift, heq] at hless
      cases hless
  · rw [hargs f List.mem_cons_self] at hf
    cases hf

/-- **`sort` is a stable sort.** A call that returns gives a new array behind all others, in the
state that comparisons of elements have led to; nothing else has changed in that state, and without
a callback nothing has changed before. The elements of the result are those of the receiver,
whatever the comparisons answered. If they answered by a total preorder, the result is in that
order, or in the converse one if the order is descending, and elements that are equal in it stand as
they stood in the receiver. -/
theorem sort_stable (settings : Settings) (depth : Nat) (r : ArrayRef) (pos namePos : Pos)
    (args : List Value) (s s' : State) (v : Value)
    (hcall : (Eval.callMethod settings (.array r pos) namePos "sort" args).perform
      (Eval.eval settings depth) s = .ok v s') :
    ∃ less descending, ordering pos args s = .ok (less, descending) s ∧
      ∃ compare, compare = (fun x y => (less x y).perform (Eval.eval settings depth)) ∧
      ∃ t, Compared compare (s.store.array r).toList s t ∧
        ((∀ f ∈ args, f.isCallable = false) → t = s) ∧
      ∃ result : Array Value, v = .array ⟨t.store.arrays.size⟩ pos ∧
        s' = { t with store := (t.store.newArray result).2 } ∧
        (∀ r' : ArrayRef, r'.index < t.store.arrays.size → s'.store.array r' = t.store.array r') ∧
        result.toList.Perm (s.store.array r).toList ∧
        ∀ le, TotalPreorderOn le (s.store.array r).toList →
          Agrees compare (s.store.array r).toList s le →
          StablySorted (directed descending le) (s.store.array r).toList result.toList := by
  rw [show Eval.callMethod settings (.array r pos) namePos "sort" args = sorted r pos args from rfl]
    at hcall
  cases hordering : ordering pos args s with
  | error stop u =>
    rw [run_sorted_refused hordering] at hcall
    cases hcall
  | ok order u =>
    obtain ⟨less, descending⟩ := order
    obtain rfl : u = s := (ordering_ok hordering).1
    rw [run_sorted hordering] at hcall
    obtain ⟨result, t, hrun, hnew⟩ := bind_ok hcall
    obtain ⟨hcompared, hperm, -⟩ :=
      (ensures_sortDirected _ _ descending u fun _ _ => true).of_ok hrun
    cases hnew
    refine ⟨less, descending, rfl, _, rfl, t, hcompared,
      fun hargs => eq_of_compared _ hordering hargs hcompared, result, rfl, rfl,
      fun r' hr' => (Store.Grows.newArray t.store result).array_eq hr', hperm, fun le => ?_⟩
    exact ((ensures_sortDirected _ _ descending u le).of_ok hrun).2.2

/-- A state with the array `[1, 2, 2.0]`. -/
def threeNumbers : State :=
  { store := { arrays := #[#[.int 1 .start, .int 2 .start, .float 2 .start]] } }

/-- From the greatest to the least that is `[2, 2.0, 1]`. -/
theorem sort_stable_threeNumbers :
    (Eval.callMethod {} (.array ⟨0⟩ .start) .start "sort" [.bool true]).perform (Eval.eval {} 0)
      threeNumbers = .ok (.array ⟨1⟩ .start)
        { threeNumbers with
          store := (threeNumbers.store.newArray
            #[.int 2 .start, .float 2 .start, .int 1 .start]).2 } ∧
    StablySorted (directed true naturalLe) [.int 1 .start, .int 2 .start, .float 2 .start]
      [.int 2 .start, .float 2 .start, .int 1 .start] := by
  have hordering : ordering .start [.bool true] threeNumbers =
      .ok (fun x y => naturalLess x y, true) threeNumbers := rfl
  have htwo : naturalLess (.int 2 .start) (.float 2 .start) = pure false :=
    congrArg pure (by decide +kernel : decide (Float.ofInt 2 < 2) = false)
  have hints : naturalLess (.int 1 .start) (.int 2 .start) = pure true :=
    congrArg pure (by decide +kernel : decide (Float.ofInt 1 < Float.ofInt 2) = true)
  have hone : naturalLess (.int 1 .start) (.float 2 .start) = pure true :=
    congrArg pure (by decide +kernel : decide (Float.ofInt 1 < 2) = true)
  have hcall : (Eval.callMethod {} (.array ⟨0⟩ .start) .start "sort" [.bool true]).perform
      (Eval.eval {} 0) threeNumbers = .ok (.array ⟨1⟩ .start)
        { threeNumbers with
          store := (threeNumbers.store.newArray
            #[.int 2 .start, .float 2 .start, .int 1 .start]).2 } := by
    change (sorted ⟨0⟩ .start [.bool true]).perform _ _ = _
    rw [run_sorted hordering]
    simp [sortDirected, sortDescending, Order.sort, Order.run, insertAll, place, threeNumbers,
      Store.array, perform_lift, Array.insertIdxIfInBounds, htwo, hints, hone]
    rfl
  refine ⟨hcall, ?_⟩
  obtain ⟨less, descending, horder, _, rfl, t, -, -, result, -, hend, -, -, hsorted⟩ :=
    sort_stable {} 0 ⟨0⟩ .start .start [.bool true] threeNumbers _ _ hcall
  rw [hordering] at horder
  cases horder
  have hresult : result = #[.int 2 .start, .float 2 .start, .int 1 .start] := by
    have harrays := congrArg (fun u : State => u.store.arrays) hend
    exact (Array.push_eq_push.mp harrays).1.symm
  rw [hresult] at hsorted
  exact hsorted naturalLe (by decide +kernel) (agrees_naturalLe _ _)

/-- A call of `sort` stops only where its argument is refused or a comparison of elements stops. -/
theorem sort_stops (settings : Settings) (depth : Nat) (r : ArrayRef) (pos namePos : Pos)
    (args : List Value) (s s' : State) (stop : Stop)
    (hcall : (Eval.callMethod settings (.array r pos) namePos "sort" args).perform
      (Eval.eval settings depth) s = .error stop s') :
    ordering pos args s = .error stop s' ∨
      ∃ less descending, ordering pos args s = .ok (less, descending) s ∧
        Stopped (fun x y => (less x y).perform (Eval.eval settings depth))
          (s.store.array r).toList s stop s' := by
  rw [show Eval.callMethod settings (.array r pos) namePos "sort" args = sorted r pos args from rfl]
    at hcall
  cases hordering : ordering pos args s with
  | error stop u =>
    rw [run_sorted_refused hordering] at hcall
    cases hcall
    exact .inl rfl
  | ok order u =>
    obtain ⟨less, descending⟩ := order
    obtain rfl : u = s := (ordering_ok hordering).1
    rw [run_sorted hordering] at hcall
    rcases bind_error hcall with hrun | ⟨result, t, -, hnew⟩
    · exact .inr ⟨less, descending, rfl,
        (ensures_sortDirected _ _ descending u fun _ _ => true).of_error hrun⟩
    · cases hnew

end ArrayMethod

end Vorn
