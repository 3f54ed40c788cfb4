import Vorn.Proofs.Eval.Perform
import Vorn.Proofs.Scopes
import Vorn.Proofs.Store.Growth

/-!
# One equality behind all that compare

`==` has branches of its own for numbers and texts, while `contains` and `indexOf` know nothing but
`Value.equal`. The branches agree with it (`Operator.binary_eq`), whatever the values are, so all of
them can be told from each other: `equality_paths_agree`.
-/

namespace Vorn

open Run Script

/-! ## The operators -/

namespace Operator

variable (pos : Pos) (x y : Value)

/-- **`==` is equality of values**, also in the branches for numbers and for texts. -/
theorem binary_eq : binary pos .eq x y = .ok (.bool (x.equal y)) := by
  unfold binary
  split <;> rfl

/-- `!=` is its negation. -/
theorem binary_ne : binary pos .ne x y = .ok (.bool !x.equal y) := by
  unfold binary
  split
  · rename_i a _ b _
    change Except.ok (Value.bool (decide (a ≠ b))) = _
    rw [decide_not]
    rfl
  all_goals rfl

end Operator

/-! ## Evaluating names, comparisons and calls of methods -/

/-- Seen from `scope`, the name is bound to the value. -/
def State.Names (s : State) (scope : ScopeRef) (name : String) (v : Value) : Prop :=
  ∃ target, s.store.scopes.get? scope name = some (v, target)

namespace Eval

variable {settings : Settings} {depth : Nat} {scope : ScopeRef} {s t : State} {pos : Pos}
  {l r e : Expr} {x y v : Value}

theorem eval_ident {name : String} (h : s.Names scope name v) :
    eval settings (depth + 1) (.expr (.ident pos name) scope) s = .ok v s := by
  obtain ⟨target, hbound⟩ := h
  have hstore : Run.store s = .ok s.store s := rfl
  change evalName scope pos name s = _
  rw [evalName, Run.run_bind, hstore]
  dsimp only
  rw [hbound]
  rfl

theorem eval_binary {op : BinaryOp} (hand : op ≠ .and) (hor : op ≠ .or)
    (hl : eval settings depth (.expr l scope) s = .ok x s)
    (hr : eval settings depth (.expr r scope) s = .ok y s) :
    eval settings (depth + 1) (.expr (.binary pos op l r) scope) s =
      ofResult (Operator.binary pos op x y) s := by
  change (evalBinary scope pos op l r).perform (eval settings depth) s = _
  rw [evalBinary, perform_bind, Run.run_bind, perform_ask, hl]
  dsimp only
  split
  · exact absurd rfl hand
  · exact absurd rfl hor
  · rw [perform_bind, Run.run_bind, perform_ask, hr]
    rfl

theorem eval_eq (hl : eval settings depth (.expr l scope) s = .ok x s)
    (hr : eval settings depth (.expr r scope) s = .ok y s) :
    eval settings (depth + 1) (.expr (.binary pos .eq l r) scope) s = .ok (.bool (x.equal y)) s := by
  rw [eval_binary (by decide) (by decide) hl hr, Operator.binary_eq]
  rfl

theorem eval_ne (hl : eval settings depth (.expr l scope) s = .ok x s)
    (hr : eval settings depth (.expr r scope) s = .ok y s) :
    eval settings (depth + 1) (.expr (.binary pos .ne l r) scope) s =
      .ok (.bool !x.equal y) s := by
  rw [eval_binary (by decide) (by decide) hl hr, Operator.binary_ne]
  rfl

/-- An array literal with one element makes a new array. -/
theorem eval_singleton (he : eval settings depth (.expr e scope) s = .ok v s) :
    eval settings (depth + 1) (.expr (.array pos [e]) scope) s =
      .ok (.array (s.store.newArray #[v]).1 pos)
        { s with store := (s.store.newArray #[v]).2 } := by
  change (evalExpr settings scope (.array pos [e])).perform (eval settings depth) s = _
  rw [evalExpr, perform_bind, Run.run_bind, evalAll, perform_bind, Run.run_bind, perform_ask, he]
  rfl

/-- A call of a method of an array with one argument. -/
theorem eval_method {name : String} {m : ArrayMethod} {ref : ArrayRef} {p namePos callPos : Pos}
    (hm : ArrayMethod.ofName? name = some m)
    (hl : eval settings depth (.expr l scope) s = .ok (.array ref p) t)
    (hr : eval settings depth (.expr r scope) t = .ok y t) :
    eval settings (depth + 1) (.expr (.method pos l namePos name callPos [r]) scope) s =
      (m.run settings ref (.array ref p) [y]).perform (eval settings depth) t := by
  change (evalExpr settings scope (.method pos l namePos name callPos [r])).perform
    (eval settings depth) s = _
  rw [evalExpr, perform_bind, Run.run_bind, perform_ask, hl]
  dsimp only
  rw [perform_bind, Run.run_bind, evalAll, perform_bind, Run.run_bind, perform_ask, hr]
  change (callMethod settings (.array ref p) namePos name [y]).perform _ t = _
  rw [callMethod, hm]

/-- An element of an array, by its index. -/
theorem eval_element {ref : ArrayRef} {p indexPos : Pos} {written : String} {i : Nat}
    (hi : i < (s.store.array ref).size)
    (hl : eval settings (depth + 1) (.expr l scope) s = .ok (.array ref p) s) :
    eval settings (depth + 2) (.expr (.index pos l (.int indexPos written i)) scope) s =
      .ok (s.store.array ref)[i] s := by
  change (evalExpr settings scope (.index pos l (.int indexPos written i))).perform
    (eval settings (depth + 1)) s = _
  rw [evalExpr, perform_bind, Run.run_bind, perform_ask, hl]
  change EStateM.Result.ok (elementAt (s.store.array ref) i) s = _
  have hnonneg : ¬ (i : Int) < 0 := by omega
  rw [elementAt, if_neg hnonneg, if_neg hnonneg, Int.toNat_natCast, Array.getD_eq_getD_getElem?,
    Array.getElem?_eq_getElem hi]
  rfl

end Eval

/-! ## Looking for a value in an array -/

namespace ArrayMethod

variable (settings : Settings) (go : Task → Run Value) (s : State) (ref : ArrayRef) (p : Pos)
  (y : Value)

theorem perform_contains :
    ((ArrayMethod.contains).run settings ref (.array ref p) [y]).perform go s =
      .ok (.bool ((s.store.array ref).any (·.equal y))) s := rfl

/-- `indexOf` gives the least index at which `contains` would have found the value, or -1. -/
theorem perform_indexOf : ∃ n : Int,
    ((ArrayMethod.indexOf).run settings ref (.array ref p) [y]).perform go s = .ok (.int n p) s ∧
    ((∃ i : Nat, ∃ hi : i < (s.store.array ref).size, n = i ∧
        (s.store.array ref)[i].equal y = true ∧
        ∀ j : Nat, ∀ hj : j < i, (s.store.array ref)[j].equal y = false) ∨
      n = -1 ∧ ∀ v ∈ s.store.array ref, v.equal y = false) := by
  have helements : elements ref s = .ok (s.store.array ref) s := rfl
  change ∃ n : Int, indexIn ref p y s = .ok (.int n p) s ∧ _
  rw [indexIn, Run.run_bind, helements]
  dsimp only
  cases hfound : (s.store.array ref).findIdx? (·.equal y) with
  | none =>
    exact ⟨-1, rfl, .inr ⟨rfl, fun v hv => Array.findIdx?_eq_none_iff.mp hfound v hv⟩⟩
  | some i =>
    obtain ⟨hi, hequal, hfirst⟩ := Array.findIdx?_eq_some_iff_getElem.mp hfound
    refine ⟨i, rfl, .inl ⟨i, hi, rfl, hequal, fun j hj => ?_⟩⟩
    exact Bool.eq_false_iff.mpr (hfirst j hj)

end ArrayMethod

/-! ## The paths agree -/

/-- **`==`, `!=`, `contains` and `indexOf` agree.** For all values `x` and `y` and every array of
values, each known by a name: `x == y` and `[x].contains(y)` evaluate to the same truth value and
`x != y` to its negation; `a.contains(y)` holds if and only if `a[i] == y` does for some index `i`;
and `a.indexOf(y)` is the least such index, or -1 if there is none. Only the array literal changes
the state. -/
theorem equality_paths_agree (settings : Settings) (depth : Nat) (scope : ScopeRef) (s : State)
    (nx ny na : String) {x y : Value} {ref : ArrayRef} {p : Pos} (hx : s.Names scope nx x)
    (hy : s.Names scope ny y) (ha : s.Names scope na (.array ref p)) (pos px py pa pi pn pc : Pos)
    (written : String) :
    ∃ (same : Bool) (matched : Nat → Bool) (found : Bool) (n : Int),
      Eval.eval settings (depth + 3)
        (.expr (.binary pos .eq (.ident px nx) (.ident py ny)) scope) s = .ok (.bool same) s ∧
      Eval.eval settings (depth + 3)
        (.expr (.binary pos .ne (.ident px nx) (.ident py ny)) scope) s = .ok (.bool !same) s ∧
      Eval.eval settings (depth + 3)
        (.expr (.method pos (.array pa [.ident px nx]) pn "contains" pc [.ident py ny]) scope) s =
          .ok (.bool same) { s with store := (s.store.newArray #[x]).2 } ∧
      (∀ i < (s.store.array ref).size, Eval.eval settings (depth + 3)
        (.expr (.binary pos .eq (.index pi (.ident pa na) (.int px written i)) (.ident py ny)) scope)
          s = .ok (.bool (matched i)) s) ∧
      Eval.eval settings (depth + 3)
        (.expr (.method pos (.ident pa na) pn "contains" pc [.ident py ny]) scope) s =
          .ok (.bool found) s ∧
      (found = true ↔ ∃ i < (s.store.array ref).size, matched i = true) ∧
      Eval.eval settings (depth + 3)
        (.expr (.method pos (.ident pa na) pn "indexOf" pc [.ident py ny]) scope) s =
          .ok (.int n p) s ∧
      ((∃ i < (s.store.array ref).size, n = i ∧ matched i = true ∧ ∀ j < i, matched j = false) ∨
        n = -1 ∧ ∀ i < (s.store.array ref).size, matched i = false) := by
  have hnx (d : Nat) : Eval.eval settings (d + 1) (.expr (.ident px nx) scope) s = .ok x s :=
    Eval.eval_ident hx
  have hny (d : Nat) (t : State) (ht : t.store.scopes = s.store.scopes) :
      Eval.eval settings (d + 1) (.expr (.ident py ny) scope) t = .ok y t :=
    Eval.eval_ident (hy.imp fun _ hbound => ht ▸ hbound)
  have hna (d : Nat) :
      Eval.eval settings (d + 1) (.expr (.ident pa na) scope) s = .ok (.array ref p) s :=
    Eval.eval_ident ha
  -- An index outside the array counts as a match with nothing.
  let matched (i : Nat) : Bool := (s.store.array ref)[i]?.elim false (·.equal y)
  have hmatched {i : Nat} (hi : i < (s.store.array ref).size) :
      matched i = (s.store.array ref)[i].equal y := by
    simp only [matched, Array.getElem?_eq_getElem hi, Option.elim_some]
  have hcontains : ArrayMethod.ofName? "contains" = some .contains := by decide
  obtain ⟨n, hindexOf, hn⟩ := ArrayMethod.perform_indexOf settings
    (Eval.eval settings (depth + 2)) s ref p y
  refine ⟨x.equal y, matched, (s.store.array ref).any (·.equal y), n,
    Eval.eval_eq (hnx _) (hny _ s rfl), Eval.eval_ne (hnx _) (hny _ s rfl), ?_, fun i hi => ?_, ?_,
    ?_, ?_, ?_⟩
  · refine (Eval.eval_method hcontains (Eval.eval_singleton (hnx _)) (hny _ _ rfl)).trans ?_
    rw [ArrayMethod.perform_contains, Store.array_newArray]
    simp only [List.any_toArray, List.any_cons, List.any_nil, Bool.or_false]
  · rw [hmatched hi]
    exact Eval.eval_eq (Eval.eval_element hi (hna _)) (hny _ s rfl)
  · exact Eval.eval_method hcontains (hna _) (hny _ s rfl)
  · rw [Array.any_eq_true]
    exact ⟨fun ⟨i, hi, hequal⟩ => ⟨i, hi, (hmatched hi).trans hequal⟩,
      fun ⟨i, hi, hequal⟩ => ⟨i, hi, (hmatched hi).symm.trans hequal⟩⟩
  · exact (Eval.eval_method (by decide) (hna _) (hny _ s rfl)).trans hindexOf
  · rcases hn with ⟨i, hi, hni, hequal, hfirst⟩ | ⟨hni, hnone⟩
    · exact .inl ⟨i, hi, hni, (hmatched hi).trans hequal,
        fun j hj => (hmatched (Nat.lt_trans hj hi)).trans (hfirst j hj)⟩
    · exact .inr ⟨hni, fun i hi => (hmatched hi).trans (hnone _ (Array.getElem_mem hi))⟩

/-- A state in which `x` and `y` name the text `"b"` at two places, and `a` the array
`[null, "b", "b"]`. -/
def State.twoTexts : State :=
  { store :=
      { arrays := #[#[.null, .string "b" .start, .string "b" .start]]
        scopes := ⟨#[{ outer := none, bindings := [("x", .string "b" .start),
          ("y", .string "b" .unknown), ("a", .array ⟨0⟩ .start)] }]⟩ } }

theorem State.twoTexts_names {name : String} {v : Value}
    (h : twoTexts.store.scopes.getLocal? Scopes.root name = some v) :
    twoTexts.Names Scopes.root name v :=
  ⟨Scopes.root, by rw [Scopes.get?_eq, h]⟩

/-- The two texts are equal, and the first of them in the array has the index 1. -/
theorem equality_paths_agree_texts :
    Eval.eval {} 3 (.expr (.binary .start .eq (.ident .start "x") (.ident .start "y")) Scopes.root)
      State.twoTexts = .ok (.bool true) State.twoTexts ∧
    Eval.eval {} 3 (.expr (.method .start (.ident .start "a") .start "indexOf" .start
      [.ident .start "y"]) Scopes.root) State.twoTexts = .ok (.int 1 .start) State.twoTexts := by
  have hx : State.twoTexts.Names Scopes.root "x" (.string "b" .start) := State.twoTexts_names rfl
  have hy : State.twoTexts.Names Scopes.root "y" (.string "b" .unknown) := State.twoTexts_names rfl
  have ha : State.twoTexts.Names Scopes.root "a" (.array ⟨0⟩ .start) := State.twoTexts_names rfl
  obtain ⟨same, matched, -, n, hsame, -, -, hmatched, -, -, hindexOf, hn⟩ :=
    equality_paths_agree {} 0 Scopes.root State.twoTexts "x" "y" "a" hx hy ha
      .start .start .start .start .start .start .start ""
  have hentry {i : Nat} (hi : i < (State.twoTexts.store.array ⟨0⟩).size) :
      matched i = (State.twoTexts.store.array ⟨0⟩)[i].equal (.string "b" .unknown) := by
    have heval := (hmatched i hi).symm.trans
      (Eval.eval_eq (Eval.eval_element hi (Eval.eval_ident ha)) (Eval.eval_ident hy))
    injection heval with hvalue
    injection hvalue
  have hfirst : matched 0 = false := hentry (i := 0) (by decide)
  have hsecond : matched 1 = true := hentry (i := 1) (by decide)
  have hone : n = 1 := by
    rcases hn with ⟨i, -, rfl, hmatch, hleast⟩ | ⟨-, hnone⟩
    · match i with
      | 0 => exact absurd (hfirst.symm.trans hmatch) (by decide)
      | 1 => rfl
      | i + 2 => exact absurd (hsecond.symm.trans (hleast 1 (by omega))) (by decide)
    · exact absurd (hsecond.symm.trans (hnone 1 (by decide))) (by decide)
  have htrue : same = true := by
    have heval := hsame.symm.trans (Eval.eval_eq (Eval.eval_ident hx) (Eval.eval_ident hy))
    injection heval with hvalue
    injection hvalue
  exact ⟨htrue ▸ hsame, hone ▸ hindexOf⟩

end Vorn
