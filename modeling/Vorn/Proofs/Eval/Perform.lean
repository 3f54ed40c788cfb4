import Vorn.Proofs.Eval.Run
import Vorn.Eval.Order

/-!
# Performing scripts

To perform a script that is put together from parts is to run the parts one after the other
(`Script.perform_bind`); so the sort of a script comparison is performed as the sort of the
performed comparison (`Order.perform_sort`). What a single run comes to is said by a triple with a
postcondition for values and one for stops (`Run.Ensures`).
-/

namespace Vorn

theorem Step.bind_bind {α β γ : Type} (f : α → State → Step β) (g : β → State → Step γ) :
    ∀ m : Step α, (m.bind f).bind g = m.bind fun a s => (f a s).bind g
  | .done (.ok _ _) => rfl
  | .done (.error _ _) => rfl
  | .ask t s resume => congrArg (Step.ask t s) (funext fun ending => bind_bind f g (resume ending))

namespace Script

variable {α β : Type} (go : Task → Run Value)

theorem play_bind (f : α → State → Step β) : ∀ m : Step α, (m.bind f).play go =
    match m.play go with
    | .ok a s => (f a s).play go
    | .error stop s => .error stop s
  | .done (.ok _ _) => rfl
  | .done (.error _ _) => rfl
  | .ask t s resume => play_bind f (resume (go t s))

theorem bind_assoc {γ : Type} (m : Script α) (f : α → Script β) (g : β → Script γ) :
    (m >>= f) >>= g = m >>= fun a => f a >>= g :=
  funext fun s => Step.bind_bind f g (m s)

theorem perform_bind (m : Script α) (f : α → Script β) :
    (m >>= f).perform go = m.perform go >>= fun a => (f a).perform go := by
  funext s
  rw [Run.run_bind]
  exact play_bind go f (m s)

theorem perform_pure (a : α) : (pure a : Script α).perform go = pure a := rfl

theorem perform_lift (m : Run α) : (liftM m : Script α).perform go = m := rfl

theorem perform_ask (t : Task) : (ask t).perform go = go t := rfl

theorem perform_ite {c : Prop} [Decidable c] (m₁ m₂ : Script α) :
    (if c then m₁ else m₂).perform go = if c then m₁.perform go else m₂.perform go := by
  split <;> rfl

end Script

/-! ## Sorting -/

namespace Order

open Script

/-! One equation for each way in which the place of an element is found. -/

section

variable {m : Type → Type} [Monad m] {α : Type} {less : α → α → m Bool} {sorted : Array α} {x y : α}
  {low high : Nat}

theorem place_done (h : ¬ low < high) : place less sorted x low high = pure low := by
  rw [place, if_neg h]

theorem place_missing (h : low < high) (hnone : sorted[(low + high) / 2]? = none) :
    place less sorted x low high = pure low := by
  rw [place, if_pos h]
  simp only [hnone]

theorem place_step (h : low < high) (hsome : sorted[(low + high) / 2]? = some y) :
    place less sorted x low high = (do
      if ← less x y then place less sorted x low ((low + high) / 2)
      else place less sorted x ((low + high) / 2 + 1) high) := by
  conv => lhs; rw [place]
  rw [if_pos h]
  simp only [hsome]

end

variable {α : Type} (go : Task → Run Value)

theorem perform_run (joins : α → α → Script Bool) (done : List α) (last : α) (rest : List α) :
    (run joins done last rest).perform go =
      run (fun x y => (joins x y).perform go) done last rest := by
  induction rest generalizing done last with
  | nil => rfl
  | cons x rest ih =>
    rw [run, run, perform_bind]
    refine congrArg _ (funext fun answer => ?_)
    rw [perform_ite, ih, perform_pure]

variable (less : α → α → Script Bool)

theorem perform_place (sorted : Array α) (x : α) (low high : Nat) :
    (place less sorted x low high).perform go =
      place (fun x y => (less x y).perform go) sorted x low high := by
  induction low, high using place.induct sorted with
  | case1 low high h _ hnone => rw [place_missing h hnone, place_missing h hnone, perform_pure]
  | case2 low high h _ y hsome ihLow ihHigh =>
    rw [place_step h hsome, place_step h hsome, perform_bind]
    refine congrArg _ (funext fun answer => ?_)
    rw [perform_ite, ihLow, ihHigh]
  | case3 low high h => rw [place_done h, place_done h, perform_pure]

theorem perform_insertAll (sorted : Array α) (xs : List α) :
    (insertAll less sorted xs).perform go =
      insertAll (fun x y => (less x y).perform go) sorted xs := by
  induction xs generalizing sorted with
  | nil => rfl
  | cons x xs ih =>
    rw [insertAll, insertAll, perform_bind, perform_place]
    exact congrArg _ (funext fun i => ih _)

/-- The run of elements that are not less, performed. -/
theorem perform_run_not (done : List α) (last : α) (rest : List α) :
    (run (fun a b => return !(← less a b)) done last rest).perform go =
      run (fun a b => return !(← (less a b).perform go)) done last rest := by
  rw [perform_run]
  congr 1
  funext a b
  rw [perform_bind]
  rfl

theorem perform_sort : ∀ xs : List α,
    (sort less xs).perform go = sort (fun x y => (less x y).perform go) xs
  | [] => rfl
  | [_] => rfl
  | x :: y :: rest => by
    rw [sort, sort, perform_bind]
    refine congrArg _ (funext fun answer => ?_)
    rw [perform_ite, perform_bind, perform_bind, perform_run, perform_run_not]
    simp only [perform_insertAll]

theorem perform_sortDescending (xs : List α) :
    (sortDescending less xs).perform go =
      sortDescending (fun x y => (less x y).perform go) xs := by
  rw [sortDescending, sortDescending, perform_bind, perform_sort]
  rfl

end Order

/-! ## Triples -/

namespace Run

variable {α β : Type}

/-- From `s` the run gives a value as `post` says, or it stops as `stopped` says. -/
def Ensures (m : Run α) (s : State) (post : α → State → Prop) (stopped : Stop → State → Prop) :
    Prop :=
  match m s with
  | .ok a t => post a t
  | .error stop t => stopped stop t

/-- What comes back from two runs, one after the other, comes back from both. -/
theorem bind_ok {m : Run α} {f : α → Run β} {s u : State} {b : β} (h : (m >>= f) s = .ok b u) :
    ∃ a t, m s = .ok a t ∧ f a t = .ok b u := by
  rw [run_bind] at h
  cases hrun : m s with
  | error stop t =>
    rw [hrun] at h
    cases h
  | ok a t =>
    rw [hrun] at h
    exact ⟨a, t, rfl, h⟩

/-- Of two runs, one after the other, the first stops or the second does. -/
theorem bind_error {m : Run α} {f : α → Run β} {s u : State} {stop : Stop}
    (h : (m >>= f) s = .error stop u) :
    m s = .error stop u ∨ ∃ a t, m s = .ok a t ∧ f a t = .error stop u := by
  rw [run_bind] at h
  cases hrun : m s with
  | error stop t =>
    rw [hrun] at h
    cases h
    exact .inl rfl
  | ok a t =>
    rw [hrun] at h
    exact .inr ⟨a, t, rfl, h⟩

namespace Ensures

variable {s : State} {post : α → State → Prop} {stopped : Stop → State → Prop}

theorem pure {a : α} (h : post a s) : Ensures (Pure.pure a) s post stopped := h

theorem bind {m : Run α} {f : α → Run β} {post' : β → State → Prop}
    (hm : Ensures m s post stopped) (hf : ∀ a t, post a t → Ensures (f a) t post' stopped) :
    Ensures (m >>= f) s post' stopped := by
  unfold Ensures at hm ⊢
  rw [run_bind]
  cases hrun : m s with
  | error stop t =>
    rw [hrun] at hm
    exact hm
  | ok a t =>
    rw [hrun] at hm
    exact hf a t hm

theorem of_ok {m : Run α} {a : α} {t : State} (hm : Ensures m s post stopped)
    (h : m s = .ok a t) : post a t := by
  unfold Ensures at hm
  rwa [h] at hm

theorem of_error {m : Run α} {stop : Stop} {t : State} (hm : Ensures m s post stopped)
    (h : m s = .error stop t) : stopped stop t := by
  unfold Ensures at hm
  rwa [h] at hm

theorem mono {m : Run α} {post' : α → State → Prop} (hm : Ensures m s post stopped)
    (h : ∀ a t, post a t → post' a t) : Ensures m s post' stopped := by
  unfold Ensures at hm ⊢
  split at hm
  · exact h _ _ hm
  · exact hm

theorem ite {c : Prop} [Decidable c] {m₁ m₂ : Run α} (h₁ : c → Ensures m₁ s post stopped)
    (h₂ : ¬ c → Ensures m₂ s post stopped) : Ensures (if c then m₁ else m₂) s post stopped := by
  split
  · exact h₁ ‹_›
  · exact h₂ ‹_›

end Ensures

end Run

end Vorn
