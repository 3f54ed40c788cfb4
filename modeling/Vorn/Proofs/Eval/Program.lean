import Vorn.Proofs.Eval.Discipline
import Vorn.Proofs.Eval.Spec

/-!
# Programs under a contract

What a discipline means for a whole program: its moments hold in growing worlds, and so does the
state that it leaves (`Contract.Discipline.program`).
-/

namespace Vorn

open Run

namespace Eval

variable {C : Contract} {settings : Settings} {w : C.World} {s : State}

/-- Statements in the root scope, where a `return` ends the program. -/
theorem good_runTopLevel {last : Value} {ss : List Stmt} (hs : C.Holds w s.store)
    (hlast : (C.law w).Admits last) (hseq : C.Seq w ss Scopes.root) :
    (runTopLevel last ss s).Good C (fun v w' st => C.Holds w' st ∧ Valued C v w' st) w := by
  induction ss generalizing w s last with
  | nil => exact ⟨w, C.le_refl w, hs, hlast⟩
  | cons stmt ss ih =>
    refine ⟨w, C.le_refl w, hs, hseq.1, fun v w₁ s₁ hle hs₁ hgives _ => ?_⟩
    have hv : (C.law w₁).AdmitsResult v := hgives.yields
    have hrest : ∀ {v}, (C.law w₁).Admits v → (runTopLevel v ss s₁).Good C _ w₁ := fun hv =>
      ih hs₁ hv (hseq.2 w₁ hle hgives.leaves)
    cases v with
    | returned => exact ⟨w₁, C.le_refl w₁, hs₁, hv⟩
    | «break» => exact ⟨w₁, C.le_refl w₁, hs₁⟩
    | «continue» => exact ⟨w₁, C.le_refl w₁, hs₁⟩
    | _ => exact hrest (hv.admits rfl)

end Eval

namespace Contract.Discipline

variable {C : Contract} {settings : Settings} {w : C.World} {s : State}

/-- **A program keeps to a contract that has a discipline**, at every moment and at its end. -/
theorem program (D : C.Discipline) {p : Program} (hs : C.Holds w s.store)
    (hseq : C.Seq w p.statements Scopes.root)
    (hassumed : ∀ m ∈ Eval.programHistory settings p s, C.Assumed m) :
    ∃ w', C.Along w (Eval.programHistory settings p s) w' ∧
      C.Holds w' (Session.run settings p s).2.store ∧
      ∀ v, (Session.run settings p s).1 = .value v → (C.law w').Admits v := by
  have hs' : C.Holds w (Eval.opened settings p s).store := by
    rw [Eval.opened, traced_store]
    exact hs
  have hnull : (C.law w).Admits .null := trivial
  obtain ⟨w₁, halong, hend⟩ := ((D.valid settings).does settings.depth).play
    (Eval.strict_runTopLevel _) (Eval.good_runTopLevel hs' hnull hseq) hassumed
  obtain ⟨hstore, hvalue⟩ := Eval.run_of_ended settings p s
  change (Eval.ended settings p s).Good C _ w₁ at hend
  rw [hstore]
  cases hended : Eval.ended settings p s with
  | ok v s' =>
    rw [hended] at hend hvalue
    obtain ⟨w', hle, hs'', hv⟩ := hend
    refine ⟨w', halong.trans_le hle, hs'', fun u hu => ?_⟩
    obtain ⟨_, h⟩ := hvalue u hu
    cases h
    exact hv
  | error stop s' =>
    rw [hended] at hend hvalue
    obtain ⟨w', hle, hs''⟩ := hend
    refine ⟨w', halong.trans_le hle, hs'', fun u hu => ?_⟩
    obtain ⟨_, h⟩ := hvalue u hu
    cases h

end Contract.Discipline

end Vorn
