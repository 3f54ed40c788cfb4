import Vorn.Proofs.Grammar.Run
import Vorn.Proofs.Token.Lexing

/-!
# What a reader reports

`Meets φ r Q` says of a reader, under the assumption `φ`: it only adds errors to those that were
reported before; if none of the new ones is about the grammar, it gives a result, and `Q` holds of
the result and the new errors. So a misfit is always reported. The assumption concerns what was
read before, which is why it may speak of results and not of the state.

The rules below take a reader apart along its steps. `Meets.bind` hands on what is known of the
steps before. The tokens of the stream are valid throughout.
-/

namespace Vorn

/-- Where an error is reported. -/
def ParseError.pos : ParseError → Pos
  | .grammar pos _ => pos
  | .redefined pos _ => pos
  | .constAssigned pos _ => pos

/-- The error is about the grammar, and not about names. -/
def ParseError.isGrammar : ParseError → Bool
  | .grammar _ _ => true
  | _ => false

/-- None of the errors is about the grammar. -/
def Clean (errors : List ParseError) : Prop := ∀ e ∈ errors, e.isGrammar = false

@[simp] theorem clean_nil : Clean [] := by simp [Clean]

theorem clean_append {es fs : List ParseError} : Clean (es ++ fs) ↔ Clean es ∧ Clean fs :=
  List.forall_mem_append

theorem not_clean_grammar (pos : Pos) (m : Misfit) : ¬ Clean [.grammar pos m] := by
  simp [Clean, ParseError.isGrammar]

/-- Every token that is left is valid. -/
structure Stream.Valid (s : Stream) : Prop where
  current : s.current.Valid
  rest : ∀ t ∈ s.rest, t.Valid

namespace Stream.Valid

variable {s : Stream}

theorem peek (h : s.Valid) : s.peek.Valid := by
  obtain ⟨current, rest⟩ := s
  cases rest with
  | nil => exact h.current
  | cons t rest => exact h.rest t (by simp)

theorem advance (h : s.Valid) : s.advance.Valid := by
  obtain ⟨current, rest⟩ := s
  cases rest with
  | nil => exact h
  | cons t rest => exact ⟨h.rest t (by simp), fun u hu => h.rest u (List.mem_cons_of_mem t hu)⟩

theorem toSemicolon : ∀ {current : Token} {rest : List Token}, Stream.Valid ⟨current, rest⟩ →
    (Stream.toSemicolon current rest).Valid
  | _, [], h => h
  | _, t :: rest, h => by
    rw [Stream.toSemicolon]
    split
    · exact h
    · exact toSemicolon ⟨h.rest t (by simp), fun u hu => h.rest u (by simp [hu])⟩

end Stream.Valid

namespace Reader

/-- The state `s'` comes from `s` by reporting `new`. -/
structure Grows (s s' : ReaderState) (new : List ParseError) : Prop where
  errors : s'.errors = new.reverse ++ s.errors
  valid : s'.stream.Valid

/-- What `Meets` says of the run that starts in `s`. -/
def MeetsAt {α : Type} (s : ReaderState) (φ : Prop) (r : Reader α)
    (Q : α → List ParseError → Prop) : Prop :=
  match r s with
  | .ok a s' => ∃ new, Grows s s' new ∧ (φ → Clean new → Q a new)
  | .error .misfit s' => ∃ new, Grows s s' new ∧ (φ → ¬ Clean new)
  | .error .outOfFuel _ => True

def Meets {α : Type} (φ : Prop) (r : Reader α) (Q : α → List ParseError → Prop) : Prop :=
  ∀ s, s.stream.Valid → MeetsAt s φ r Q

variable {α β : Type} {φ ψ : Prop} {s : ReaderState}

theorem Grows.refl (h : s.stream.Valid) : Grows s s [] := ⟨by simp, h⟩

theorem Grows.trans {s₁ s₂ s₃ : ReaderState} {es fs : List ParseError} (h : Grows s₁ s₂ es)
    (h' : Grows s₂ s₃ fs) : Grows s₁ s₃ (es ++ fs) :=
  ⟨by rw [h'.errors, h.errors]; simp, h'.valid⟩

namespace Meets

variable {r : Reader α} {f : α → Reader β} {Q Q' : α → List ParseError → Prop}
  {R : β → List ParseError → Prop}

theorem bindAt (hr : MeetsAt s φ r Q)
    (hf : ∀ a new, Meets (φ ∧ Q a new) (f a) fun b more => R b (new ++ more)) :
    MeetsAt s φ (r >>= f) R := by
  unfold MeetsAt at hr ⊢
  rw [run_bind]
  revert hr
  cases r s with
  | error e s' => cases e <;> exact id
  | ok a s' =>
    rintro ⟨new, hgrow, hq⟩
    have hfa := hf a new s' hgrow.valid
    unfold MeetsAt at hfa
    revert hfa
    dsimp only
    cases f a s' with
    | ok b s'' =>
      rintro ⟨more, hgrow', hR⟩
      refine ⟨new ++ more, hgrow.trans hgrow', fun hφ hclean => ?_⟩
      obtain ⟨hnew, hmore⟩ := clean_append.mp hclean
      exact hR ⟨hφ, hq hφ hnew⟩ hmore
    | error e s'' =>
      cases e with
      | outOfFuel => exact fun _ => trivial
      | misfit =>
        rintro ⟨more, hgrow', hmisfit⟩
        refine ⟨new ++ more, hgrow.trans hgrow', fun hφ hclean => ?_⟩
        obtain ⟨hnew, hmore⟩ := clean_append.mp hclean
        exact hmisfit ⟨hφ, hq hφ hnew⟩ hmore

/-- A first step that is known to give `a` and reports nothing. -/
theorem stepAt {s' : ReaderState} {a : α} (hrun : r s = .ok a s') (herrors : s'.errors = s.errors)
    (hf : MeetsAt s' φ (f a) R) : MeetsAt s φ (r >>= f) R := by
  unfold MeetsAt at hf ⊢
  rw [run_bind_ok hrun]
  revert hf
  cases f a s' with
  | ok b s'' =>
    rintro ⟨new, hgrow, hR⟩
    exact ⟨new, ⟨by rw [hgrow.errors, herrors], hgrow.valid⟩, hR⟩
  | error e s'' =>
    cases e with
    | outOfFuel => exact id
    | misfit =>
      rintro ⟨new, hgrow, hR⟩
      exact ⟨new, ⟨by rw [hgrow.errors, herrors], hgrow.valid⟩, hR⟩

theorem bind (hr : Meets φ r Q)
    (hf : ∀ a new, Meets (φ ∧ Q a new) (f a) fun b more => R b (new ++ more)) :
    Meets φ (r >>= f) R :=
  fun s hs => bindAt (hr s hs) hf

theorem conseq (hr : Meets φ r Q) (hpre : ψ → φ) (hpost : ∀ a new, ψ → Q a new → Q' a new) :
    Meets ψ r Q' := by
  intro s hs
  have h := hr s hs
  unfold MeetsAt at h ⊢
  revert h
  cases r s with
  | ok a s' =>
    rintro ⟨new, hgrow, hq⟩
    exact ⟨new, hgrow, fun hψ hclean => hpost a new hψ (hq (hpre hψ) hclean)⟩
  | error e s' =>
    cases e with
    | outOfFuel => exact id
    | misfit =>
      rintro ⟨new, hgrow, hmisfit⟩
      exact ⟨new, hgrow, fun hψ => hmisfit (hpre hψ)⟩

theorem weaken (hr : Meets φ r Q) (hpre : ψ → φ) : Meets ψ r Q :=
  hr.conseq hpre fun _ _ _ h => h

theorem pure {a : α} (h : φ → Q a []) : Meets φ (Pure.pure a) Q :=
  fun _ hs => ⟨[], .refl hs, fun hφ _ => h hφ⟩

theorem outOfFuel : Meets φ (throw .outOfFuel : Reader α) Q := fun _ _ => trivial

theorem ite {c : Prop} [Decidable c] {r' : Reader α} (ht : c → Meets φ r Q)
    (he : ¬ c → Meets φ r' Q) : Meets φ (if c then r else r') Q := by
  split
  · exact ht ‹_›
  · exact he ‹_›

/-! ## Single steps -/

theorem currentIs (k : Kind) : Meets φ (Reader.currentIs k) fun _ new => new = [] :=
  fun _ hs => ⟨[], .refl hs, fun _ _ => rfl⟩

theorem peekIs (k : Kind) : Meets φ (Reader.peekIs k) fun _ new => new = [] :=
  fun _ hs => ⟨[], .refl hs, fun _ _ => rfl⟩

theorem advance : Meets φ Reader.advance fun _ new => new = [] :=
  fun _ hs => ⟨[], ⟨by simp, hs.advance⟩, fun _ _ => rfl⟩

theorem skipToSemicolon : Meets φ Reader.skipToSemicolon fun _ new => new = [] :=
  fun _ hs => ⟨[], ⟨by simp, hs.toSemicolon⟩, fun _ _ => rfl⟩

theorem report (errors : List ParseError) :
    Meets φ (Reader.report errors) fun _ new => new = errors ∧ Clean errors :=
  fun _ hs => ⟨errors, ⟨rfl, hs⟩, fun _ hclean => ⟨rfl, hclean⟩⟩

theorem fail (pos : Pos) (m : Misfit) : Meets φ (Reader.fail pos m : Reader α) Q :=
  fun _ hs => ⟨_, ⟨rfl, hs⟩, fun _ => not_clean_grammar pos m⟩

theorem attempt (hr : Meets φ r Q) :
    Meets φ (Reader.attempt r) fun o new => ∃ a, o = some a ∧ Q a new := by
  intro s hs
  have h := hr s hs
  unfold MeetsAt at h ⊢
  simp only [Reader.attempt]
  revert h
  cases r s with
  | ok a s' =>
    rintro ⟨new, hgrow, hq⟩
    exact ⟨new, hgrow, fun hφ hclean => ⟨a, rfl, hq hφ hclean⟩⟩
  | error e s' =>
    cases e with
    | outOfFuel => exact id
    | misfit =>
      rintro ⟨new, hgrow, hmisfit⟩
      exact ⟨new, hgrow, fun hφ hclean => (hmisfit hφ hclean).elim⟩

theorem require {o : Option α} (h : φ → o.isSome = true) :
    Meets φ (Reader.require o) fun a new => o = some a ∧ new = [] := by
  intro s hs
  cases o with
  | none => exact ⟨[], .refl hs, fun hφ => by simpa using h hφ⟩
  | some a => exact ⟨[], .refl hs, fun _ _ => ⟨rfl, rfl⟩⟩

/-! ## Steps that report nothing -/

theorem silent (hr : Meets φ r fun _ new => new = []) (hf : ∀ a, Meets φ (f a) R) :
    Meets φ (r >>= f) R := by
  refine bind hr fun a new => (hf a).conseq And.left ?_
  rintro b more ⟨-, rfl⟩ h
  exact h

theorem current_bind {f : Token → Reader β} (hf : ∀ t, t.Valid → Meets φ (f t) R) :
    Meets φ (Reader.current >>= f) R :=
  fun s hs => stepAt (run_current s) rfl (hf _ hs.current s hs)

theorem peek_bind {f : Token → Reader β} (hf : ∀ t, t.Valid → Meets φ (f t) R) :
    Meets φ (Reader.peek >>= f) R :=
  fun s hs => stepAt (run_peek s) rfl (hf _ hs.peek s hs)

theorem skipPeek (k : Kind) : Meets φ (Reader.skipPeek k) fun _ new => new = [] := by
  refine silent (peekIs k) fun b => ite (fun _ => ?_) fun _ => pure fun _ => rfl
  exact silent advance fun _ => pure fun _ => rfl

theorem expectPeek (k : Kind) : Meets φ (Reader.expectPeek k) fun _ new => new = [] :=
  peek_bind fun _ _ => ite (fun _ => advance) fun _ => fail _ _

/-! ## Steps whose result depends on the step before -/

/-- The current token behind an `expectPeek` is of the kind that was expected. -/
theorem expectPeek_current {k : Kind} {f : Token → Reader β}
    (hf : ∀ t, t.Valid → t.kind = k → Meets φ (f t) R) :
    Meets φ (Reader.expectPeek k >>= fun _ => Reader.current >>= f) R := by
  intro s hs
  by_cases hk : s.stream.peek.kind = k
  · have hrun := run_expectPeek s k
    rw [if_pos hk] at hrun
    refine stepAt hrun rfl (stepAt (run_current _) rfl ?_)
    rw [Stream.current_advance]
    exact hf _ hs.peek hk _ hs.advance
  · have hrun : (Reader.expectPeek k >>= fun _ => Reader.current >>= f) s =
        (Reader.fail s.stream.peek.pos (.expected k s.stream.peek.kind) : Reader β) s := by
      rw [run_bind, run_expectPeek, if_neg hk]
      rfl
    have h := fail s.stream.peek.pos (.expected k s.stream.peek.kind) (φ := φ) (Q := R) s hs
    unfold MeetsAt at h ⊢
    rwa [hrun]

/-- A branch that is taken because of the kind of the next token. -/
theorem peekIs_bind {k : Kind} {f : Bool → Reader β}
    (ht : ∀ s, s.stream.Valid → s.stream.peek.kind = k → MeetsAt s φ (f true) R)
    (hf : Meets φ (f false) R) : Meets φ (Reader.peekIs k >>= f) R := by
  intro s hs
  refine stepAt (run_peekIs s k) rfl ?_
  by_cases hk : s.stream.peek.kind = k
  · simpa [hk] using ht s hs hk
  · simpa [hk] using hf s hs

end Meets

end Reader

end Vorn
