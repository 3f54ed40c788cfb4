import Vorn.Proofs.Grammar.Run

/-!
# What lies behind does not matter

The grammar looks one token ahead. So a form that ends before the last token of a stream is read in
the same way if other tokens stand in the place of that last one.

`Reader.FollowsAt e new φ s r r' Q` says of the run of `r` that starts in `s`: it moves on and adds
errors only. If `φ` holds and no error is added, then the run gives a result, and `Q` holds of the
result and of the kind of the token at which it ends; and if that token is clear of the last token
`e`, then `r'` does the same on a stream with the tokens `new` in the place of `e`. The readers `r`
and `r'` are one function of the grammar with different fuel and frames, and neither fuel nor
frames matter to what is read. As in `Reader.Meets`, the assumption `φ` concerns what was read
before, and the rules below take a reader apart along its steps.
-/

namespace Vorn

/-- `s'` stands at the same token as `s`, with the tokens `new` in the place of the last one. -/
structure Stream.Swapped (e : Token) (new : List Token) (s s' : Stream) : Prop where
  current : s'.current = s.current
  rest : ∃ ahead, s.rest = ahead ++ [e] ∧ s'.rest = ahead ++ new

/-- The tokens that are left, with the current one. -/
def Stream.left (s : Stream) : List Token := s.current :: s.rest

theorem Stream.advance_left_suffix (s : Stream) : s.advance.left <:+ s.left := by
  obtain ⟨current, rest⟩ := s
  cases rest with
  | nil => exact List.suffix_rfl
  | cons t rest => exact List.suffix_cons _ _

theorem Stream.toSemicolon_left_suffix : ∀ (current : Token) (rest : List Token),
    (Stream.toSemicolon current rest).left <:+ current :: rest
  | _, [] => List.suffix_rfl
  | current, t :: rest => by
    rw [Stream.toSemicolon]
    split
    · exact List.suffix_rfl
    · exact (toSemicolon_left_suffix t rest).trans (List.suffix_cons _ _)

/-- `s'` is reached from `s` by moving on and reporting. -/
structure ReaderState.Later (s s' : ReaderState) : Prop where
  left : s'.stream.left <:+ s.stream.left
  errors : s.errors <:+ s'.errors

namespace ReaderState.Later

variable {s s' s'' : ReaderState}

theorem refl (s : ReaderState) : s.Later s := ⟨List.suffix_rfl, List.suffix_rfl⟩

theorem trans (h : s.Later s') (h' : s'.Later s'') : s.Later s'' :=
  ⟨h'.left.trans h.left, h.errors.trans h'.errors⟩

theorem length_le (h : s.Later s') : s'.stream.rest.length ≤ s.stream.rest.length := by
  have := h.left.length_le
  simpa [Stream.left] using this

theorem advance (s : ReaderState) : s.Later { s with stream := s.stream.advance } :=
  ⟨s.stream.advance_left_suffix, List.suffix_rfl⟩

/-- If nothing was reported in all, nothing was reported on the way. -/
theorem clean (h : s.Later s') (h' : s'.Later s'') (heq : s''.errors = s.errors) :
    s'.errors = s.errors ∧ s''.errors = s'.errors := by
  have hle := h.errors.length_le
  have hle' := h'.errors.length_le
  have hlen := congrArg List.length heq
  have hfirst : s'.errors = s.errors := (h.errors.eq_of_length (by omega)).symm
  exact ⟨hfirst, heq.trans hfirst.symm⟩

end ReaderState.Later

/-- The current token is not next to the last one, or it is a semicolon: behind it nothing that
belongs to the form is left to read. -/
def Stream.Clear (s : Stream) : Prop :=
  1 < s.rest.length ∨ s.rest.length = 1 ∧ s.current.kind = .semicolon

/-- A run that ends clear of the last token was clear of it all the time. -/
theorem ReaderState.Later.clear {s s' : ReaderState} (h : s.Later s') (hclear : s'.stream.Clear) :
    s.stream.Clear := by
  have hle := h.length_le
  rcases hclear with hlength | ⟨hlength, hk⟩
  · exact .inl (by omega)
  · rcases Nat.lt_or_ge 1 s.stream.rest.length with hlt | hge
    · exact .inl hlt
    · refine .inr ⟨by omega, ?_⟩
      have heq : s'.stream.left = s.stream.left := by
        refine h.left.eq_of_length ?_
        simp only [Stream.left, List.length_cons]
        omega
      rw [← (List.cons.inj heq).1]
      exact hk

namespace Stream

variable {e : Token} {new : List Token} {s s' : Stream}

/-- The next token is the same, except at a semicolon. -/
theorem Swapped.peek (h : s.Swapped e new s') (hclear : s.Clear)
    (hk : s.current.kind ≠ .semicolon) : s'.peek = s.peek := by
  obtain ⟨ahead, hrest, hrest'⟩ := h.rest
  unfold Stream.peek
  rw [hrest, hrest']
  cases ahead with
  | nil => simp [Stream.Clear, hrest, hk] at hclear
  | cons t ahead => rfl

theorem Swapped.advance (h : s.Swapped e new s') (hclear : s.advance.Clear) :
    s.advance.Swapped e new s'.advance := by
  obtain ⟨ahead, hrest, hrest'⟩ := h.rest
  unfold Stream.advance at hclear ⊢
  rw [hrest] at hclear ⊢
  rw [hrest']
  cases ahead with
  | nil => simp [Stream.Clear] at hclear
  | cons t ahead => exact ⟨rfl, ahead, rfl, rfl⟩

theorem toSemicolon_swapped (current : Token) : ∀ ahead : List Token,
    (toSemicolon current (ahead ++ [e])).Clear →
    (toSemicolon current (ahead ++ [e])).Swapped e new (toSemicolon current (ahead ++ new))
  | [], hclear => by
    -- here the run ends at a semicolon, behind which it does not look
    rw [List.nil_append, toSemicolon] at hclear ⊢
    split at hclear
    · have hk : current.kind = .semicolon := by simpa [Clear] using hclear
      rw [if_pos (.inl hk), List.nil_append]
      cases new with
      | nil => exact ⟨rfl, [], rfl, rfl⟩
      | cons t new =>
        rw [toSemicolon, if_pos (.inl hk)]
        exact ⟨rfl, [], rfl, rfl⟩
    · simp [toSemicolon, Clear] at hclear
  | t :: ahead, hclear => by
    rw [List.cons_append, List.cons_append, toSemicolon, toSemicolon] at *
    split
    · exact ⟨rfl, t :: ahead, rfl, rfl⟩
    · rw [if_neg ‹_›] at hclear
      exact toSemicolon_swapped t ahead hclear

theorem toSemicolon_kind_ne_eof : ∀ (current : Token) (rest : List Token),
    current.kind ≠ .eof → (toSemicolon current rest).current.kind ≠ .eof
  | _, [], h => h
  | current, t :: rest, h => by
    rw [toSemicolon]
    split
    · exact h
    · rename_i hstop
      exact toSemicolon_kind_ne_eof t rest fun hk => hstop (.inr (.inl hk))

end Stream

namespace Reader

section

variable (e : Token) (new : List Token) {α : Type}

/-- What is said of one run, see above. -/
def FollowsAt (φ : Prop) (s : ReaderState) (r r' : Reader α) (Q : α → Kind → Prop) : Prop :=
  match r s with
  | .ok a s₁ => s.Later s₁ ∧ (φ → s₁.errors = s.errors → Q a s₁.stream.current.kind ∧
      (s₁.stream.Clear → ∀ s', s.stream.Swapped e new s'.stream →
        ∃ s₁', r' s' = .ok a s₁' ∧ s₁.stream.Swapped e new s₁'.stream))
  | .error .misfit s₁ => s.Later s₁ ∧ (φ → s₁.errors ≠ s.errors)
  | .error .outOfFuel _ => True

/-- The same of all runs. -/
def Follows (φ : Prop) (r r' : Reader α) (Q : α → Kind → Prop) : Prop :=
  ∀ s, FollowsAt e new φ s r r' Q

end

namespace FollowsAt

variable {e : Token} {new : List Token} {α β : Type} {φ ψ : Prop} {s : ReaderState}
  {r r' : Reader α} {f f' : α → Reader β} {Q Q' : α → Kind → Prop} {R : β → Kind → Prop}

theorem later (h : FollowsAt e new φ s r r' Q) {a : α} {s₁ : ReaderState}
    (hrun : r s = .ok a s₁) : s.Later s₁ := by
  unfold FollowsAt at h
  rw [hrun] at h
  exact h.1

/-- A misfit is reported. -/
theorem errors_ne (h : FollowsAt e new True s r r' Q) {s₁ : ReaderState}
    (hrun : r s = .error .misfit s₁) : s₁.errors ≠ s.errors := by
  unfold FollowsAt at h
  rw [hrun] at h
  exact h.2 trivial

theorem conseq (h : FollowsAt e new φ s r r' Q) (hpre : ψ → φ)
    (hpost : ∀ a k, ψ → Q a k → Q' a k) : FollowsAt e new ψ s r r' Q' := by
  unfold FollowsAt at h ⊢
  cases hr : r s with
  | ok a s₁ =>
    rw [hr] at h
    refine ⟨h.1, fun hψ hclean => ?_⟩
    obtain ⟨hQ, hsame⟩ := h.2 (hpre hψ) hclean
    exact ⟨hpost _ _ hψ hQ, hsame⟩
  | error failure s₁ =>
    rw [hr] at h
    cases failure with
    | outOfFuel => trivial
    | misfit => exact ⟨h.1, fun hψ => h.2 (hpre hψ)⟩

theorem weaken (h : FollowsAt e new φ s r r' Q) (hpost : ∀ a k, Q a k → Q' a k) :
    FollowsAt e new φ s r r' Q' :=
  h.conseq id fun a k _ => hpost a k

theorem bind (hr : FollowsAt e new φ s r r' Q)
    (hf : ∀ a s₁,
      FollowsAt e new (φ ∧ Q a s₁.stream.current.kind) s₁ (f a) (f' a) R) :
    FollowsAt e new φ s (r >>= f) (r' >>= f') R := by
  unfold FollowsAt at hr ⊢
  rw [run_bind]
  cases hrun : r s with
  | error failure s₁ =>
    rw [hrun] at hr
    cases failure with
    | outOfFuel => trivial
    | misfit => exact hr
  | ok a s₁ =>
    rw [hrun] at hr
    obtain ⟨hlater, hr⟩ := hr
    have hfa := hf a s₁
    unfold FollowsAt at hfa
    dsimp only
    cases hrun₁ : f a s₁ with
    | ok b s₂ =>
      rw [hrun₁] at hfa
      obtain ⟨hlater', hfa⟩ := hfa
      refine ⟨hlater.trans hlater', fun hφ hclean => ?_⟩
      obtain ⟨hclean₁, hclean₂⟩ := hlater.clean hlater' hclean
      obtain ⟨hQ, hsame⟩ := hr hφ hclean₁
      obtain ⟨hR, hsame'⟩ := hfa ⟨hφ, hQ⟩ hclean₂
      refine ⟨hR, fun hclear s' hs' => ?_⟩
      obtain ⟨s₁', hrun', hs₁'⟩ := hsame (hlater'.clear hclear) s' hs'
      obtain ⟨s₂', hrun₁', hs₂'⟩ := hsame' hclear s₁' hs₁'
      exact ⟨s₂', by rw [run_bind_ok hrun', hrun₁'], hs₂'⟩
    | error failure s₂ =>
      rw [hrun₁] at hfa
      cases failure with
      | outOfFuel => trivial
      | misfit =>
        obtain ⟨hlater', hfa⟩ := hfa
        refine ⟨hlater.trans hlater', fun hφ hclean => ?_⟩
        obtain ⟨hclean₁, hclean₂⟩ := hlater.clean hlater' hclean
        exact hfa ⟨hφ, (hr hφ hclean₁).1⟩ hclean₂

/-! ## Single steps -/

/-- A reader that only looks and gives back `a`. -/
theorem of_stays {a : α} (hr : r s = .ok a s) (hQ : φ → Q a s.stream.current.kind)
    (hr' : φ → s.stream.Clear → ∀ s', s.stream.Swapped e new s'.stream → r' s' = .ok a s') :
    FollowsAt e new φ s r r' Q := by
  unfold FollowsAt
  rw [hr]
  exact ⟨.refl s, fun hφ _ => ⟨hQ hφ, fun hclear s' hs' => ⟨s', hr' hφ hclear s' hs', hs'⟩⟩⟩

theorem pure {a : α} (hQ : φ → Q a s.stream.current.kind) :
    FollowsAt e new φ s (Pure.pure a) (Pure.pure a) Q :=
  of_stays rfl hQ fun _ _ _ _ => rfl

theorem outOfFuel {r' : Reader α} : FollowsAt e new φ s (throw .outOfFuel) r' Q := trivial

theorem fail (pos pos' : Pos) (m m' : Misfit) :
    FollowsAt e new φ s (Reader.fail pos m : Reader α) (Reader.fail pos' m') Q :=
  ⟨⟨List.suffix_rfl, List.suffix_cons _ _⟩, fun _ => List.cons_ne_self _ _⟩

theorem ite {c : Prop} [Decidable c] {u u' : Reader α} (ht : c → FollowsAt e new φ s r r' Q)
    (he : ¬ c → FollowsAt e new φ s u u' Q) :
    FollowsAt e new φ s (if c then r else u) (if c then r' else u') Q := by
  split
  · exact ht ‹_›
  · exact he ‹_›

/-- A reader that looks at the current token, and then goes on from there. -/
theorem current_bind {f f' : Token → Reader β}
    (hf : FollowsAt e new φ s (f s.stream.current) (f' s.stream.current) R) :
    FollowsAt e new φ s (Reader.current >>= f) (Reader.current >>= f') R := by
  unfold FollowsAt at hf ⊢
  rw [run_bind_ok (run_current s)]
  cases hrun : f s.stream.current s with
  | error failure s₁ =>
    rw [hrun] at hf
    cases failure <;> exact hf
  | ok b s₁ =>
    rw [hrun] at hf
    refine ⟨hf.1, fun hφ hclean => ⟨(hf.2 hφ hclean).1, fun hclear s' hs' => ?_⟩⟩
    obtain ⟨s₁', hrun', hs₁'⟩ := (hf.2 hφ hclean).2 hclear s' hs'
    exact ⟨s₁', by rw [run_bind_ok (run_current s'), hs'.current, hrun'], hs₁'⟩

theorem currentIs (k : Kind) :
    FollowsAt e new φ s (Reader.currentIs k) (Reader.currentIs k) fun b k' =>
      k' = s.stream.current.kind ∧ b = decide (k' = k) :=
  of_stays rfl (fun _ => ⟨rfl, rfl⟩) fun _ _ s' hs' => by rw [run_currentIs, hs'.current]

theorem peek (hs : φ → s.stream.current.kind ≠ .semicolon) :
    FollowsAt e new φ s Reader.peek Reader.peek fun _ k => k = s.stream.current.kind :=
  of_stays rfl (fun _ => rfl) fun hφ hclear s' hs' => by
    rw [run_peek, hs'.peek hclear (hs hφ)]

theorem peekIs (k : Kind) (hs : φ → s.stream.current.kind ≠ .semicolon) :
    FollowsAt e new φ s (Reader.peekIs k) (Reader.peekIs k) fun _ k =>
      k = s.stream.current.kind :=
  of_stays rfl (fun _ => rfl) fun hφ hclear s' hs' => by
    rw [run_peekIs, hs'.peek hclear (hs hφ)]

theorem advance : FollowsAt e new φ s Reader.advance Reader.advance fun _ k =>
    k = s.stream.peek.kind :=
  ⟨.advance s, fun _ _ =>
    ⟨congrArg Token.kind s.stream.current_advance, fun hclear _ hs' =>
      ⟨_, rfl, hs'.advance hclear⟩⟩⟩

theorem skipPeek (k : Kind) (hs : φ → s.stream.current.kind ≠ .semicolon) :
    FollowsAt e new φ s (Reader.skipPeek k) (Reader.skipPeek k) fun b k' =>
      k' = if b then k else s.stream.current.kind := by
  unfold FollowsAt
  rw [run_skipPeek]
  by_cases hk : s.stream.peek.kind = k
  · rw [if_pos hk]
    refine ⟨.advance s, fun hφ _ => ?_⟩
    refine ⟨(congrArg Token.kind s.stream.current_advance).trans hk, fun hclear s' hs' => ?_⟩
    have hbefore := (ReaderState.Later.advance s).clear hclear
    rw [run_skipPeek, hs'.peek hbefore (hs hφ), if_pos hk]
    exact ⟨_, rfl, hs'.advance hclear⟩
  · rw [if_neg hk]
    refine ⟨.refl s, fun hφ _ => ⟨rfl, fun hclear s' hs' => ?_⟩⟩
    rw [run_skipPeek, hs'.peek hclear (hs hφ), if_neg hk]
    exact ⟨_, rfl, hs'⟩

/-- Behind an expected token the run is not clear of the last one if it was at a semicolon next
to it. -/
theorem expectPeek (k : Kind) :
    FollowsAt e new φ s (Reader.expectPeek k) (Reader.expectPeek k) fun _ k' => k' = k := by
  unfold FollowsAt
  rw [run_expectPeek]
  by_cases hk : s.stream.peek.kind = k
  · rw [if_pos hk]
    refine ⟨.advance s, fun hφ _ => ?_⟩
    refine ⟨(congrArg Token.kind s.stream.current_advance).trans hk, fun hclear s' hs' => ?_⟩
    have hpeek : s'.stream.peek = s.stream.peek := by
      have h := (hs'.advance hclear).current
      rwa [Stream.current_advance, Stream.current_advance] at h
    rw [run_expectPeek, hpeek, if_pos hk]
    exact ⟨_, rfl, hs'.advance hclear⟩
  · rw [if_neg hk]
    exact ⟨⟨List.suffix_rfl, List.suffix_cons _ _⟩, fun _ => List.cons_ne_self _ _⟩

theorem skipToSemicolon :
    FollowsAt e new φ s Reader.skipToSemicolon Reader.skipToSemicolon fun _ k =>
      s.stream.current.kind ≠ .eof → k ≠ .eof := by
  refine ⟨⟨Stream.toSemicolon_left_suffix _ _, List.suffix_rfl⟩, fun _ _ => ?_⟩
  refine ⟨Stream.toSemicolon_kind_ne_eof _ _, fun hclear s' hs' => ⟨_, rfl, ?_⟩⟩
  obtain ⟨ahead, hrest, hrest'⟩ := hs'.rest
  dsimp only at hclear ⊢
  rw [hrest] at hclear ⊢
  rw [hs'.current, hrest']
  exact Stream.toSemicolon_swapped _ ahead hclear

theorem report (errors errors' : List ParseError) :
    FollowsAt e new φ s (Reader.report errors) (Reader.report errors') fun _ k =>
      errors = [] ∧ k = s.stream.current.kind := by
  refine ⟨⟨List.suffix_rfl, List.suffix_append _ _⟩, fun _ hclean => ?_⟩
  refine ⟨⟨?_, rfl⟩, fun _ _ hs' => ⟨_, rfl, hs'⟩⟩
  have h : errors.reverse ++ s.errors = s.errors := hclean
  simpa using h

theorem attempt (hr : FollowsAt e new φ s r r' Q) :
    FollowsAt e new φ s (Reader.attempt r) (Reader.attempt r') fun o k =>
      ∃ a, o = some a ∧ Q a k := by
  unfold FollowsAt at hr ⊢
  rw [run_attempt]
  cases hrun : r s with
  | ok a s₁ =>
    rw [hrun] at hr
    refine ⟨hr.1, fun hφ hclean => ?_⟩
    obtain ⟨hQ, hsame⟩ := hr.2 hφ hclean
    refine ⟨⟨a, rfl, hQ⟩, fun hclear s' hs' => ?_⟩
    obtain ⟨s₁', hrun', hs₁'⟩ := hsame hclear s' hs'
    exact ⟨s₁', run_attempt_ok hrun', hs₁'⟩
  | error failure s₁ =>
    rw [hrun] at hr
    cases failure with
    | outOfFuel => trivial
    | misfit => exact ⟨hr.1, fun hφ hclean => (hr.2 hφ hclean).elim⟩

theorem require {o : Option α} (h : φ → o.isSome = true) :
    FollowsAt e new φ s (Reader.require o) (Reader.require o) fun a k =>
      o = some a ∧ k = s.stream.current.kind := by
  cases o with
  | some a => exact pure fun _ => ⟨rfl, rfl⟩
  | none => exact ⟨.refl s, fun hφ => by simpa using h hφ⟩

end FollowsAt

end Reader

end Vorn
