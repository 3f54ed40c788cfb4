import Vorn.Proofs.Grammar.Lookahead

/-!
# A parenthesis closes what a semicolon ends

An expression that is read without errors in front of a semicolon is read in the same way in front
of a closing parenthesis. The grammar looks at the token behind the expression, but it takes neither
of the two into an expression, except for a parenthesis that closes an empty list, and in that place
a semicolon is an error.

`Reader.ClosesAt E s r r'` says of the run of `r` from `s`: it moves on and adds errors only. If no
error is added and the semicolon is still ahead at the end, then `r'` does the same on a stream with
the parenthesis, and what follows it, in the place of the semicolon. `r` and `r'` are one function of
the grammar with different fuel. The rules below take a reader apart along its steps; the
functions of the grammar follow in `Vorn.Proofs.Grammar.Enclosing`.
-/

namespace Vorn

/-- Two ways to go on behind an expression. -/
structure Endings where
  semicolon : Token
  behind : List Token
  paren : Token
  behindParen : List Token
  semicolon_kind : semicolon.kind = .semicolon
  paren_kind : paren.kind = .rparen

namespace Endings

variable (E : Endings)

def old : List Token := E.semicolon :: E.behind

def new : List Token := E.paren :: E.behindParen

/-- The semicolon has not been read. -/
def Ahead (s : ReaderState) : Prop := E.old.length ≤ s.stream.rest.length

/-- `s'` stands at the same token as `s`, with the parenthesis in the place of the semicolon, and the
same was reported. -/
structure Recast (s s' : ReaderState) : Prop where
  current : s'.stream.current = s.stream.current
  rest : ∃ ahead, s.stream.rest = ahead ++ E.old ∧ s'.stream.rest = ahead ++ E.new
  errors : s'.errors = s.errors

/-- The next token is the same, or it is the one that differs. -/
def Matches (t t' : Token) : Prop := t' = t ∨ t.kind = .semicolon ∧ t'.kind = .rparen

end Endings

namespace Endings

variable {E : Endings} {s s' s₁ : ReaderState} {t t' : Token}

theorem Matches.kind_eq (h : Matches t t') {k : Kind} (hsemicolon : k ≠ .semicolon)
    (hparen : k ≠ .rparen) : t'.kind = k ↔ t.kind = k := by
  rcases h with rfl | ⟨hk, hk'⟩
  · exact Iff.rfl
  · rw [hk, hk']
    exact ⟨fun h => absurd h.symm hparen, fun h => absurd h.symm hsemicolon⟩

theorem Matches.level (h : Matches t t') : t'.kind.level = t.kind.level := by
  rcases h with rfl | ⟨hk, hk'⟩
  · rfl
  · rw [hk, hk']
    rfl

theorem ahead_of_later (h : s.Later s₁) (hahead : E.Ahead s₁) : E.Ahead s :=
  Nat.le_trans hahead h.length_le

namespace Recast

/-- The token that differs is the next one, or both go on with the same token. -/
theorem next (h : E.Recast s s') : s.stream.rest = E.old ∧ s'.stream.rest = E.new ∨
    ∃ t ahead, s.stream.rest = t :: (ahead ++ E.old) ∧ s'.stream.rest = t :: (ahead ++ E.new) := by
  obtain ⟨ahead, hrest, hrest'⟩ := h.rest
  cases ahead with
  | nil => exact .inl ⟨hrest, hrest'⟩
  | cons t ahead => exact .inr ⟨t, ahead, hrest, hrest'⟩

theorem peek_cases (h : E.Recast s s') :
    s.stream.rest = E.old ∧ s'.stream.peek = E.paren ∨ s'.stream.peek = s.stream.peek := by
  unfold Stream.peek
  rcases h.next with ⟨hrest, hrest'⟩ | ⟨t, ahead, hrest, hrest'⟩
  · exact .inl ⟨hrest, by rw [hrest']; rfl⟩
  · exact .inr (by rw [hrest, hrest']; rfl)

theorem peek (h : E.Recast s s') : Matches s.stream.peek s'.stream.peek := by
  rcases h.peek_cases with ⟨hrest, hpeek⟩ | hpeek
  · refine .inr ⟨?_, by rw [hpeek, E.paren_kind]⟩
    rw [Stream.peek, hrest]
    exact E.semicolon_kind
  · exact .inl hpeek

/-- Whoever has moved on and not read the semicolon has moved on past the same token. -/
theorem advance (h : E.Recast s s') (hahead : E.Ahead { s with stream := s.stream.advance }) :
    E.Recast { s with stream := s.stream.advance } { s' with stream := s'.stream.advance } := by
  rcases h.next with ⟨hrest, -⟩ | ⟨t, ahead, hrest, hrest'⟩
  · simp only [Ahead, Stream.advance, hrest, old, List.length_cons] at hahead
    omega
  · refine ⟨?_, ⟨ahead, ?_, ?_⟩, h.errors⟩ <;> simp [Stream.advance, hrest, hrest']

/-- In this case both stood in front of the same token. -/
theorem peek_of_advance (h : E.Recast s s')
    (hahead : E.Ahead { s with stream := s.stream.advance }) : s'.stream.peek = s.stream.peek := by
  have hcurrent := (h.advance hahead).current
  rwa [Stream.current_advance, Stream.current_advance] at hcurrent

/-- The run up to a semicolon passes the same tokens, unless it reads the one that differs. -/
theorem exists_toSemicolon (current : Token) : ∀ ahead : List Token,
    E.old.length ≤ (Stream.toSemicolon current (ahead ++ E.old)).rest.length →
      ∃ t ahead', Stream.toSemicolon current (ahead ++ E.old) = ⟨t, ahead' ++ E.old⟩ ∧
        Stream.toSemicolon current (ahead ++ E.new) = ⟨t, ahead' ++ E.new⟩
  | [], hahead => by
    have hstay : current.kind = .semicolon := by
      by_cases hk : current.kind = .semicolon
      · exact hk
      have hgo : ¬ (current.kind = .semicolon ∨ E.semicolon.kind = .eof ∨
          E.semicolon.kind = .rbrace) := by
        rw [E.semicolon_kind]
        simp [hk]
      have hle := (Stream.toSemicolon_left_suffix E.semicolon E.behind).length_le
      rw [List.nil_append, old, Stream.toSemicolon, if_neg hgo] at hahead
      simp only [Stream.left, List.length_cons] at hahead hle
      omega
    refine ⟨current, [], ?_, ?_⟩
    · rw [List.nil_append, old, Stream.toSemicolon, if_pos (.inl hstay)]
    · rw [List.nil_append, new, Stream.toSemicolon, if_pos (.inl hstay)]
  | t :: ahead, hahead => by
    rw [List.cons_append, List.cons_append, Stream.toSemicolon, Stream.toSemicolon] at *
    split
    · exact ⟨current, t :: ahead, rfl, rfl⟩
    · rw [if_neg ‹_›] at hahead
      exact exists_toSemicolon t ahead hahead

theorem toSemicolon (h : E.Recast s s')
    (hahead : E.Ahead { s with stream := .toSemicolon s.stream.current s.stream.rest }) :
    E.Recast { s with stream := .toSemicolon s.stream.current s.stream.rest }
      { s' with stream := .toSemicolon s'.stream.current s'.stream.rest } := by
  obtain ⟨ahead, hrest, hrest'⟩ := h.rest
  rw [h.current, hrest, hrest']
  rw [hrest] at hahead
  obtain ⟨t, ahead', hold, hnew⟩ := exists_toSemicolon s.stream.current ahead hahead
  rw [hold, hnew]
  exact ⟨rfl, ⟨ahead', rfl, rfl⟩, h.errors⟩

end Recast

end Endings

namespace Reader

open Endings (Matches)

section

variable (E : Endings) {α : Type}

/-- What is said of one run, see above. -/
def ClosesAt (s : ReaderState) (r r' : Reader α) : Prop :=
  match r s with
  | .ok a s₁ => s.Later s₁ ∧ (s₁.errors = s.errors → E.Ahead s₁ → ∀ s', E.Recast s s' →
      ∃ s₁', r' s' = .ok a s₁' ∧ E.Recast s₁ s₁')
  | .error .misfit s₁ => s.Later s₁
  | .error .outOfFuel _ => True

/-- The same of all runs. -/
def Closes (r r' : Reader α) : Prop := ∀ s, ClosesAt E s r r'

/-- The run reports something, or it reads the semicolon. -/
def CrossesAt (s : ReaderState) (r : Reader α) : Prop :=
  ∀ a s₁, r s = .ok a s₁ → s₁.errors = s.errors → ¬ E.Ahead s₁

end

namespace ClosesAt

variable {E : Endings} {α β : Type} {s : ReaderState} {r r' : Reader α} {f f' : α → Reader β}

theorem bind (hr : ClosesAt E s r r') (hf : ∀ a, Closes E (f a) (f' a)) :
    ClosesAt E s (r >>= f) (r' >>= f') := by
  unfold ClosesAt at hr ⊢
  rw [run_bind]
  cases hrun : r s with
  | error failure s₁ =>
    rw [hrun] at hr
    cases failure <;> exact hr
  | ok a s₁ =>
    rw [hrun] at hr
    obtain ⟨hlater, hr⟩ := hr
    have hfa := hf a s₁
    unfold ClosesAt at hfa
    dsimp only
    cases hrun₁ : f a s₁ with
    | error failure s₂ =>
      rw [hrun₁] at hfa
      cases failure with
      | outOfFuel => trivial
      | misfit => exact hlater.trans hfa
    | ok b s₂ =>
      rw [hrun₁] at hfa
      obtain ⟨hlater', hfa⟩ := hfa
      refine ⟨hlater.trans hlater', fun hclean hahead s' hs' => ?_⟩
      obtain ⟨hclean₁, hclean₂⟩ := hlater.clean hlater' hclean
      obtain ⟨s₁', hrun', hs₁'⟩ := hr hclean₁ (Endings.ahead_of_later hlater' hahead) s' hs'
      obtain ⟨s₂', hrun₁', hs₂'⟩ := hfa hclean₂ hahead s₁' hs₁'
      exact ⟨s₂', by rw [run_bind_ok hrun', hrun₁'], hs₂'⟩

/-- A reader that looks at the state and goes on with what it saw. On the other stream it may see
something else. -/
theorem look {a : α} (hrun : r s = .ok a s)
    (hf : ClosesAt E s (f a) (f' a))
    (hother : ∀ s', E.Recast s s' → ∃ a', r' s' = .ok a' s' ∧ ClosesAt E s (f a) (f' a')) :
    ClosesAt E s (r >>= f) (r' >>= f') := by
  unfold ClosesAt at hf hother ⊢
  rw [run_bind_ok hrun]
  revert hf hother
  cases f a s with
  | error failure s₁ => exact fun hf _ => by cases failure <;> exact hf
  | ok b s₁ =>
    intro hf hother
    refine ⟨hf.1, fun hclean hahead s' hs' => ?_⟩
    obtain ⟨a', hrun', hf'⟩ := hother s' hs'
    obtain ⟨s₁', hrun₁', hs₁'⟩ := hf'.2 hclean hahead s' hs'
    exact ⟨s₁', by rw [run_bind_ok hrun', hrun₁'], hs₁'⟩

theorem pure {a : α} : ClosesAt E s (Pure.pure a) (Pure.pure a) :=
  ⟨.refl s, fun _ _ s' hs' => ⟨s', rfl, hs'⟩⟩

theorem outOfFuel : ClosesAt E s (throw .outOfFuel) r' := trivial

theorem fail (pos pos' : Pos) (m m' : Misfit) :
    ClosesAt E s (Reader.fail pos m : Reader α) (Reader.fail pos' m') :=
  ⟨List.suffix_rfl, List.suffix_cons _ _⟩

theorem ite {c : Prop} [Decidable c] {u u' : Reader α} (ht : c → ClosesAt E s r r')
    (he : ¬ c → ClosesAt E s u u') : ClosesAt E s (if c then r else u) (if c then r' else u') := by
  split
  · exact ht ‹_›
  · exact he ‹_›

/-! ## Single steps -/

theorem current_bind {f f' : Token → Reader β}
    (hf : ClosesAt E s (f s.stream.current) (f' s.stream.current)) :
    ClosesAt E s (Reader.current >>= f) (Reader.current >>= f') :=
  look (run_current s) hf fun s' hs' => ⟨_, run_current s', hs'.current ▸ hf⟩

theorem currentIs_bind {k : Kind} {f f' : Bool → Reader β}
    (hf : ∀ b, ClosesAt E s (f b) (f' b)) :
    ClosesAt E s (Reader.currentIs k >>= f) (Reader.currentIs k >>= f') :=
  look (run_currentIs s k) (hf _) fun s' hs' => ⟨_, run_currentIs s' k, hs'.current ▸ hf _⟩

/-- What is done with the next token must not depend on which of the two ends the expression. -/
theorem peek_bind {f f' : Token → Reader β}
    (hf : ∀ t', Matches s.stream.peek t' → ClosesAt E s (f s.stream.peek) (f' t')) :
    ClosesAt E s (Reader.peek >>= f) (Reader.peek >>= f') :=
  look (run_peek s) (hf _ (.inl rfl)) fun s' hs' => ⟨_, run_peek s', hf _ hs'.peek⟩

theorem peekIs_bind {k : Kind} (hsemicolon : k ≠ .semicolon) (hparen : k ≠ .rparen)
    {f f' : Bool → Reader β} (hf : ∀ b, ClosesAt E s (f b) (f' b)) :
    ClosesAt E s (Reader.peekIs k >>= f) (Reader.peekIs k >>= f') := by
  refine look (run_peekIs s k) (hf _) fun s' hs' => ⟨_, run_peekIs s' k, ?_⟩
  rw [decide_eq_decide.mpr (hs'.peek.kind_eq hsemicolon hparen)]
  exact hf _

theorem advance : ClosesAt E s Reader.advance Reader.advance :=
  ⟨.advance s, fun _ hahead _ hs' => ⟨_, rfl, hs'.advance hahead⟩⟩

theorem expectPeek (k : Kind) : ClosesAt E s (Reader.expectPeek k) (Reader.expectPeek k) := by
  unfold ClosesAt
  rw [run_expectPeek]
  by_cases hk : s.stream.peek.kind = k
  · rw [if_pos hk]
    refine ⟨.advance s, fun _ hahead s' hs' => ?_⟩
    rw [run_expectPeek, hs'.peek_of_advance hahead, if_pos hk]
    exact ⟨_, rfl, hs'.advance hahead⟩
  · rw [if_neg hk]
    exact ⟨List.suffix_rfl, List.suffix_cons _ _⟩

/-- If the parenthesis is what is looked for, then the run that does not find it must not end in
front of the semicolon. -/
theorem skipPeek_bind {k : Kind} {f f' : Bool → Reader β} (ht : Closes E (f true) (f' true))
    (hf : ClosesAt E s (f false) (f' false))
    (hcross : k = .rparen → s.stream.rest = E.old → CrossesAt E s (f false)) :
    ClosesAt E s (Reader.skipPeek k >>= f) (Reader.skipPeek k >>= f') := by
  unfold ClosesAt at hf ⊢
  by_cases hk : s.stream.peek.kind = k
  · have hrun : Reader.skipPeek k s = .ok true { s with stream := s.stream.advance } := by
      rw [run_skipPeek, if_pos hk]
    have htrue := ht { s with stream := s.stream.advance }
    unfold ClosesAt at htrue
    rw [run_bind_ok hrun]
    revert htrue
    cases f true { s with stream := s.stream.advance } with
    | error failure s₁ =>
      cases failure with
      | outOfFuel => exact id
      | misfit => exact (ReaderState.Later.advance s).trans
    | ok a s₁ =>
      rintro ⟨hlater, hsame⟩
      refine ⟨(ReaderState.Later.advance s).trans hlater, fun hclean hahead s' hs' => ?_⟩
      have hahead₁ := Endings.ahead_of_later hlater hahead
      obtain ⟨s₁', hrun₁', hs₁'⟩ := hsame hclean hahead _ (hs'.advance hahead₁)
      have hrun' : Reader.skipPeek k s' = .ok true { s' with stream := s'.stream.advance } := by
        rw [run_skipPeek, hs'.peek_of_advance hahead₁, if_pos hk]
      exact ⟨s₁', by rw [run_bind_ok hrun', hrun₁'], hs₁'⟩
  · have hrun : Reader.skipPeek k s = .ok false s := by rw [run_skipPeek, if_neg hk]
    unfold CrossesAt at hcross
    rw [run_bind_ok hrun]
    revert hf hcross
    cases f false s with
    | error failure s₁ => exact fun hf _ => by cases failure <;> exact hf
    | ok a s₁ =>
      intro hf hcross
      refine ⟨hf.1, fun hclean hahead s' hs' => ?_⟩
      obtain ⟨s₁', hrun₁', hs₁'⟩ := hf.2 hclean hahead s' hs'
      have hk' : s'.stream.peek.kind ≠ k := by
        rcases hs'.peek_cases with ⟨hrest, hpeek⟩ | hpeek
        · rintro rfl
          exact hcross (by rw [hpeek, E.paren_kind]) hrest a s₁ rfl hclean hahead
        · rwa [hpeek]
      have hrun' : Reader.skipPeek k s' = .ok false s' := by rw [run_skipPeek, if_neg hk']
      exact ⟨s₁', by rw [run_bind_ok hrun', hrun₁'], hs₁'⟩

theorem skipPeek_bind_of_ne {k : Kind} (hk : k ≠ .rparen) {f f' : Bool → Reader β}
    (ht : Closes E (f true) (f' true)) (hf : ClosesAt E s (f false) (f' false)) :
    ClosesAt E s (Reader.skipPeek k >>= f) (Reader.skipPeek k >>= f') :=
  skipPeek_bind ht hf fun h => absurd h hk

theorem skipToSemicolon : ClosesAt E s Reader.skipToSemicolon Reader.skipToSemicolon :=
  ⟨⟨Stream.toSemicolon_left_suffix _ _, List.suffix_rfl⟩, fun _ hahead _ hs' =>
    ⟨_, rfl, hs'.toSemicolon hahead⟩⟩

theorem report (errors : List ParseError) :
    ClosesAt E s (Reader.report errors) (Reader.report errors) :=
  ⟨⟨List.suffix_rfl, List.suffix_append _ _⟩, fun _ _ _ hs' =>
    ⟨_, rfl, hs'.current, hs'.rest, congrArg (errors.reverse ++ ·) hs'.errors⟩⟩

/-- An attempt that does not succeed has reported an error. -/
theorem attempt (hr : ClosesAt E s r r')
    (hmisfit : ∀ s₁, r s = .error .misfit s₁ → s₁.errors ≠ s.errors) :
    ClosesAt E s (Reader.attempt r) (Reader.attempt r') := by
  unfold ClosesAt at hr ⊢
  rw [run_attempt]
  cases hrun : r s with
  | ok a s₁ =>
    rw [hrun] at hr
    refine ⟨hr.1, fun hclean hahead s' hs' => ?_⟩
    obtain ⟨s₁', hrun', hs₁'⟩ := hr.2 hclean hahead s' hs'
    exact ⟨s₁', run_attempt_ok hrun', hs₁'⟩
  | error failure s₁ =>
    rw [hrun] at hr
    cases failure with
    | outOfFuel => trivial
    | misfit => exact ⟨hr, fun hclean => (hmisfit s₁ hrun hclean).elim⟩

theorem require (o : Option α) : ClosesAt E s (Reader.require o) (Reader.require o) := by
  cases o with
  | some a => exact pure
  | none => exact .refl s

end ClosesAt

namespace CrossesAt

variable {E : Endings} {α β : Type} {s : ReaderState} {r r' : Reader β} {f : Unit → Reader β}

/-- In front of the semicolon, whoever moves on reads it. -/
theorem advance_bind (hnext : s.stream.rest = E.old) (hr : Closes E r r') :
    CrossesAt E s (Reader.advance >>= fun _ => r) := by
  intro b s₁ hrun _ hahead
  rw [run_bind_ok (run_advance s)] at hrun
  have hlater := hr { s with stream := s.stream.advance }
  unfold ClosesAt at hlater
  rw [hrun] at hlater
  have hahead₁ := Endings.ahead_of_later hlater.1 hahead
  simp only [Endings.Ahead, Stream.advance, hnext, Endings.old, List.length_cons] at hahead₁
  omega

/-- In front of the semicolon, no other token is there to be expected. -/
theorem expectPeek_bind {k : Kind} (hk : k ≠ .semicolon) (hnext : s.stream.rest = E.old) :
    CrossesAt E s (Reader.expectPeek k >>= f) := by
  have hpeek : s.stream.peek.kind ≠ k := by
    rw [Stream.peek, hnext]
    exact fun h => hk (h.symm.trans E.semicolon_kind)
  intro b s₁ hrun
  rw [run_bind, run_expectPeek, if_neg hpeek] at hrun
  cases hrun

end CrossesAt

end Reader

end Vorn
