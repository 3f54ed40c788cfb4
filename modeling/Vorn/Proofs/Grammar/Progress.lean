import Vorn.Proofs.Grammar.Run

/-!
# Readers that come to an end

The last token marks the end and nothing else does. So a reader that has seen another token can
move on, and what it still may do can be bounded by the number of tokens that are left.

`Reader.Sure ts b n w r Q` says of a reader with fuel `n` that starts among the tokens `ts`, with at
most `b` of them behind the current one: it stays among the tokens and does not go back, `Q` holds of
its result, and if it runs out of fuel then its fuel and the tokens that are still left, at 16 units
each, do not exceed `w`. A call is made with one unit of fuel less, so that a caller may claim more
than the one it calls (`Sure.call`). The rules below take a reader apart along its steps; a step that
moves on leaves one token less, and one that has seen the kind of a token knows that there was one.
-/

namespace Vorn

/-- The last token marks the end. -/
def EndsWithEof (ts : List Token) : Prop := ∃ t, ts.getLast? = some t ∧ t.kind = .eof

theorem EndsWithEof.ne_nil {ts : List Token} (h : EndsWithEof ts) : ts ≠ [] := by
  rintro rfl
  obtain ⟨t, ht, _⟩ := h
  cases ht

theorem EndsWithEof.append (ts : List Token) {us : List Token} (h : EndsWithEof us) :
    EndsWithEof (ts ++ us) := by
  obtain ⟨t, ht, hk⟩ := h
  exact ⟨t, by rw [List.getLast?_append, ht]; rfl, hk⟩

/-- The stream stands in the tokens, with at most `b` behind the current one. -/
structure Stream.Within (ts : List Token) (b : Nat) (s : Stream) : Prop where
  mem : ∀ t ∈ s.current :: s.rest, t ∈ ts
  last : EndsWithEof (s.current :: s.rest)
  length_le : s.rest.length ≤ b

namespace Stream.Within

variable {ts : List Token} {b b' : Nat} {s : Stream}

theorem mono (h : s.Within ts b) (hb : b ≤ b') : s.Within ts b' :=
  ⟨h.mem, h.last, Nat.le_trans h.length_le hb⟩

theorem current_mem (h : s.Within ts b) : s.current ∈ ts := h.mem _ List.mem_cons_self

theorem advance (h : s.Within ts b) : s.advance.Within ts (b - 1) := by
  obtain ⟨current, rest⟩ := s
  cases rest with
  | nil => exact ⟨h.mem, h.last, Nat.zero_le _⟩
  | cons t rest =>
    have hlength := h.length_le
    have hlast := h.last
    refine ⟨fun u hu => h.mem u (List.mem_cons_of_mem _ hu), ?_, ?_⟩
    · rwa [EndsWithEof, List.getLast?_cons_cons] at hlast
    · simp only [Stream.advance_cons, List.length_cons] at hlength ⊢
      omega

theorem peek_mem (h : s.Within ts b) : s.peek ∈ ts := by
  rw [← Stream.current_advance]
  exact h.advance.current_mem

/-- Behind a token that is not the last there is another. -/
theorem pos_of_current (h : s.Within ts b) (hk : s.current.kind ≠ .eof) : 0 < b := by
  obtain ⟨current, rest⟩ := s
  cases rest with
  | nil =>
    obtain ⟨t, ht, heof⟩ := h.last
    cases ht
    exact (hk heof).elim
  | cons t rest => exact Nat.lt_of_lt_of_le (Nat.zero_lt_succ _) h.length_le

theorem lt_of_peek (h : s.Within ts b) (hk : s.peek.kind ≠ .eof) : 1 < b := by
  rw [← Stream.current_advance] at hk
  have := h.advance.pos_of_current hk
  omega

theorem toSemicolon : ∀ {current : Token} {rest : List Token},
    Stream.Within ts b ⟨current, rest⟩ → (Stream.toSemicolon current rest).Within ts b
  | _, [], h => h
  | _, t :: rest, h => by
    rw [Stream.toSemicolon]
    split
    · exact h
    · exact toSemicolon (h.advance.mono (Nat.sub_le b 1))

end Stream.Within

/-! ## Readers that come to an end -/

namespace Reader

variable {α β : Type} {ts : List Token} {b b' n w w' : Nat} {s : ReaderState}

/-- What `Sure` says of the run that starts in `s`. -/
def SureAt (ts : List Token) (b n w : Nat) (s : ReaderState) (r : Reader α) (Q : α → Prop) : Prop :=
  match r s with
  | .ok a s' => s'.stream.Within ts b ∧ Q a
  | .error .misfit s' => s'.stream.Within ts b
  | .error .outOfFuel s' => s'.stream.Within ts b ∧ 16 * s'.stream.rest.length + n ≤ w

/-- With at most `b` tokens left the reader does not go back, `Q` holds of its result, and it does
not run out of its fuel `n` without having read so much that `w` covers the rest. -/
def Sure (ts : List Token) (b n w : Nat) (r : Reader α) (Q : α → Prop) : Prop :=
  ∀ s, s.stream.Within ts b → SureAt ts b n w s r Q

namespace Sure

variable {r : Reader α} {f : α → Reader β} {Q Q' : α → Prop} {R : β → Prop}

theorem conseq (h : Sure ts b n w r Q) (hQ : ∀ a, Q a → Q' a) : Sure ts b n w r Q' := by
  intro s hs
  have hrun := h s hs
  unfold SureAt at hrun ⊢
  revert hrun
  cases r s with
  | ok a s' => exact fun hrun => ⟨hrun.1, hQ a hrun.2⟩
  | error e s' => cases e <;> exact id

theorem callAt (hw : w < w') (h : SureAt ts b n w s r Q) : SureAt ts b (n + 1) w' s r Q := by
  unfold SureAt at h ⊢
  revert h
  cases r s with
  | ok a s' => exact id
  | error e s' =>
    cases e with
    | misfit => exact id
    | outOfFuel => exact fun h => ⟨h.1, by omega⟩

/-- A call, seen by a caller that has one unit of fuel more. -/
theorem call (hw : w < w') (h : Sure ts b n w r Q) : Sure ts b (n + 1) w' r Q :=
  fun s hs => callAt hw (h s hs)

theorem bindAt (hb : b ≤ b') (hr : SureAt ts b n w s r Q)
    (hf : ∀ a, Q a → Sure ts b n w (f a) R) : SureAt ts b' n w s (r >>= f) R := by
  unfold SureAt at hr ⊢
  rw [run_bind]
  revert hr
  cases r s with
  | error e s' =>
    cases e with
    | misfit => exact fun hr => hr.mono hb
    | outOfFuel => exact fun hr => ⟨hr.1.mono hb, hr.2⟩
  | ok a s' =>
    rintro ⟨hs', ha⟩
    have hrun := hf a ha s' hs'
    unfold SureAt at hrun
    revert hrun
    dsimp only
    cases f a s' with
    | ok c s'' => exact fun hrun => ⟨hrun.1.mono hb, hrun.2⟩
    | error e s'' =>
      cases e with
      | misfit => exact fun hrun => hrun.mono hb
      | outOfFuel => exact fun hrun => ⟨hrun.1.mono hb, hrun.2⟩

theorem bind (hr : Sure ts b n w r Q) (hf : ∀ a, Q a → Sure ts b n w (f a) R) : Sure ts b n w (r >>= f) R :=
  fun s hs => bindAt (Nat.le_refl b) (hr s hs) hf

/-- A first step that is known to give `a` and to leave at most `b` tokens. -/
theorem stepAt {s' : ReaderState} {a : α} (hrun : r s = .ok a s') (hb : b ≤ b')
    (hs' : s'.stream.Within ts b) (hf : Sure ts b n w (f a) R) : SureAt ts b' n w s (r >>= f) R := by
  refine bindAt hb (Q := (· = a)) ?_ ?_
  · unfold SureAt
    rw [hrun]
    exact ⟨hs', rfl⟩
  · rintro _ rfl
    exact hf

theorem pure {a : α} (h : Q a) : Sure ts b n w (Pure.pure a) Q := fun _ hs => ⟨hs, h⟩

theorem ite {c : Prop} [Decidable c] {r' : Reader α} (ht : c → Sure ts b n w r Q)
    (he : ¬ c → Sure ts b n w r' Q) : Sure ts b n w (if c then r else r') Q := by
  split
  · exact ht ‹_›
  · exact he ‹_›

theorem outOfFuel (hw : 16 * b + n ≤ w) : Sure ts b n w (throw .outOfFuel : Reader α) Q := by
  intro s hs
  have := hs.length_le
  exact ⟨hs, by omega⟩

theorem fail (pos : Pos) (m : Misfit) : Sure ts b n w (Reader.fail pos m : Reader α) Q :=
  fun _ hs => hs

theorem report (errors : List ParseError) : Sure ts b n w (Reader.report errors) fun _ => True :=
  fun _ hs => ⟨hs, trivial⟩

theorem skipToSemicolon : Sure ts b n w Reader.skipToSemicolon fun _ => True :=
  fun _ hs => ⟨hs.toSemicolon, trivial⟩

theorem attempt (h : Sure ts b n w r Q) : Sure ts b n w (Reader.attempt r) fun o => ∀ a ∈ o, Q a := by
  intro s hs
  have hrun := h s hs
  unfold SureAt at hrun ⊢
  rw [run_attempt]
  revert hrun
  cases r s with
  | ok a s' => exact fun hrun => ⟨hrun.1, by simpa using hrun.2⟩
  | error e s' =>
    cases e with
    | misfit => exact fun hrun => ⟨hrun, by simp⟩
    | outOfFuel => exact id

theorem require {o : Option α} (h : ∀ a ∈ o, Q a) : Sure ts b n w (Reader.require o) Q := by
  cases o with
  | none => exact fun _ hs => hs
  | some a => exact pure (h a rfl)

theorem currentIs_bind {k : Kind} {f : Bool → Reader β}
    (ht : Sure ts b n w (f true) R)
    (he : (k = .eof → 0 < b) → Sure ts b n w (f false) R) :
    Sure ts b n w (Reader.currentIs k >>= f) R := by
  intro s hs
  refine stepAt (run_currentIs s k) (Nat.le_refl b) hs ?_
  by_cases hk : s.stream.current.kind = k
  · simpa [hk] using ht
  · rw [decide_eq_false hk]
    refine he ?_
    rintro rfl
    exact hs.pos_of_current hk

theorem current_bind {f : Token → Reader β}
    (hf : ∀ t ∈ ts, (t.kind ≠ .eof → 0 < b) → Sure ts b n w (f t) R) :
    Sure ts b n w (Reader.current >>= f) R := fun s hs =>
  stepAt (run_current s) (Nat.le_refl b) hs (hf _ hs.current_mem hs.pos_of_current)

theorem peek_bind {f : Token → Reader β}
    (hf : ∀ t ∈ ts, (t.kind ≠ .eof → 1 < b) → Sure ts b n w (f t) R) :
    Sure ts b n w (Reader.peek >>= f) R := fun s hs =>
  stepAt (run_peek s) (Nat.le_refl b) hs (hf _ hs.peek_mem hs.lt_of_peek)

/-- A branch that is taken because of the kind of the next token. -/
theorem peekIs_bind {k : Kind} {f : Bool → Reader β}
    (ht : ∀ s, s.stream.Within ts b → s.stream.peek.kind = k → SureAt ts b n w s (f true) R)
    (he : Sure ts b n w (f false) R) : Sure ts b n w (Reader.peekIs k >>= f) R := by
  intro s hs
  unfold SureAt
  rw [run_bind_ok (run_peekIs s k)]
  by_cases hk : s.stream.peek.kind = k
  · rw [decide_eq_true hk]
    exact ht s hs hk
  · rw [decide_eq_false hk]
    exact he s hs

theorem advance_bind {f : Unit → Reader β} (hf : Sure ts (b - 1) n w (f ()) R) :
    Sure ts b n w (Reader.advance >>= f) R := fun s hs =>
  stepAt (run_advance s) (Nat.sub_le b 1) hs.advance hf

theorem skipPeek_bind {k : Kind} {f : Bool → Reader β} (hk : k ≠ .eof)
    (ht : 1 < b → Sure ts (b - 1) n w (f true) R) (he : Sure ts b n w (f false) R) :
    Sure ts b n w (Reader.skipPeek k >>= f) R := by
  intro s hs
  have hrun := run_skipPeek s k
  by_cases hpeek : s.stream.peek.kind = k
  · rw [if_pos hpeek] at hrun
    exact stepAt hrun (Nat.sub_le b 1) hs.advance (ht (hs.lt_of_peek (hpeek ▸ hk)))
  · rw [if_neg hpeek] at hrun
    exact stepAt hrun (Nat.le_refl b) hs he

/-- The current token behind an `expectPeek` is of the kind that was expected, and it is not the
last. -/
theorem expectPeek_current {k : Kind} {f : Token → Reader β} (hk : k ≠ .eof)
    (hf : ∀ t ∈ ts, t.kind = k → 1 < b → Sure ts (b - 1) n w (f t) R) :
    Sure ts b n w (Reader.expectPeek k >>= fun _ => Reader.current >>= f) R := by
  intro s hs
  have hrun := run_expectPeek s k
  by_cases hpeek : s.stream.peek.kind = k
  · rw [if_pos hpeek] at hrun
    unfold SureAt
    rw [run_bind_ok hrun]
    refine stepAt (run_current _) (Nat.sub_le b 1) hs.advance ?_
    rw [Stream.current_advance]
    exact hf _ hs.peek_mem hpeek (hs.lt_of_peek (hpeek ▸ hk))
  · rw [if_neg hpeek] at hrun
    unfold SureAt
    rw [run_bind, hrun]
    exact hs

theorem expectPeek_bind {k : Kind} {f : Unit → Reader β} (hk : k ≠ .eof)
    (hf : 1 < b → Sure ts (b - 1) n w (f ()) R) : Sure ts b n w (Reader.expectPeek k >>= f) R := by
  intro s hs
  have hrun := run_expectPeek s k
  by_cases hpeek : s.stream.peek.kind = k
  · rw [if_pos hpeek] at hrun
    exact stepAt hrun (Nat.sub_le b 1) hs.advance (hf (hs.lt_of_peek (hpeek ▸ hk)))
  · rw [if_neg hpeek] at hrun
    unfold SureAt
    rw [run_bind, hrun]
    exact hs

theorem expectPeek {k : Kind} (hk : k ≠ .eof) :
    Sure ts b n w (Reader.expectPeek k) fun _ => True := by
  have h : Sure ts b n w (Reader.expectPeek k >>= Pure.pure) fun _ => True :=
    expectPeek_bind hk fun _ => pure trivial
  rwa [bind_pure] at h

end Sure

end Reader

end Vorn
