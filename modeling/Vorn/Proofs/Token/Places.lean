import Vorn.Proofs.Token.LongestMatch

/-!
# Where tokens stand

The scanner counts lines and columns along the way. `Pos.ofOffset` counts them afresh from the
start of the text, and `token_places` says that the two agree for every token: the place of a
token is that of its first character, or of the end of the source for a token without text. Behind
a text whose quote is never closed the end is shown one column further.

`Cursor.read_tokensFrom` is about a reader that goes on at the end: it finds the end again, at the
same place.
-/

namespace Vorn

/-- The place of the character at an offset: one more than the line breaks before it, and two more
than the characters between it and the last of them. -/
def Pos.ofOffset (text : List Char) (offset : Nat) : Pos :=
  let before := text.take offset
  ⟨1 + before.count '\n', 2 + (before.reverse.takeWhile (· != '\n')).length⟩

/-- The place one column further. -/
def Pos.right (p : Pos) : Pos := ⟨p.line, p.column + 1⟩

/-- Counting along the way and counting afresh come to the same. -/
theorem Pos.after_start (text : List Char) :
    Pos.start.after text = Pos.ofOffset text text.length := by
  rw [Pos.ofOffset, List.take_length]
  -- The last character decides, so the induction is from the end of the text.
  generalize htext : text.reverse = rev
  obtain rfl : text = rev.reverse := by rw [← htext, List.reverse_reverse]
  clear htext
  induction rev with
  | nil => rfl
  | cons c rev ih =>
    rw [List.reverse_cons, Pos.after_append, ih, Pos.after_cons, Pos.after_nil, Pos.next]
    by_cases hc : c = '\n'
    · simp [hc, Nat.add_assoc]
    · simp [hc, Nat.add_assoc]

/-- Only what stands before the offset counts. -/
theorem Pos.ofOffset_append (before after : List Char) :
    Pos.ofOffset (before ++ after) before.length = Pos.start.after before := by
  rw [Pos.after_start, Pos.ofOffset, Pos.ofOffset, List.take_left, List.take_length]

namespace Scan

/-- Where the input goes on behind pieces that start at `pos`. -/
def finishAll (pos : Pos) (pieces : List Piece) : Pos :=
  pieces.foldl (fun q p => p.finish q) pos

/-- The token of one of the pieces. -/
theorem placed_getElem? (pos : Pos) (before after : List Piece) (p : Piece) :
    (placed pos (before ++ p :: after))[before.length]? =
      some ⟨p.kind, p.literal, (finishAll pos before).after p.gap⟩ := by
  induction before generalizing pos with
  | nil => rfl
  | cons q qs ih =>
    rw [List.cons_append, placed, List.length_cons, List.getElem?_cons_succ, ih]
    rfl

theorem finishAll_of_closed {pieces : List Piece} (pos : Pos)
    (h : ∀ p ∈ pieces, p.isOpen = false) : finishAll pos pieces = pos.after (joined pieces) := by
  induction pieces generalizing pos with
  | nil => rfl
  | cons p ps ih =>
    obtain ⟨hp, hps⟩ := List.forall_mem_cons.mp h
    have hfinish : p.finish pos = pos.after (p.gap ++ p.text) := by simp [Piece.finish, hp]
    rw [joined_cons, ← List.append_assoc, Pos.after_append, ← hfinish]
    exact ih (p.finish pos) hps

/-! ## What stands behind an open text -/

/-- The rest of the pieces are those of the rest of the input. -/
theorem Falls.drop {input : List Char} {before after : List Piece}
    (h : Falls input (before ++ after)) (hafter : after ≠ []) :
    ∃ rest, input = joined before ++ rest ∧ Falls rest after := by
  induction before generalizing input with
  | nil => exact ⟨input, rfl, h⟩
  | cons p ps ih =>
    generalize hps : p :: ps ++ after = pieces at h
    cases h with
    | done => simp [hafter] at hps
    | @comment gap body =>
      -- Two pieces: the empty one of the comment, and the end.
      obtain ⟨rfl, hrest⟩ := List.cons.inj hps
      obtain ⟨rfl, rfl⟩ : ps = [] ∧ after = [⟨[], [], .eof, ""⟩] := by
        rcases List.append_eq_singleton_iff.mp hrest with h | ⟨-, h⟩
        · exact h
        · exact absurd h hafter
      exact ⟨[], by simp, .done .nil⟩
    | lexeme _ _ _ hrest =>
      obtain ⟨rfl, rfl⟩ := List.cons.inj hps
      obtain ⟨rest, rfl, hafter'⟩ := ih hrest
      exact ⟨rest, by simp, hafter'⟩
    | unknown _ _ _ hrest =>
      obtain ⟨rfl, rfl⟩ := List.cons.inj hps
      obtain ⟨rest, rfl, hafter'⟩ := ih hrest
      exact ⟨rest, by simp, hafter'⟩

/-- A text whose quote is never closed leaves nothing behind it. -/
theorem Spells.rest_eq_nil {text rest : List Char} {kind : Kind} {literal : String}
    (h : Spells text rest kind literal) (htext : text = '"' :: literal.toList) : rest = [] := by
  subst htext
  obtain ⟨-, -, hclosed | ⟨-, hrest⟩⟩ := h.of_quote
  · simp at hclosed
  · exact hrest

/-- Only the end follows a text whose quote is never closed. -/
theorem Falls.behind_open {input : List Char} {p : Piece} {after : List Piece}
    (h : Falls input (p :: after)) (hp : p.isOpen = true) : after = [⟨[], [], .eof, ""⟩] := by
  cases h with
  | done => simp [Piece.isOpen] at hp
  | comment => simp [Piece.isOpen] at hp
  | unknown => simp [Piece.isOpen] at hp
  | lexeme _ _ htext hrest =>
    simp only [Piece.isOpen, Bool.and_eq_true, beq_iff_eq] at hp
    obtain rfl := htext.spells.rest_eq_nil hp.2
    exact hrest.unique (.done .nil)

/-- A piece with an open text before it is the end, directly behind that text. -/
theorem Falls.eq_end_of_open {input : List Char} {before after : List Piece} {p q : Piece}
    (h : Falls input (before ++ p :: after)) (hq : q ∈ before) (hopen : q.isOpen = true) :
    p = ⟨[], [], .eof, ""⟩ ∧ ∃ front, before = front ++ [q] ∧ ∀ r ∈ front, r.isOpen = false := by
  obtain ⟨front, back, rfl⟩ := List.append_of_mem hq
  rw [List.append_assoc, List.cons_append] at h
  obtain ⟨rest, -, hrest⟩ := h.drop (List.cons_ne_nil q _)
  have hback := hrest.behind_open hopen
  obtain ⟨rfl, hp⟩ : back = [] ∧ p :: after = [⟨[], [], .eof, ""⟩] := by
    rcases List.append_eq_singleton_iff.mp hback with h | ⟨-, h⟩
    · exact h
    · exact absurd h (List.cons_ne_nil p _)
  refine ⟨(List.cons.inj hp).1, front, rfl, fun r hr => ?_⟩
  -- Two open texts would follow each other directly, but only the end follows one.
  rw [← Bool.not_eq_true]
  intro hr'
  obtain ⟨front', back', rfl⟩ := List.append_of_mem hr
  rw [List.append_assoc, List.cons_append] at h
  obtain ⟨rest', -, hrest'⟩ := h.drop (List.cons_ne_nil r _)
  have hback' := hrest'.behind_open hr'
  have hlen := congrArg List.length hback'
  simp only [List.length_append, List.length_cons, List.length_nil] at hlen
  omega

/-! ## The place of a token -/

/-- Where the token of the piece `p` stands that follows the pieces `before` in a source text. -/
def placeOf (source : List Char) (before : List Piece) (p : Piece) : Pos :=
  let place := Pos.ofOffset source (joined before ++ p.gap).length
  if p.kind = .eof ∧ ∃ q ∈ before, q.isOpen = true then place.right else place

theorem Falls.place_eq {input : List Char} {before after : List Piece} {p : Piece}
    (h : Falls input (before ++ p :: after)) :
    (finishAll .start before).after p.gap = placeOf input before p := by
  have hinput : input = (joined before ++ p.gap) ++ (p.text ++ joined after) := by
    rw [← h.joined_eq]
    simp
  have hplace : Pos.ofOffset input (joined before ++ p.gap).length =
      (Pos.start.after (joined before)).after p.gap := by
    rw [hinput, Pos.ofOffset_append, Pos.after_append]
  rw [placeOf, hplace]
  by_cases hopen : ∃ q ∈ before, q.isOpen = true
  · obtain ⟨q, hq, hqo⟩ := hopen
    obtain ⟨rfl, front, rfl, hfront⟩ := h.eq_end_of_open hq hqo
    have hfinish : finishAll .start (front ++ [q]) = q.finish (Pos.start.after (joined front)) := by
      rw [← finishAll_of_closed .start hfront]
      simp [finishAll]
    rw [if_pos ⟨rfl, q, hq, hqo⟩, hfinish, Piece.finish, if_pos hqo]
    simp [Pos.after_append, Pos.right]
  · have hclosed : ∀ q ∈ before, q.isOpen = false := by
      intro q hq
      rw [← Bool.not_eq_true]
      exact fun hq' => hopen ⟨q, hq, hq'⟩
    rw [if_neg fun h => hopen h.2, finishAll_of_closed .start hclosed]

/-- A piece without text stands at the end. -/
theorem Falls.input_of_text_nil {input : List Char} {p : Piece} {after : List Piece}
    (h : Falls input (p :: after)) (htext : p.text = []) : input = p.gap := by
  cases h with
  | done => rfl
  | comment => rfl
  | lexeme _ _ hlong _ => exact absurd htext hlong.spells.ne_nil
  | unknown => simp at htext

/-! ## Reading on -/

/-- At the end there is nothing but the end. -/
theorem Cursor.read_nil (n : Nat) (pos : Pos) :
    Cursor.read n ⟨[], pos⟩ = List.replicate n ⟨.eof, "", pos⟩ := by
  induction n with
  | zero => rfl
  | succ n ih =>
    have hnext : Cursor.next ⟨[], pos⟩ = (⟨.eof, "", pos⟩, ⟨[], pos⟩) := by
      rw [Cursor.next, gap]
      rfl
    rw [Cursor.read, hnext, ih, List.replicate_succ]

/-- Reading token by token gives the tokens, and behind them the last one again and again. -/
theorem Cursor.read_tokensFrom (input : List Char) (pos : Pos) :
    ∃ last, (tokensFrom input pos).getLast? = some last ∧ last.kind = .eof ∧
      ∀ n, Cursor.read ((tokensFrom input pos).length + n) ⟨input, pos⟩ =
        tokensFrom input pos ++ List.replicate n last := by
  fun_induction tokensFrom input pos with
  | case1 input pos text hg =>
    refine ⟨_, rfl, rfl, fun n => ?_⟩
    have hnext : Cursor.next ⟨input, pos⟩ =
        (⟨.illegal, "", pos.after text⟩, ⟨[], pos.after text⟩) := by rw [Cursor.next, hg]
    have hlen : ∀ a b : Token, [a, b].length + n = n + 1 + 1 := fun _ _ => by simp; omega
    rw [hlen, Cursor.read, hnext, Cursor.read_nil, List.replicate_succ]
    rfl
  | case2 input pos text hg =>
    refine ⟨_, rfl, rfl, fun n => ?_⟩
    have hnext : Cursor.next ⟨input, pos⟩ =
        (⟨.eof, "", pos.after text⟩, ⟨[], pos.after text⟩) := by rw [Cursor.next, hg]
    have hlen : ∀ a : Token, [a].length + n = n + 1 := fun _ => by simp; omega
    rw [hlen, Cursor.read, hnext, Cursor.read_nil]
    rfl
  | case3 input pos text c cs hg l ih =>
    obtain ⟨last, hlast, hkind, hread⟩ := ih
    refine ⟨last, ?_, hkind, fun n => ?_⟩
    · rw [List.getLast?_cons, hlast]
      rfl
    · have hnext : Cursor.next ⟨input, pos⟩ =
          (⟨l.kind, l.literal, pos.after text⟩, ⟨l.rest, l.finish (pos.after text)⟩) := by
        rw [Cursor.next, hg]
      rw [List.length_cons, Nat.add_right_comm, Cursor.read, hnext, hread]
      rfl

end Scan

open Scan

/-- Every token of a source text stands where its text does, or at the end of the source if it has
none, by lines and columns counted from the start of the source; the end behind a text whose quote
is never closed, and no other token, is shown one column further. A reader that goes on behind the
last token finds the end again, at the same place. -/
theorem token_places (source : String) :
    ∃ pieces, Falls source.toList pieces ∧ (tokens source).length = pieces.length ∧
      (∀ before p after, pieces = before ++ p :: after →
        (tokens source)[before.length]? =
            some ⟨p.kind, p.literal, placeOf source.toList before p⟩ ∧
          p.text <+: source.toList.drop (joined before ++ p.gap).length ∧
          (p.text = [] → (joined before ++ p.gap).length = source.length)) ∧
      ∃ last, (tokens source).getLast? = some last ∧ last.kind = .eof ∧
        ∀ n, Cursor.read ((tokens source).length + n) (.start source) =
          tokens source ++ List.replicate n last := by
  obtain ⟨pieces, h⟩ := exists_falls source.toList
  have htokens : tokens source = placed .start pieces := h.tokensFrom_eq .start
  refine ⟨pieces, h, ?_, ?_, Cursor.read_tokensFrom source.toList .start⟩
  · have := congrArg List.length (map_bare_placed .start pieces)
    simpa [htokens] using this
  · rintro before p after rfl
    obtain ⟨rest, hrest, hfalls⟩ := h.drop (List.cons_ne_nil p after)
    have hjoined := hfalls.joined_eq
    refine ⟨?_, ?_, fun htext => ?_⟩
    · rw [htokens, placed_getElem?, h.place_eq]
    · refine ⟨joined after, ?_⟩
      rw [hrest, ← hjoined, joined_cons, ← List.append_assoc, List.drop_left]
    · rw [← String.length_toList, hrest, hfalls.input_of_text_nil htext]

end Vorn
