import Vorn.Proofs.Layout
import Vorn.Proofs.Token.LongestMatch

/-!
# Tokens with spaces between them

The tokens of a source text, written one behind the other with a space between neighbours, are read
as the same tokens (`tokens_spaced`).

* `Token.Relexes`: what a token is written as makes that token again, in front of a space or the
  end. `relexes_of_mem_tokensFrom` says that every token of a source text does so, but for the end
  and for a comment that is never closed;
* `bare_spacedText`: tokens that do so stay apart.
-/

namespace Vorn

/-- What a token is written as: a text stands in quotes, every other literal for itself. -/
def Token.written (t : Token) : String :=
  match t.kind with
  | .string => "\"" ++ t.literal ++ "\""
  | _ => t.literal

/-- Tokens with a space between neighbours. -/
def spacedText (ts : List Token) : String := " ".intercalate (ts.map Token.written)

theorem Token.written_of_ne_string {t : Token} (h : t.kind ≠ .string) : t.written = t.literal := by
  unfold Token.written
  split
  · exact absurd ‹_› h
  · rfl

namespace Scan

/-- In front of a space or the end of the input, what the token is written as makes the token. -/
def Relexes (t : Token) : Prop :=
  ∀ rest, Stops (· != ' ') rest → bare (t.written.toList ++ rest) = t.bare :: bare rest

/-! ## Single tokens -/

/-- A space ends every run of characters of a class that it is not in. -/
theorem stops_of_space {p : Char → Bool} (hp : p ' ' = false) {rest : List Char}
    (h : Stops (· != ' ') rest) : Stops p rest := by
  intro c hc
  obtain rfl : c = ' ' := by simpa using h c hc
  exact hp

/-- What makes a token makes it again. -/
theorem Spells.relexes {text rest : List Char} {kind : Kind} {literal : String}
    (h : Spells text rest kind literal) (pos : Pos) : Relexes ⟨kind, literal, pos⟩ := by
  intro rest hrest
  cases h with
  | word hw =>
    have hkind : Kind.ofWord literal ≠ .string := by
      rcases Kind.ofWord_eq_ident_or_isFixed literal with h | h <;> intro hk <;>
        simp [hk, Kind.isFixed] at h
    rw [Token.written_of_ne_string hkind]
    exact bare_word hw (stops_of_space (by decide) hrest)
  | whole hw => exact bare_whole hw (stops_of_space (by decide) hrest)
  | fraction hw => exact bare_fraction hw (stops_of_space (by decide) hrest)
  | closed hw | unclosed hw =>
    simpa [Token.written, Token.bare, Token.move] using bare_quoted hw rest
  | symbol hk =>
    have hsymbols : ∀ k ∈ Kind.symbols, k ≠ .string := by decide
    rw [Token.written_of_ne_string (hsymbols kind hk)]
    exact bare_operator hk (stops_of_space (by decide) hrest)

/-- A character that starts no lexeme is the first of none. -/
theorem NoLexeme.first {c : Char} {cs : List Char} (h : NoLexeme (c :: cs)) :
    isLetter c = false ∧ isDigit c = false ∧ c ≠ '"' ∧
      ∀ k ∈ Kind.symbols, k.text.toList.head? ≠ some c := by
  have hscan : ∀ l : Lexeme, l.text ++ l.rest = c :: cs → ¬ l.Takes := fun l hl htakes =>
    h _ _ _ _ hl htakes.spells
  have hlexeme := lexeme_text_append c cs
  unfold lexeme at hlexeme
  have hletter : ¬ isLetter c = true := fun hc => by
    rw [if_pos hc] at hlexeme
    exact hscan _ hlexeme (word_takes cs hc)
  rw [if_neg hletter] at hlexeme
  have hdigit : ¬ isDigit c = true := fun hc => by
    rw [if_pos hc] at hlexeme
    exact hscan _ hlexeme (number_takes cs hc)
  rw [if_neg hdigit] at hlexeme
  have hquote : c ≠ '"' := fun hc => by
    rw [if_pos hc] at hlexeme
    exact hscan _ hlexeme (quoted_takes cs)
  refine ⟨by simpa using hletter, by simpa using hdigit, hquote, fun k hk hhead => ?_⟩
  -- The first character of a symbol is a symbol by itself.
  have hsingle : ∀ k ∈ Kind.symbols, ∃ k' ∈ Kind.symbols,
      k'.text.toList = k.text.toList.head?.toList := by
    decide +kernel
  obtain ⟨k', hk', htext⟩ := hsingle k hk
  rw [hhead] at htext
  exact h _ cs k' k'.text (by rw [htext]; rfl) (.symbol hk')

/-- A character that starts no lexeme is illegal, whatever is behind it. -/
theorem NoLexeme.lexeme_eq {c : Char} {cs : List Char} (h : NoLexeme (c :: cs))
    (rest : List Char) :
    lexeme c rest = { kind := .illegal, literal := .singleton c, text := [c], rest } := by
  obtain ⟨hletter, hdigit, hquote, hsymbols⟩ := h.first
  have hnone : symbol? (c :: rest) = none := by
    refine List.find?_eq_none.mpr fun k hk hpre => hsymbols k hk ?_
    rw [List.isPrefixOf_iff_prefix] at hpre
    obtain ⟨d, ds, htext, -⟩ := symbol_head hk
    rw [htext] at hpre ⊢
    rw [(List.cons_prefix_cons.mp hpre).1]
    rfl
  rw [lexeme, if_neg (by simp [hletter]), if_neg (by simp [hdigit]), if_neg hquote, hnone]

/-- An illegal character is illegal again. -/
theorem NoLexeme.relexes {c : Char} {cs : List Char} (h : NoLexeme (c :: cs))
    (hgap : NoGap (c :: cs)) (pos : Pos) : Relexes ⟨.illegal, .singleton c, pos⟩ := by
  intro rest _
  have hstarts : Starts c rest := by
    refine ⟨(hgap c cs rfl).1, fun hslash => ?_⟩
    exact absurd (congrArg some hslash.symm) (h.first.2.2.2 .slash (by decide))
  change bare ((String.singleton c).toList ++ rest) = _
  rw [String.toList_singleton, List.singleton_append, bare_lexeme hstarts, h.lexeme_eq rest]
  rfl

/-- **The tokens of an input relex**, but for its end and a comment that is never closed. -/
theorem relexes_of_mem_tokensFrom {input : List Char} {pos : Pos} :
    ∀ t ∈ tokensFrom input pos, t.kind ≠ .eof → (t.kind = .illegal → t.literal ≠ "") →
      Relexes t := by
  fun_induction tokensFrom input pos with
  | case1 input pos text =>
    intro t ht heof hcomment
    simp only [List.mem_cons, List.not_mem_nil, or_false] at ht
    rcases ht with rfl | rfl
    · exact absurd rfl (hcomment rfl)
    · exact absurd rfl heof
  | case2 input pos text =>
    intro t ht heof
    obtain rfl := List.mem_singleton.mp ht
    exact absurd rfl heof
  | case3 input pos text c cs hg l ih =>
    refine List.forall_mem_cons.mpr ⟨fun _ _ => ?_, ih⟩
    rcases lexeme_takes c cs with h | ⟨h, hnone⟩
    · exact h.spells.relexes _
    · have hspec := gap_spec input
      rw [hg] at hspec
      simp only [l, h]
      exact hnone.relexes hspec.2 _

/-! ## All tokens -/

/-- Tokens that relex stay apart with a space between neighbours. -/
theorem bare_spacedText {ts : List Token} (h : ∀ t ∈ ts, Relexes t) :
    bare (spacedText ts).toList = ts.map Token.bare ++ [.last] := by
  induction ts with
  | nil => exact bare_nil
  | cons t ts ih =>
    obtain ⟨ht, hts⟩ := List.forall_mem_cons.mp h
    cases ts with
    | nil =>
      have hend := ht [] (by rintro c ⟨⟩)
      rw [List.append_nil, bare_nil] at hend
      simpa [spacedText] using hend
    | cons u us =>
      have hjoined : (spacedText (t :: u :: us)).toList =
          t.written.toList ++ ' ' :: (spacedText (u :: us)).toList := by
        simp [spacedText]
      rw [hjoined, ht _ (by rintro c ⟨⟩; decide), bare_blank (by decide), ih hts]
      rfl

end Scan

theorem Token.reading_bare (t : Token) : t.bare.reading = t.reading := rfl

/-- Readings can be told without places. -/
theorem map_reading_tokens (source : String) :
    (tokens source).map Token.reading = (Scan.bare source.toList).map Token.reading := by
  rw [← Scan.map_bare_tokensFrom source.toList .start, List.map_map]
  exact List.map_congr_left fun t _ => t.reading_bare.symm

namespace Scan

/-- The mark of the end says nothing else. -/
theorem literal_of_eof {input : List Char} {pos : Pos} :
    ∀ t ∈ tokensFrom input pos, t.kind = .eof → t.literal = "" := by
  fun_induction tokensFrom input pos with
  | case1 => simp
  | case2 => simp
  | case3 input pos text c cs hg l ih =>
    refine List.forall_mem_cons.mpr ⟨fun heof => ?_, ih⟩
    rcases lexeme_takes c cs with h | ⟨h, -⟩
    · exact absurd heof h.spells.kind_ne_eof
    · simp [l, h] at heof

end Scan

/-- **Separated tokens are read as they are.** Of a source text in which every comment is closed,
the tokens before the end, written with a space between neighbours, are read as the same kinds and
literals again. -/
theorem tokens_spaced {source : String}
    (h : ∀ t ∈ tokens source, t.kind = .illegal → t.literal ≠ "") :
    (tokens (spacedText ((tokens source).takeWhile (·.kind != .eof)))).map Token.reading =
      (tokens source).map Token.reading := by
  obtain ⟨init, last, htokens, heof, hinit⟩ := exists_tokens_eq_concat_eof source
  have hbefore : (tokens source).takeWhile (·.kind != .eof) = init := by
    rw [htokens, List.takeWhile_append_of_pos fun t ht => by simpa using hinit t ht]
    simp [heof]
  have hrelexes : ∀ t ∈ init, Scan.Relexes t := fun t ht =>
    have hmem : t ∈ tokens source := by simp [htokens, ht]
    Scan.relexes_of_mem_tokensFrom t hmem (hinit t ht) (h t hmem)
  have hlast : last.reading = Token.last.reading :=
    have hmem : last ∈ tokens source := by simp [htokens]
    Prod.ext heof (Scan.literal_of_eof last hmem heof)
  rw [hbefore, map_reading_tokens, Scan.bare_spacedText hrelexes, htokens, List.map_append,
    List.map_append, List.map_map, List.map_singleton, List.map_singleton, hlast]
  exact congrArg (· ++ _) (List.map_congr_left fun t _ => t.reading_bare)

/-- Numbers that end in a point, a character that starts nothing, a lone slash in front of a star, a
comment, and a text with a line break that is never closed. -/
def crowded : String := "1.2.3.x@/ */* note */<<=\"a//\nb"

/-- The space keeps the point from the digit, and the slash from the star. -/
theorem tokens_spaced_crowded :
    (∀ t ∈ tokens crowded, t.kind = .illegal → t.literal ≠ "") ∧
      spacedText ((tokens crowded).takeWhile (·.kind != .eof)) =
        "1.2 . 3. x @ / * <<= \"a//\nb\"" ∧
      (tokens "1.2 . 3. x @ / * <<= \"a//\nb\"").map Token.reading =
        (tokens crowded).map Token.reading := by
  obtain ⟨hclosed, htext⟩ : (∀ t ∈ tokens crowded, t.kind = .illegal → t.literal ≠ "") ∧
      spacedText ((tokens crowded).takeWhile (·.kind != .eof)) =
        "1.2 . 3. x @ / * <<= \"a//\nb\"" := by
    decide +kernel
  exact ⟨hclosed, htext, htext ▸ tokens_spaced hclosed⟩

end Vorn
