import Mathlib
import Vorn.Proofs.Token.Lexing

/-!
# The longest lexeme wins, and nothing is lost

What a gap is and what a lexeme is, said without the scanner. `IsGap` are blanks and closed
comments; `Spells` says which texts make one token, and of which kind and literal. A source text
falls into pieces (`Falls`), each a gap and the longest text behind it that makes a token, or one
character that starts none.

* `gap_spec`, `IsGap.gap_append`: the scanner takes gaps, and all of a gap;
* `lexeme_takes`: it takes the longest lexeme;
* `exists_falls`, `Falls.unique`: so every input falls into pieces, in one way;
* `Falls.joined_eq`, `Falls.tokensFrom_eq`: the pieces make up the input and have its tokens.

`tokens_longest_match` puts them together for a source text.
-/

namespace Vorn

namespace Scan

/-! ## Gaps -/

/-- Blanks and closed comments that stand before `rest`. A comment behind two slashes goes on to the
end of its line or of the input, any other one to the first `*/` in it. -/
inductive IsGap : (gap rest : List Char) → Prop
  | nil {rest : List Char} : IsGap [] rest
  | blank {c : Char} {gap rest : List Char} (hc : isBlank c = true) (h : IsGap gap rest) :
      IsGap (c :: gap) rest
  | line {body gap rest : List Char} (hbody : '\n' ∉ body)
      (hend : ∀ c ∈ (gap ++ rest).head?, c = '\n') (h : IsGap gap rest) :
      IsGap ('/' :: '/' :: (body ++ gap)) rest
  | block {body gap rest : List Char} (hbody : ¬ ['*', '/'] <:+: body ++ ['*'])
      (h : IsGap gap rest) : IsGap ('/' :: '*' :: (body ++ '*' :: '/' :: gap)) rest

/-- No blank and no comment starts the input. -/
def NoGap (input : List Char) : Prop := ∀ c cs, input = c :: cs → Starts c cs

/-- The input is a block comment that is never closed. -/
def IsOpenComment (input : List Char) : Prop :=
  ∃ body, input = '/' :: '*' :: body ∧ ¬ ['*', '/'] <:+: body

theorem closeComment?_eq_some {input text rest : List Char}
    (h : closeComment? input = some (text, rest)) :
    ∃ body, text = body ++ ['*', '/'] ∧ ¬ ['*', '/'] <:+: body ++ ['*'] := by
  fun_induction closeComment? input generalizing text rest with
  | case1 => cases h
  | case2 r =>
    cases h
    exact ⟨[], rfl, by decide⟩
  | case3 c r hnot ih =>
    obtain ⟨⟨t, rest'⟩, hr, heq⟩ := Option.map_eq_some_iff.mp h
    cases heq
    obtain ⟨body, rfl, hbody⟩ := ih hr
    refine ⟨c :: body, rfl, ?_⟩
    rw [List.cons_append, List.infix_cons_iff, not_or]
    refine ⟨fun hpre => ?_, hbody⟩
    -- The input would start with `*/`.
    obtain ⟨hc, hpre⟩ := List.cons_prefix_cons.mp hpre
    have happend := closeComment?_append hr
    cases body with
    | nil => simp at hpre
    | cons d body =>
      obtain ⟨hd, -⟩ := List.cons_prefix_cons.mp hpre
      exact hnot _ hc.symm (by rw [← happend, ← hd]; rfl)

theorem closeComment?_eq_none {input : List Char} (h : closeComment? input = none) :
    ¬ ['*', '/'] <:+: input := by
  fun_induction closeComment? input with
  | case1 => decide
  | case2 r => cases h
  | case3 c r hnot ih =>
    rw [List.infix_cons_iff, not_or]
    refine ⟨fun hpre => ?_, ih (Option.map_eq_none_iff.mp h)⟩
    obtain ⟨hc, hpre⟩ := List.cons_prefix_cons.mp hpre
    obtain ⟨tail, htail⟩ := hpre
    exact hnot tail hc.symm htail.symm

/-- A comment ends at the first `*/`. -/
theorem closeComment?_of_first {body : List Char} (rest : List Char)
    (h : ¬ ['*', '/'] <:+: body ++ ['*']) :
    closeComment? (body ++ '*' :: '/' :: rest) = some (body ++ ['*', '/'], rest) := by
  induction body with
  | nil => rw [List.nil_append, closeComment?]; rfl
  | cons c body ih =>
    rw [List.cons_append, List.infix_cons_iff, not_or] at h
    rw [List.cons_append, closeComment?, ih h.2]
    · rfl
    · rintro tail rfl htail
      refine h.1 ?_
      cases body with
      | nil => simp at htail
      | cons d body =>
        obtain rfl : d = '/' := (List.cons.inj htail).1
        exact ⟨body ++ ['*'], rfl⟩

theorem closeComment?_of_open {body : List Char} (h : ¬ ['*', '/'] <:+: body) :
    closeComment? body = none := by
  induction body with
  | nil => rfl
  | cons c body ih =>
    rw [List.infix_cons_iff, not_or] at h
    rw [closeComment?, ih h.2]
    · rfl
    · rintro tail rfl rfl
      exact h.1 ⟨tail, rfl⟩

/-- What a gap must be: blanks and comments in front of a lexeme, the end or an open comment. -/
def Gap.Fits : Gap → Prop
  | .closed text rest => IsGap text rest ∧ NoGap rest
  | .unclosed text => ∃ g body, text = g ++ body ∧ IsGap g body ∧ IsOpenComment body

/-- More blanks and comments in front, if they are so before all that follows. -/
theorem Gap.Fits.prepend {more : List Char} {g : Gap} (h : g.Fits)
    (hmore : ∀ gap rest, gap ++ rest = g.text ++ g.rest → IsGap gap rest →
      IsGap (more ++ gap) rest) : (g.prepend more).Fits := by
  cases g with
  | closed text rest => exact ⟨hmore text rest rfl h.1, h.2⟩
  | unclosed text =>
    obtain ⟨gap, body, rfl, hgap, hopen⟩ := h
    have hall : gap ++ body =
        Gap.text (.unclosed (gap ++ body)) ++ Gap.rest (.unclosed (gap ++ body)) := by
      rw [Gap.rest, List.append_nil]
      rfl
    exact ⟨more ++ gap, body, (List.append_assoc ..).symm, hmore gap body hall hgap, hopen⟩

/-- What the scanner takes for a gap is one, and all of it. -/
theorem gap_spec (input : List Char) : (gap input).Fits := by
  fun_induction gap input with
  | case1 =>
    refine ⟨.nil, ?_⟩
    rintro _ _ ⟨⟩
  | case2 cs ih =>
    refine ih.prepend fun gap rest hall hgap => ?_
    refine .line (fun hmem => ?_) (fun c hc => ?_) hgap
    · simpa using mem_takeWhile hmem
    · rw [hall, gap_text_append] at hc
      have hstop := List.head?_dropWhile_not (· != '\n') cs
      rw [hc] at hstop
      simpa using hstop
  | case3 cs text rest h ih =>
    obtain ⟨body, rfl, hbody⟩ := closeComment?_eq_some h
    refine ih.prepend fun gap rest _ hgap => ?_
    simpa using hgap.block hbody
  | case4 cs h => exact ⟨[], _, rfl, .nil, _, rfl, closeComment?_eq_none h⟩
  | case5 c cs _ _ hc ih => exact ih.prepend fun gap rest _ hgap => hgap.blank hc
  | case6 c cs hline hblock hc =>
    refine ⟨.nil, ?_⟩
    rintro _ _ ⟨⟩
    refine ⟨by simpa using hc, fun hslash d hd => ?_⟩
    obtain ⟨ds, rfl⟩ := List.head?_eq_some_iff.mp hd
    exact ⟨fun h => hline ds hslash (by rw [h]), fun h => hblock ds hslash (by rw [h])⟩

theorem Gap.prepend_prepend (a b : List Char) (g : Gap) :
    (g.prepend b).prepend a = g.prepend (a ++ b) := by
  cases g <;> simp [Gap.prepend]

/-- The scanner goes on behind blanks and comments. -/
theorem IsGap.gap_append {g rest : List Char} (h : IsGap g rest) :
    gap (g ++ rest) = (gap rest).prepend g := by
  induction h with
  | @nil rest =>
    rw [List.nil_append]
    cases gap rest <;> rfl
  | @blank c g rest hc _ ih =>
    rw [List.cons_append, gap, if_pos hc, ih, Gap.prepend_prepend]
    · rfl
    · rintro _ rfl -; simp [isBlank] at hc
    · rintro _ rfl -; simp [isBlank] at hc
  | @line body g rest hbody hend _ ih =>
    have hin : ∀ c ∈ body, (c != '\n') = true := by
      intro c hc
      simp only [bne_iff_ne, ne_eq]
      rintro rfl
      exact hbody hc
    have hstop : Stops (· != '\n') (g ++ rest) := fun c hc => by simp [hend c hc]
    rw [List.cons_append, List.cons_append, List.append_assoc, gap,
      takeWhile_append_stops hin hstop, dropWhile_append_stops hin hstop, ih, Gap.prepend_prepend]
    rfl
  | @block body g rest hbody _ ih =>
    have hin : '/' :: '*' :: (body ++ '*' :: '/' :: g) ++ rest =
        '/' :: '*' :: (body ++ '*' :: '/' :: (g ++ rest)) := by simp
    rw [hin, gap, closeComment?_of_first (g ++ rest) hbody]
    simp only [ih, Gap.prepend_prepend]
    simp

/-- A gap is followed by what the scanner finds behind it. -/
theorem IsGap.gap_eq {g rest : List Char} (h : IsGap g rest) (hrest : NoGap rest) :
    gap (g ++ rest) = .closed g rest := by
  have hnone : gap rest = .closed [] rest := by
    cases rest with
    | nil => rw [gap]
    | cons c cs =>
      obtain ⟨hblank, hslash⟩ := hrest c cs rfl
      rw [gap, if_neg (by simp [hblank])]
      · rintro ds rfl rfl; exact (hslash rfl '/' rfl).1 rfl
      · rintro ds rfl rfl; exact (hslash rfl '*' rfl).2 rfl
  rw [h.gap_append, hnone]
  simp [Gap.prepend]

theorem IsGap.gap_eq_unclosed {g body : List Char} (h : IsGap g body) (hbody : IsOpenComment body) :
    gap (g ++ body) = .unclosed (g ++ body) := by
  obtain ⟨cs, rfl, hopen⟩ := hbody
  rw [h.gap_append, gap, closeComment?_of_open hopen]
  rfl

/-! ## Lexemes -/

/-- The text, with `rest` behind it, makes one token of this kind and literal: a word, a number with
or without a point, a text in quotes or a symbol. A quote that is never closed reaches to the end
of the input. -/
inductive Spells : (text rest : List Char) → Kind → String → Prop
  | word {w : String} {rest : List Char} (h : IsWord w) : Spells w.toList rest (.ofWord w) w
  | whole {w : String} {rest : List Char} (h : IsWhole w) : Spells w.toList rest .int w
  | fraction {w : String} {rest : List Char} (h : IsFraction w) : Spells w.toList rest .float w
  | closed {w : String} {rest : List Char} (h : '"' ∉ w.toList) :
      Spells ('"' :: (w.toList ++ ['"'])) rest .string w
  | unclosed {w : String} (h : '"' ∉ w.toList) : Spells ('"' :: w.toList) [] .string w
  | symbol {k : Kind} {rest : List Char} (h : k ∈ Kind.symbols) :
      Spells k.text.toList rest k k.text

/-- Of all starts of the input that make a token, the text is the longest. -/
structure Longest (text rest : List Char) (kind : Kind) (literal : String) : Prop where
  spells : Spells text rest kind literal
  longest {text' rest' : List Char} {kind' : Kind} {literal' : String} :
    text' ++ rest' = text ++ rest → Spells text' rest' kind' literal' →
      text'.length ≤ text.length

/-- No start of the input makes a token. -/
def NoLexeme (input : List Char) : Prop :=
  ∀ text rest kind literal, text ++ rest = input → ¬ Spells text rest kind literal

theorem Spells.ne_nil {text rest : List Char} {kind : Kind} {literal : String}
    (h : Spells text rest kind literal) : text ≠ [] := by
  cases h with
  | word h =>
    obtain ⟨c, cs, hw, -⟩ := h
    simp [hw]
  | whole h => exact h.1
  | fraction h =>
    obtain ⟨whole, part, hw, -⟩ := h
    simp [hw]
  | closed | unclosed => simp
  | symbol h =>
    obtain ⟨c, cs, hs, -⟩ := symbol_head h
    simp [hs]

section Head

variable {c : Char} {cs rest : List Char} {kind : Kind} {literal : String}

/-- The first character tells which lexeme a text can be. -/
theorem Spells.head (h : Spells (c :: cs) rest kind literal) :
    (isLetter c = true ∧ literal.toList = c :: cs ∧ kind = .ofWord literal ∧
        ∀ d ∈ cs, isWordChar d = true) ∨
      (isDigit c = true ∧ literal.toList = c :: cs ∧
        (kind = .int ∧ (∀ d ∈ cs, isDigit d = true) ∨
          kind = .float ∧ ∃ whole part, cs = whole ++ '.' :: part ∧
            (∀ d ∈ whole, isDigit d = true) ∧ ∀ d ∈ part, isDigit d = true)) ∨
      (c = '"' ∧ kind = .string ∧ '"' ∉ literal.toList ∧
        (cs = literal.toList ++ ['"'] ∨ cs = literal.toList ∧ rest = [])) ∨
      (isLetter c = false ∧ isDigit c = false ∧ c ≠ '"') ∧
        kind ∈ Kind.symbols ∧ kind.text.toList = c :: cs ∧ literal = kind.text := by
  generalize ht : c :: cs = text at h ⊢
  cases h with
  | word h =>
    obtain ⟨d, ds, hw, hd, hds⟩ := h
    obtain ⟨rfl, rfl⟩ := List.cons.inj (ht.trans hw)
    exact .inl ⟨hd, rfl, rfl, hds⟩
  | whole h =>
    have hall : ∀ d ∈ c :: cs, isDigit d = true := ht ▸ h.2
    rw [List.forall_mem_cons] at hall
    exact .inr (.inl ⟨hall.1, rfl, .inl ⟨rfl, hall.2⟩⟩)
  | fraction h =>
    obtain ⟨whole, part, hw, hne, hwhole, hpart⟩ := h
    obtain ⟨d, ds, rfl⟩ := List.exists_cons_of_ne_nil hne
    obtain ⟨rfl, rfl⟩ := List.cons.inj (ht.trans hw)
    rw [List.forall_mem_cons] at hwhole
    exact .inr (.inl ⟨hwhole.1, rfl, .inr ⟨rfl, ds, part, rfl, hwhole.2, hpart⟩⟩)
  | closed h =>
    obtain ⟨rfl, rfl⟩ := List.cons.inj ht
    exact .inr (.inr (.inl ⟨rfl, rfl, h, .inl rfl⟩))
  | unclosed h =>
    obtain ⟨rfl, rfl⟩ := List.cons.inj ht
    exact .inr (.inr (.inl ⟨rfl, rfl, h, .inr ⟨rfl, rfl⟩⟩))
  | symbol h =>
    obtain ⟨d, ds, hs, hletter, hdigit, hquote, -⟩ := symbol_head h
    obtain ⟨rfl, -⟩ := List.cons.inj (ht.trans hs)
    exact .inr (.inr (.inr ⟨⟨hletter, hdigit, hquote⟩, h, rfl, rfl⟩))

theorem Spells.of_isLetter (h : Spells (c :: cs) rest kind literal) (hc : isLetter c = true) :
    literal.toList = c :: cs ∧ kind = .ofWord literal ∧ ∀ d ∈ cs, isWordChar d = true := by
  rcases h.head with ⟨-, h⟩ | ⟨hdigit, -⟩ | ⟨rfl, -⟩ | ⟨⟨hletter, -⟩, -⟩
  · exact h
  · simp [not_isLetter_of_isDigit hdigit] at hc
  · exact absurd hc (by decide)
  · simp [hletter] at hc

theorem Spells.of_isDigit (h : Spells (c :: cs) rest kind literal) (hc : isDigit c = true) :
    literal.toList = c :: cs ∧
      (kind = .int ∧ (∀ d ∈ cs, isDigit d = true) ∨
        kind = .float ∧ ∃ whole part, cs = whole ++ '.' :: part ∧
          (∀ d ∈ whole, isDigit d = true) ∧ ∀ d ∈ part, isDigit d = true) := by
  rcases h.head with ⟨hletter, -⟩ | ⟨-, h⟩ | ⟨rfl, -⟩ | ⟨⟨-, hdigit, -⟩, -⟩
  · simp [not_isLetter_of_isDigit hc] at hletter
  · exact h
  · exact absurd hc (by decide)
  · simp [hdigit] at hc

theorem Spells.of_quote (h : Spells ('"' :: cs) rest kind literal) :
    kind = .string ∧ '"' ∉ literal.toList ∧
      (cs = literal.toList ++ ['"'] ∨ cs = literal.toList ∧ rest = []) := by
  rcases h.head with ⟨hletter, -⟩ | ⟨hdigit, -⟩ | ⟨-, h⟩ | ⟨⟨-, -, hquote⟩, -⟩
  · exact absurd hletter (by decide)
  · exact absurd hdigit (by decide)
  · exact h
  · exact absurd rfl hquote

theorem Spells.of_other (h : Spells (c :: cs) rest kind literal) (hletter : isLetter c = false)
    (hdigit : isDigit c = false) (hquote : c ≠ '"') :
    kind ∈ Kind.symbols ∧ kind.text.toList = c :: cs ∧ literal = kind.text := by
  rcases h.head with ⟨h, -⟩ | ⟨h, -⟩ | ⟨h, -⟩ | ⟨-, h⟩
  · simp [hletter] at h
  · simp [hdigit] at h
  · exact absurd h hquote
  · exact h

end Head

theorem symbol_of_text {k k' : Kind} (hk : k ∈ Kind.symbols) (hk' : k' ∈ Kind.symbols)
    (h : k.text.toList = k'.text.toList) : k = k' := by
  have hinj : ∀ k ∈ Kind.symbols, ∀ k' ∈ Kind.symbols, k.text.toList = k'.text.toList → k = k' := by
    decide +kernel
  exact hinj k hk k' hk' h

/-- The text fixes the kind and the literal. -/
theorem Spells.unique {text rest : List Char} {kind kind' : Kind} {literal literal' : String}
    (h : Spells text rest kind literal) (h' : Spells text rest kind' literal') :
    kind = kind' ∧ literal = literal' := by
  obtain ⟨c, cs, rfl⟩ := List.exists_cons_of_ne_nil h.ne_nil
  have hpoint : isDigit '.' = false := by decide
  by_cases hc : isLetter c = true
  · obtain ⟨hl, rfl, -⟩ := h.of_isLetter hc
    obtain ⟨hl', rfl, -⟩ := h'.of_isLetter hc
    obtain rfl := String.toList_injective (hl.trans hl'.symm)
    exact ⟨rfl, rfl⟩
  by_cases hd : isDigit c = true
  · obtain ⟨hl, hk⟩ := h.of_isDigit hd
    obtain ⟨hl', hk'⟩ := h'.of_isDigit hd
    refine ⟨?_, String.toList_injective (hl.trans hl'.symm)⟩
    -- A point is among the characters of the one kind of number only.
    rcases hk with ⟨rfl, hall⟩ | ⟨rfl, whole, part, rfl, -⟩ <;>
      rcases hk' with ⟨rfl, hall'⟩ | ⟨rfl, whole', part', hcs, -⟩
    · rfl
    · simp [hall '.' (by simp [hcs])] at hpoint
    · simp [ hall' '.' (by simp)] at hpoint
    · rfl
  by_cases hq : c = '"'
  · subst hq
    obtain ⟨rfl, hl, hcs⟩ := h.of_quote
    obtain ⟨rfl, hl', hcs'⟩ := h'.of_quote
    refine ⟨rfl, String.toList_injective ?_⟩
    rcases hcs with rfl | ⟨rfl, -⟩ <;> rcases hcs' with h | ⟨h, -⟩
    · exact List.append_cancel_right h
    · simp [← h] at hl'
    · simp [h] at hl
    · exact h
  · simp only [Bool.not_eq_true] at hc hd
    obtain ⟨hk, ht, rfl⟩ := h.of_other hc hd hq
    obtain ⟨hk', ht', rfl⟩ := h'.of_other hc hd hq
    obtain rfl := symbol_of_text hk hk' (ht.trans ht'.symm)
    exact ⟨rfl, rfl⟩

/-- A start of the input is compared with the longest by what is behind the first character. -/
theorem Longest.of_head (c : Char) (cs : List Char) {text rest : List Char} {kind : Kind}
    {literal : String} (hin : text ++ rest = c :: cs) (hs : Spells text rest kind literal)
    (hmax : ∀ {ds rest' kind' literal'}, ds ++ rest' = cs →
      Spells (c :: ds) rest' kind' literal' → (c :: ds).length ≤ text.length) :
    Longest text rest kind literal := by
  refine ⟨hs, fun {text' rest' kind' literal'} hin' h => ?_⟩
  obtain ⟨d, ds, rfl⟩ := List.exists_cons_of_ne_nil h.ne_nil
  obtain ⟨rfl, hcs⟩ := List.cons.inj (hin'.trans hin)
  exact hmax hcs h

/-- A run of characters of one class is part of the longest. -/
theorem length_le_takeWhile {p : Char → Bool} {ds rest cs : List Char}
    (hds : ∀ d ∈ ds, p d = true) (h : ds ++ rest = cs) : ds.length ≤ (cs.takeWhile p).length := by
  rw [← h, List.takeWhile_append_of_pos hds, List.length_append]
  omega

/-- What the scanner takes at the head of an input is the longest lexeme there. -/
def Lexeme.Takes (l : Lexeme) : Prop := Longest l.text l.rest l.kind l.literal

theorem word_takes {c : Char} (cs : List Char) (hc : isLetter c = true) : (word c cs).Takes := by
  have hw : IsWord (.ofList (c :: cs.takeWhile isWordChar)) :=
    ⟨c, _, String.toList_ofList, hc, fun d hd => mem_takeWhile hd⟩
  refine .of_head c cs (by simp [word]) (by simpa [word] using Spells.word hw) ?_
  intro ds rest' kind' literal' hcs h
  obtain ⟨-, -, hds⟩ := h.of_isLetter hc
  simpa [word] using length_le_takeWhile hds hcs

/-- The whole part of a number with a point is the run of digits at its head. -/
theorem split_at_point {whole part rest cs : List Char} (hwhole : ∀ d ∈ whole, isDigit d = true)
    (h : whole ++ '.' :: part ++ rest = cs) :
    cs.takeWhile isDigit = whole ∧ cs.dropWhile isDigit = '.' :: (part ++ rest) := by
  have hstop : Stops isDigit ('.' :: (part ++ rest)) := by
    rintro d ⟨⟩
    decide
  rw [← h, List.append_assoc]
  exact ⟨takeWhile_append_stops hwhole hstop, dropWhile_append_stops hwhole hstop⟩

theorem number_takes {c : Char} (cs : List Char) (hc : isDigit c = true) :
    (number c cs).Takes := by
  have hrun : ∀ d ∈ c :: cs.takeWhile isDigit, isDigit d = true := by
    rw [List.forall_mem_cons]
    exact ⟨hc, fun d hd => mem_takeWhile hd⟩
  have hcut := List.takeWhile_append_dropWhile (p := isDigit) (l := cs)
  unfold number
  split <;> rename_i hpoint
  · rename_i part
    have hw : IsFraction (.ofList (c :: cs.takeWhile isDigit ++ '.' :: part.takeWhile isDigit)) :=
      ⟨_, _, String.toList_ofList, by simp, hrun, fun d hd => mem_takeWhile hd⟩
    refine .of_head c cs ?_ (by simpa using Spells.fraction hw) ?_
    · rw [hpoint] at hcut
      simpa using hcut
    · intro ds rest' kind' literal' hcs h
      obtain ⟨-, ⟨-, hds⟩ | ⟨-, whole, fine, rfl, hwhole, hfine⟩⟩ := h.of_isDigit hc
      · have := length_le_takeWhile hds hcs
        simp only [List.length_cons, List.length_append]
        omega
      · obtain ⟨hw, hp⟩ := split_at_point hwhole hcs
        have := length_le_takeWhile hfine (List.cons.inj (hp.symm.trans hpoint)).2
        simp only [hw, List.length_cons, List.length_append]
        omega
  · have hw : IsWhole (.ofList (c :: cs.takeWhile isDigit)) := ⟨by simp, by simpa using hrun⟩
    refine .of_head c cs (by simp) (by simpa using Spells.whole hw) ?_
    intro ds rest' kind' literal' hcs h
    obtain ⟨-, ⟨-, hds⟩ | ⟨-, whole, fine, rfl, hwhole, -⟩⟩ := h.of_isDigit hc
    · simpa using length_le_takeWhile hds hcs
    · exact absurd (split_at_point hwhole hcs).2 (hpoint _)

theorem quoted_takes (cs : List Char) : (quoted cs).Takes := by
  have hbody : '"' ∉ cs.takeWhile (· != '"') := fun h => by simpa using mem_takeWhile h
  have hw : '"' ∉ (String.ofList (cs.takeWhile (· != '"'))).toList := by
    rwa [String.toList_ofList]
  have hcut := List.takeWhile_append_dropWhile (p := (· != '"')) (l := cs)
  have hne {s : String} (hs : '"' ∉ s.toList) : ∀ d ∈ s.toList, (d != '"') = true := by
    intro d hd
    simp only [bne_iff_ne, ne_eq]
    rintro rfl
    exact hs hd
  unfold quoted
  split <;> rename_i hend
  · rw [hend, List.append_nil] at hcut
    refine .of_head '"' cs (by simp [hcut]) (by simpa using Spells.unclosed hw) ?_
    intro ds rest' kind' literal' hcs h
    have := congrArg List.length hcs
    simp only [hcut, List.length_cons, List.length_append] at this ⊢
    omega
  · rename_i q rest
    have hq : q = '"' := by
      have := List.head?_dropWhile_not (· != '"') cs
      simpa [hend] using this
    subst hq
    refine .of_head '"' cs ?_ (by simpa using Spells.closed hw) ?_
    · rw [hend] at hcut
      simpa using hcut
    · intro ds rest' kind' literal' hcs h
      obtain ⟨-, hl, rfl | ⟨rfl, -⟩⟩ := h.of_quote
      · rw [List.append_assoc] at hcs
        have := length_le_takeWhile (hne hl) hcs
        simp only [List.length_cons, List.length_append, List.length_nil]
        omega
      · have := length_le_takeWhile (hne hl) hcs
        simp only [List.length_cons, List.length_append, List.length_nil]
        omega

/-- The symbols are listed by falling length, so the first that fits is the longest. -/
theorem symbol_longest {input : List Char} {k k' : Kind} (h : symbol? input = some k)
    (hk' : k' ∈ Kind.symbols) (hpre : k'.text.toList <+: input) :
    k'.text.toList.length ≤ k.text.toList.length := by
  have hsorted : Kind.symbols.Pairwise fun a b =>
      b.text.toList.length ≤ a.text.toList.length := by decide +kernel
  obtain ⟨-, before, after, hsplit, hbefore⟩ := List.find?_eq_some_iff_append.mp h
  rw [hsplit, List.pairwise_append, List.pairwise_cons] at hsorted
  rw [hsplit, List.mem_append, List.mem_cons] at hk'
  rcases hk' with hk' | rfl | hk'
  · have := hbefore k' hk'
    rw [List.isPrefixOf_iff_prefix.mpr hpre] at this
    cases this
  · exact Nat.le_refl _
  · exact hsorted.2.1.1 k' hk'

/-- The scanner takes the longest lexeme, and a character that starts none as illegal. -/
theorem lexeme_takes (c : Char) (cs : List Char) :
    (lexeme c cs).Takes ∨
      lexeme c cs = { kind := .illegal, literal := .singleton c, text := [c], rest := cs } ∧
        NoLexeme (c :: cs) := by
  unfold lexeme
  split
  · exact .inl (word_takes cs ‹_›)
  split
  · exact .inl (number_takes cs ‹_›)
  split
  · exact .inl (quoted_takes cs)
  rename_i hletter hdigit hquote
  simp only [Bool.not_eq_true] at hletter hdigit
  split <;> rename_i hsym
  · rename_i k
    left
    have hk := List.mem_of_find?_eq_some hsym
    have hpre : k.text.toList <+: c :: cs := by simpa [symbol?] using List.find?_some hsym
    obtain ⟨rest, hrest⟩ := hpre
    obtain ⟨d, ds, hd, -⟩ := symbol_head hk
    have hlen : k.text.length - 1 = ds.length := by
      rw [← String.length_toList, hd]
      rfl
    rw [hd] at hrest
    obtain ⟨rfl, rfl⟩ := List.cons.inj hrest
    have hs : Spells (d :: ds) rest k k.text := hd ▸ Spells.symbol hk
    refine .of_head d (ds ++ rest) (by simp) (by simpa [hlen] using hs) ?_
    intro ds' rest' kind' literal' hcs h
    obtain ⟨hk', ht', -⟩ := h.of_other hletter hdigit hquote
    have := symbol_longest hsym hk' ⟨rest', by rw [ht']; exact congrArg (d :: ·) hcs⟩
    rw [ht', hd] at this
    simpa [hlen] using this
  · refine .inr ⟨rfl, fun text rest kind literal hin h => ?_⟩
    obtain ⟨d, ds, rfl⟩ := List.exists_cons_of_ne_nil h.ne_nil
    obtain ⟨rfl, rfl⟩ := List.cons.inj hin
    obtain ⟨hk, ht, -⟩ := h.of_other hletter hdigit hquote
    have := List.find?_eq_none.mp hsym kind hk
    simp [ht] at this

/-- Two texts that are longest at the head of one input are the same. -/
theorem Longest.unique {text rest text' rest' : List Char} {kind kind' : Kind}
    {literal literal' : String} (h : Longest text rest kind literal)
    (h' : Longest text' rest' kind' literal') (hin : text ++ rest = text' ++ rest') :
    text = text' ∧ rest = rest' ∧ kind = kind' ∧ literal = literal' := by
  have hlen : text.length = text'.length :=
    Nat.le_antisymm (h'.longest hin h.spells) (h.longest hin.symm h'.spells)
  obtain ⟨rfl, rfl⟩ := List.append_inj hin hlen
  obtain ⟨rfl, rfl⟩ := h.spells.unique h'.spells
  exact ⟨rfl, rfl, rfl, rfl⟩

/-! ## Pieces -/

/-- A part of an input: what stands before a token, its text, and the token that the text makes. -/
structure Piece where
  gap : List Char
  text : List Char
  kind : Kind
  literal : String

/-- The token of a piece, without its place. -/
def Piece.token (p : Piece) : Token := ⟨p.kind, p.literal, .start⟩

/-- How an input falls into pieces, through the empty one at its end. A block comment that is never
closed stands before an empty piece of its own. -/
inductive Falls : (input : List Char) → List Piece → Prop
  | done {gap : List Char} (h : IsGap gap []) : Falls gap [⟨gap, [], .eof, ""⟩]
  | comment {gap body : List Char} (h : IsGap gap body) (hbody : IsOpenComment body) :
      Falls (gap ++ body) [⟨gap ++ body, [], .illegal, ""⟩, ⟨[], [], .eof, ""⟩]
  | lexeme {gap text rest : List Char} {kind : Kind} {literal : String} {pieces : List Piece}
      (h : IsGap gap (text ++ rest)) (hgap : NoGap (text ++ rest))
      (htext : Longest text rest kind literal) (hrest : Falls rest pieces) :
      Falls (gap ++ (text ++ rest)) (⟨gap, text, kind, literal⟩ :: pieces)
  | unknown {gap rest : List Char} {c : Char} {pieces : List Piece}
      (h : IsGap gap (c :: rest)) (hgap : NoGap (c :: rest)) (hc : NoLexeme (c :: rest))
      (hrest : Falls rest pieces) :
      Falls (gap ++ c :: rest) (⟨gap, [c], .illegal, .singleton c⟩ :: pieces)

/-- The text of pieces, one behind the other. -/
def joined (pieces : List Piece) : List Char := pieces.flatMap fun p => p.gap ++ p.text

@[simp] theorem joined_nil : joined [] = [] := rfl

@[simp] theorem joined_cons (p : Piece) (ps : List Piece) :
    joined (p :: ps) = p.gap ++ (p.text ++ joined ps) := by simp [joined]

@[simp] theorem joined_append (ps qs : List Piece) : joined (ps ++ qs) = joined ps ++ joined qs :=
  List.flatMap_append

/-- Nothing is lost. -/
theorem Falls.joined_eq {input : List Char} {pieces : List Piece} (h : Falls input pieces) :
    joined pieces = input := by
  induction h with
  | done => simp
  | comment => simp
  | lexeme _ _ _ _ ih => simp [ih]
  | unknown _ _ _ _ ih => simp [ih]

/-- The pieces of the scanner: the gap and the lexeme that it finds at the head of an input, and
those of the rest. -/
theorem Falls.eq_scan {input : List Char} {pieces : List Piece} (h : Falls input pieces) :
    match gap input with
    | .unclosed text => pieces = [⟨text, [], .illegal, ""⟩, ⟨[], [], .eof, ""⟩]
    | .closed text [] => pieces = [⟨text, [], .eof, ""⟩]
    | .closed text (c :: cs) =>
      ∃ tail, Falls (Scan.lexeme c cs).rest tail ∧
        pieces = ⟨text, (Scan.lexeme c cs).text, (Scan.lexeme c cs).kind,
          (Scan.lexeme c cs).literal⟩ :: tail := by
  cases h with
  | done h =>
    have := h.gap_eq (fun _ _ h => nomatch h)
    rw [List.append_nil] at this
    rw [this]
  | comment h hbody => rw [h.gap_eq_unclosed hbody]
  | @lexeme gap text rest kind literal tail h hgap htext hrest =>
    obtain ⟨c, cs, hin⟩ := List.exists_cons_of_ne_nil
      (List.append_ne_nil_of_left_ne_nil htext.spells.ne_nil rest)
    rw [h.gap_eq hgap, hin]
    rcases lexeme_takes c cs with hl | ⟨-, hnone⟩
    · obtain ⟨rfl, rfl, rfl, rfl⟩ :=
        htext.unique hl (hin.trans (lexeme_text_append c cs).symm)
      exact ⟨tail, hrest, rfl⟩
    · exact absurd htext.spells (hnone _ _ _ _ hin)
  | @unknown gap rest c tail h hgap hc hrest =>
    rw [h.gap_eq hgap]
    rcases lexeme_takes c rest with hl | ⟨hl, -⟩
    · exact absurd hl.spells (hc _ _ _ _ (lexeme_text_append c rest))
    · simp only [hl]
      exact ⟨tail, hrest, rfl⟩

/-- Every input falls into pieces. -/
theorem exists_falls (input : List Char) : ∃ pieces, Falls input pieces := by
  generalize Pos.start = pos
  -- The induction is that of the scanner: on the rest behind a lexeme.
  fun_induction tokensFrom input pos with
  | case1 input _ text hg =>
    have hspec := gap_spec input
    have happend := gap_text_append input
    rw [hg] at hspec happend
    obtain ⟨g, body, rfl, hgap, hopen⟩ := hspec
    obtain rfl : g ++ body = input := by simpa [Gap.text, Gap.rest] using happend
    exact ⟨_, .comment hgap hopen⟩
  | case2 input _ text hg =>
    have hspec := gap_spec input
    have happend := gap_text_append input
    rw [hg] at hspec happend
    obtain rfl : text = input := by simpa [Gap.text, Gap.rest] using happend
    exact ⟨_, .done hspec.1⟩
  | case3 input _ text c cs hg l ih =>
    have hspec := gap_spec input
    have happend := gap_text_append input
    rw [hg] at hspec happend
    obtain rfl : text ++ c :: cs = input := by simpa [Gap.text, Gap.rest] using happend
    obtain ⟨hgap, hno⟩ := hspec
    obtain ⟨tail, htail⟩ := ih
    rcases lexeme_takes c cs with h | ⟨h, hnone⟩
    · rw [← lexeme_text_append c cs] at hgap hno ⊢
      exact ⟨_, .lexeme hgap hno h htail⟩
    · simp only [l, h] at htail
      exact ⟨_, .unknown hgap hno hnone htail⟩

/-- It does so in one way. -/
theorem Falls.unique {input : List Char} {pieces pieces' : List Piece} (h : Falls input pieces)
    (h' : Falls input pieces') : pieces = pieces' := by
  induction hn : pieces.length generalizing input pieces pieces' with
  | zero => cases h <;> simp at hn
  | succ n ih =>
    have hs := h.eq_scan
    have hs' := h'.eq_scan
    cases hg : gap input with
    | unclosed text =>
      simp only [hg] at hs hs'
      rw [hs, hs']
    | closed text rest =>
      cases rest with
      | nil =>
        simp only [hg] at hs hs'
        rw [hs, hs']
      | cons c cs =>
        simp only [hg] at hs hs'
        obtain ⟨tail, htail, rfl⟩ := hs
        obtain ⟨tail', htail', rfl⟩ := hs'
        rw [ih htail htail' (by simpa using hn)]

/-! ## The tokens of the pieces -/

/-- The piece is a text whose quote is never closed. -/
def Piece.isOpen (p : Piece) : Bool := p.kind == .string && p.text == '"' :: p.literal.toList

/-- Where the input goes on behind a piece that starts at `pos`. -/
def Piece.finish (p : Piece) (pos : Pos) : Pos :=
  let q := pos.after (p.gap ++ p.text)
  if p.isOpen then ⟨q.line, q.column + 1⟩ else q

/-- The tokens of pieces that start at `pos`. -/
def placed (pos : Pos) : List Piece → List Token
  | [] => []
  | p :: ps => ⟨p.kind, p.literal, pos.after p.gap⟩ :: placed (p.finish pos) ps

theorem map_bare_placed (pos : Pos) (pieces : List Piece) :
    (placed pos pieces).map Token.bare = pieces.map Piece.token := by
  induction pieces generalizing pos with
  | nil => rfl
  | cons p ps ih =>
    rw [placed, List.map_cons, ih]
    rfl

/-- Of all lexemes the scanner leaves only a text without its second quote open. -/
theorem lexeme_closed (g : List Char) (c : Char) (cs : List Char) :
    (lexeme c cs).closed =
      !Piece.isOpen ⟨g, (lexeme c cs).text, (lexeme c cs).kind, (lexeme c cs).literal⟩ := by
  have hfixed {k : Kind} (h : k = .ident ∨ k.isFixed = true) : (k == .string) = false := by
    rw [beq_eq_false_iff_ne]
    rintro rfl
    simp [Kind.isFixed] at h
  unfold lexeme Piece.isOpen
  split
  · simp [word, hfixed (Kind.ofWord_eq_ident_or_isFixed _)]
  split
  · unfold number
    split <;> simp
  split
  · unfold quoted
    split <;> simp
  split
  · rename_i k h
    simp [hfixed (.inr (isFixed_of_symbol? h))]
  · rfl

/-- The tokens of an input are those of its pieces. -/
theorem Falls.tokensFrom_eq {input : List Char} {pieces : List Piece} (h : Falls input pieces)
    (pos : Pos) : tokensFrom input pos = placed pos pieces := by
  fun_induction tokensFrom input pos generalizing pieces with
  | case1 input pos text hg =>
    have hs := h.eq_scan
    simp only [hg] at hs
    rw [hs]
    simp [placed, Piece.finish, Piece.isOpen, Pos.after]
  | case2 input pos text hg =>
    have hs := h.eq_scan
    simp only [hg] at hs
    rw [hs]
    rfl
  | case3 input pos text c cs hg l =>
    rename_i ih
    have hs := h.eq_scan
    simp only [hg] at hs
    obtain ⟨tail, htail, rfl⟩ := hs
    have hfinish : Piece.finish ⟨text, l.text, l.kind, l.literal⟩ pos =
        l.finish (pos.after text) := by
      simp only [Piece.finish, Lexeme.finish, l, lexeme_closed text c cs, Pos.after_append]
      cases Piece.isOpen _ <;> rfl
    rw [placed, hfinish, ih htail]

theorem Spells.kind_ne_eof {text rest : List Char} {kind : Kind} {literal : String}
    (h : Spells text rest kind literal) : kind ≠ .eof := by
  cases h with
  | word =>
    intro hk
    have hkeys : ∀ p ∈ Kind.keywords, p.2 ≠ .eof := by decide
    unfold Kind.ofWord at hk
    cases hl : Kind.keywords.lookup literal with
    | none => simp [hl] at hk
    | some k =>
      obtain ⟨l₁, l₂, hsplit, -⟩ := List.lookup_eq_some_iff.mp hl
      exact hkeys (literal, k) (by rw [hsplit]; simp) (by simpa [hl] using hk)
  | whole | fraction | closed | unclosed => exact fun h => nomatch h
  | symbol h =>
    have hsyms : ∀ k ∈ Kind.symbols, k ≠ .eof := by decide
    exact hsyms _ h

/-- The last piece, and only the last, marks the end. -/
theorem Falls.ends {input : List Char} {pieces : List Piece} (h : Falls input pieces) :
    ∃ init gap, pieces = init ++ [⟨gap, [], .eof, ""⟩] ∧ ∀ p ∈ init, p.kind ≠ .eof := by
  induction h with
  | @done gap => exact ⟨[], gap, rfl, by simp⟩
  | comment => exact ⟨[_], [], rfl, by simp⟩
  | lexeme _ _ htext _ ih =>
    obtain ⟨init, gap, rfl, hinit⟩ := ih
    exact ⟨_ :: init, gap, rfl, List.forall_mem_cons.mpr ⟨htext.spells.kind_ne_eof, hinit⟩⟩
  | unknown _ _ _ _ ih =>
    obtain ⟨init, gap, rfl, hinit⟩ := ih
    exact ⟨_ :: init, gap, rfl, List.forall_mem_cons.mpr ⟨by simp, hinit⟩⟩

end Scan

open Scan

theorem map_bare_tokens {source : String} {pieces : List Piece}
    (h : Falls source.toList pieces) :
    (tokens source).map Token.bare = pieces.map Piece.token := by
  rw [tokens, h.tokensFrom_eq, map_bare_placed]

/-- The last token, and only the last, marks the end. -/
theorem exists_tokens_eq_concat_eof (source : String) :
    ∃ init last, tokens source = init ++ [last] ∧ last.kind = .eof ∧
      ∀ t ∈ init, t.kind ≠ .eof := by
  obtain ⟨pieces, h⟩ := exists_falls source.toList
  have htokens := map_bare_tokens h
  obtain ⟨init, gap, rfl, hinit⟩ := h.ends
  rw [List.map_append, List.map_eq_append_iff] at htokens
  obtain ⟨front, back, hsplit, hfront, hback⟩ := htokens
  obtain ⟨last, rfl, hlast⟩ := List.map_eq_singleton_iff.mp hback
  refine ⟨front, last, hsplit, congrArg Token.kind hlast, fun t ht hk => ?_⟩
  have hmem : t.bare ∈ init.map Piece.token := hfront ▸ List.mem_map_of_mem ht
  obtain ⟨p, hp, heq⟩ := List.mem_map.mp hmem
  exact hinit p hp ((congrArg Token.kind heq).trans hk)

/-- Every source text falls into gaps and lexemes in exactly one way, each lexeme the longest text
behind its gap that makes a token or else a single illegal character; no character is lost, the
tokens of the source are those of the pieces, and the end is marked once, by the last token. -/
theorem tokens_longest_match (source : String) :
    ∃ pieces, Falls source.toList pieces ∧
      (∀ pieces', Falls source.toList pieces' → pieces' = pieces) ∧
      joined pieces = source.toList ∧
      (tokens source).map Token.bare = pieces.map Piece.token ∧
      ∃ init last, tokens source = init ++ [last] ∧ last.kind = .eof ∧
        ∀ t ∈ init, t.kind ≠ .eof := by
  obtain ⟨pieces, h⟩ := exists_falls source.toList
  exact ⟨pieces, h, fun pieces' h' => h'.unique h, h.joined_eq, map_bare_tokens h,
    exists_tokens_eq_concat_eof source⟩

end Vorn
