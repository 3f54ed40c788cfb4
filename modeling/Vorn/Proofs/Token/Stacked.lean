import Vorn.Proofs.Token.LongestMatch

/-!
# Texts below one another

A text that goes on with a second one on a new line has the tokens of both, as long as nothing in
the first is left open. A line break ends every comment behind two slashes, and no lexeme but a
text in quotes goes on behind one:

* `tokensFrom_below`: the tokens of the first text but its end, and then those of the second;
* `tokensFrom_down`: the tokens of a text that starts further down stand further down.

`tokens_stack` puts the two together for a list of source texts.
-/

namespace Vorn

/-- The place some lines further down. -/
def Pos.down (k : Nat) (p : Pos) : Pos := ⟨p.line + k, p.column⟩

namespace Scan

/-! ## Gaps and lexemes in front of a line break -/

theorem IsGap.newline {g rest : List Char} (b : List Char) (h : IsGap g rest) :
    IsGap g (rest ++ '\n' :: b) := by
  induction h with
  | nil => exact .nil
  | blank hc _ ih => exact .blank hc ih
  | @line body g rest hbody hend _ ih =>
    refine .line hbody (fun c hc => ?_) ih
    rw [← List.append_assoc] at hc
    cases hg : g ++ rest with
    | nil =>
      rw [hg] at hc
      simpa using hc.symm
    | cons d ds =>
      rw [hg] at hc hend
      exact hend c hc
  | block hbody _ ih => exact .block hbody ih

/-- A line break is a gap. -/
theorem isGap_newline (b : List Char) : IsGap ['\n'] b := .blank (by decide) .nil

theorem NoGap.newline {c : Char} {cs : List Char} (b : List Char) (h : NoGap (c :: cs)) :
    NoGap (c :: (cs ++ '\n' :: b)) := by
  rintro _ _ ⟨⟩
  obtain ⟨hblank, hslash⟩ := h c cs rfl
  refine ⟨hblank, fun hc d hd => ?_⟩
  cases cs with
  | nil =>
    obtain rfl : '\n' = d := by simpa using hd
    decide
  | cons e es => exact hslash hc d hd

theorem IsGap.append {g g' rest : List Char} (h : IsGap g (g' ++ rest)) (h' : IsGap g' rest) :
    IsGap (g ++ g') rest := by
  generalize hrest : g' ++ rest = rest' at h
  induction h with
  | nil => exact h'
  | blank hc _ ih => exact .blank hc (ih hrest)
  | @line body g _ hbody hend _ ih =>
    subst hrest
    rw [List.cons_append, List.cons_append, List.append_assoc]
    exact .line hbody (by rwa [List.append_assoc]) (ih rfl)
  | @block body g _ hbody _ ih =>
    subst hrest
    have hin : '/' :: '*' :: (body ++ '*' :: '/' :: g) ++ g' =
        '/' :: '*' :: (body ++ '*' :: '/' :: (g ++ g')) := by simp
    rw [hin]
    exact .block hbody (ih rfl)

section Runs

variable {p : Char → Bool} {d : Char} (cs b : List Char)

theorem takeWhile_below (hd : p d = false) : (cs ++ d :: b).takeWhile p = cs.takeWhile p := by
  induction cs with
  | nil => simp [hd]
  | cons c cs ih =>
    cases hc : p c <;> simp [hc, ih]

theorem dropWhile_below (hd : p d = false) :
    (cs ++ d :: b).dropWhile p = cs.dropWhile p ++ d :: b := by
  induction cs with
  | nil => simp [hd]
  | cons c cs ih =>
    cases hc : p c <;> simp [hc, ih]

end Runs

/-- The same lexeme with more behind it. -/
def Lexeme.below (b : List Char) (l : Lexeme) : Lexeme := { l with rest := l.rest ++ '\n' :: b }

theorem word_below (c : Char) (cs b : List Char) :
    word c (cs ++ '\n' :: b) = (word c cs).below b := by
  have hbreak : isWordChar '\n' = false := by decide
  simp only [word, takeWhile_below cs b hbreak, dropWhile_below cs b hbreak, Lexeme.below]

theorem number_below (c : Char) (cs b : List Char) :
    number c (cs ++ '\n' :: b) = (number c cs).below b := by
  have hbreak : isDigit '\n' = false := by decide
  simp only [number, takeWhile_below cs b hbreak, dropWhile_below cs b hbreak]
  cases hrest : cs.dropWhile isDigit with
  | nil => rfl
  | cons d ds =>
    by_cases hd : d = '.'
    · subst hd
      simp only [List.cons_append, takeWhile_below ds b hbreak, dropWhile_below ds b hbreak,
        Lexeme.below]
    · rw [List.cons_append]
      split
      · rename_i heq
        exact absurd (List.cons.inj heq).1 hd
      · split
        · rename_i heq
          exact absurd (List.cons.inj heq).1 hd
        · rfl

theorem quoted_below {cs : List Char} (b : List Char) (h : (quoted cs).closed = true) :
    quoted (cs ++ '\n' :: b) = (quoted cs).below b := by
  have hcut := List.takeWhile_append_dropWhile (p := (· != '"')) (l := cs)
  cases hrest : cs.dropWhile (· != '"') with
  | nil => simp [quoted, hrest] at h
  | cons q rest =>
    have hq : q = '"' := by
      have := List.head?_dropWhile_not (· != '"') cs
      simpa [hrest] using this
    subst hq
    have hbody : ∀ c ∈ cs.takeWhile (· != '"'), (c != '"') = true := fun c hc => by
      simpa using mem_takeWhile hc
    have hstop : Stops (· != '"') ('"' :: (rest ++ '\n' :: b)) := by
      rintro d ⟨⟩
      decide
    have hin : cs ++ '\n' :: b = cs.takeWhile (· != '"') ++ '"' :: (rest ++ '\n' :: b) := by
      rw [hrest] at hcut
      conv => lhs; rw [← hcut]
      simp
    unfold quoted
    rw [hin, takeWhile_append_stops hbody hstop, dropWhile_append_stops hbody hstop, hrest]
    rfl

/-- A text without line break in front of one is in front of it. -/
theorem prefix_below {text : List Char} (input b : List Char) (h : '\n' ∉ text) :
    text <+: input ++ '\n' :: b ↔ text <+: input := by
  refine ⟨fun hpre => ?_, fun hpre => hpre.trans (List.prefix_append _ _)⟩
  by_cases hlen : text.length ≤ input.length
  · exact List.prefix_of_prefix_length_le hpre (List.prefix_append _ _) hlen
  · -- The text would reach behind the line break.
    obtain ⟨more, rfl⟩ := List.prefix_of_prefix_length_le (List.prefix_append _ _) hpre
      (Nat.le_of_not_le hlen)
    rw [List.prefix_append_right_inj] at hpre
    cases more with
    | nil => simp at hlen
    | cons d ds =>
      obtain ⟨rfl, -⟩ := List.cons_prefix_cons.mp hpre
      simp at h

/-- No symbol holds a line break. -/
theorem symbol?_below (input b : List Char) : symbol? (input ++ '\n' :: b) = symbol? input := by
  have hsymbols : ∀ k ∈ Kind.symbols, '\n' ∉ k.text.toList := by decide +kernel
  have hsame : ∀ k ∈ Kind.symbols, k.text.toList.isPrefixOf (input ++ '\n' :: b) =
      k.text.toList.isPrefixOf input := by
    intro k hk
    rw [Bool.eq_iff_iff, List.isPrefixOf_iff_prefix, List.isPrefixOf_iff_prefix,
      prefix_below input b (hsymbols k hk)]
  unfold symbol?
  generalize Kind.symbols = ks at hsame
  induction ks with
  | nil => rfl
  | cons k ks ih =>
    rw [List.forall_mem_cons] at hsame
    rw [List.find?_cons, List.find?_cons, hsame.1, ih hsame.2]

/-- A lexeme that is not left open ends before a line break. -/
theorem lexeme_below {c : Char} {cs : List Char} (b : List Char)
    (h : (lexeme c cs).closed = true) :
    lexeme c (cs ++ '\n' :: b) = (lexeme c cs).below b := by
  unfold lexeme at h ⊢
  by_cases hletter : isLetter c = true
  · rw [if_pos hletter, if_pos hletter, word_below]
  rw [if_neg hletter, if_neg hletter]
  rw [if_neg hletter] at h
  by_cases hdigit : isDigit c = true
  · rw [if_pos hdigit, if_pos hdigit, number_below]
  rw [if_neg hdigit, if_neg hdigit]
  rw [if_neg hdigit] at h
  by_cases hquote : c = '"'
  · rw [if_pos hquote, if_pos hquote]
    rw [if_pos hquote] at h
    exact quoted_below b h
  rw [if_neg hquote, if_neg hquote]
  have hsym : symbol? (c :: (cs ++ '\n' :: b)) = symbol? (c :: cs) := symbol?_below (c :: cs) b
  rw [hsym]
  cases hk : symbol? (c :: cs) with
  | none => rfl
  | some k =>
    have hpre : k.text.toList <+: c :: cs := by simpa [symbol?] using List.find?_some hk
    have hlen : k.text.length - 1 ≤ cs.length := by
      have := hpre.length_le
      simp only [String.length_toList, List.length_cons] at this
      omega
    simp [Lexeme.below, List.take_append_of_le_length hlen, List.drop_append_of_le_length hlen]

/-- Only a text in quotes is left open, and then nothing is behind it. -/
theorem lexeme_open {c : Char} {cs : List Char} (h : (lexeme c cs).closed = false) :
    (lexeme c cs).kind = .string ∧ (lexeme c cs).rest = [] := by
  unfold lexeme at h ⊢
  split
  · simp_all [word]
  split
  · unfold number at h ⊢
    split <;> simp_all
  split
  · unfold quoted at h ⊢
    split <;> simp_all
  split <;> simp_all

/-! ## Tokens -/

/-- A text that is all gap, with another below it. -/
theorem gap_below {input text : List Char} (b : List Char) (h : gap input = .closed text []) :
    gap (input ++ '\n' :: b) = (gap b).prepend (text ++ ['\n']) := by
  have hgap : IsGap text [] := by
    have := gap_spec input
    rw [h] at this
    exact this.1
  have hinput : text = input := by
    have := gap_text_append input
    rw [h] at this
    simpa [Gap.text, Gap.rest] using this
  have hbefore : IsGap text (['\n'] ++ b) := hgap.newline b
  have hall : IsGap (text ++ ['\n']) b := hbefore.append (isGap_newline b)
  have := hall.gap_append
  rw [List.append_assoc] at this
  rw [← hinput]
  exact this

theorem gap_below_cons {input text cs : List Char} {c : Char} (b : List Char)
    (h : gap input = .closed text (c :: cs)) :
    gap (input ++ '\n' :: b) = .closed text (c :: (cs ++ '\n' :: b)) := by
  have hfits := gap_spec input
  have hinput := gap_text_append input
  rw [h] at hfits hinput
  have := (hfits.1.newline b).gap_eq (hfits.2.newline b)
  rw [← hinput]
  simpa [Gap.text, Gap.rest] using this

/-- A text whose last token is a semicolon leaves nothing open, so the tokens of a text below it
are what they would be alone. -/
theorem tokensFrom_below {a : List Char} {pos : Pos} {front : List Token} {last : Token}
    (b : List Char) (h : tokensFrom a pos = front ++ [last])
    (hfront : ∀ t ∈ front.getLast?, t.kind = .semicolon) :
    tokensFrom (a ++ '\n' :: b) pos = front ++ tokensFrom b (pos.after (a ++ ['\n'])) := by
  fun_induction tokensFrom a pos generalizing front with
  | case1 input pos text hg =>
    -- A comment that is left open makes an illegal token.
    obtain ⟨t, rfl⟩ : ∃ t, front = [t] := List.length_eq_one_iff.mp (by
      simpa using (congrArg List.length h).symm)
    obtain ⟨rfl, -⟩ := List.cons.inj h
    cases hfront _ rfl
  | case2 input pos text hg =>
    obtain rfl : front = [] := by
      have := congrArg List.length h
      simpa using this
    have hinput := gap_text_append input
    rw [hg, Gap.text, Gap.rest, List.append_nil] at hinput
    rw [tokensFrom_eq, tokensFrom_eq b, gap_below b hg, ← hinput]
    cases gap b with
    | unclosed body => simp [Gap.prepend, Pos.after_append]
    | closed body rest => cases rest <;> simp [Gap.prepend, Pos.after_append]
  | case3 input pos text c cs hg l =>
    rename_i ih
    have hinput := gap_text_append input
    rw [hg, Gap.text, Gap.rest] at hinput
    cases front with
    | nil =>
      have hne : tokensFrom l.rest (l.finish (pos.after text)) ≠ [] := by
        fun_cases tokensFrom l.rest (l.finish (pos.after text)) <;> simp
      exact absurd (List.cons.inj h).2 hne
    | cons t front =>
      obtain ⟨rfl, htail⟩ := List.cons.inj h
      have hclosed : l.closed = true := by
        rw [← Bool.not_eq_false]
        intro hopen
        obtain ⟨hkind, hrest⟩ := lexeme_open hopen
        -- The open text would be the last token, and no semicolon.
        obtain rfl : front = [] := by
          rw [hrest, tokensFrom_eq, gap] at htail
          have := congrArg List.length htail
          simpa using this
        cases hkind.symm.trans (hfront _ rfl)
      have hlast : ∀ u ∈ front.getLast?, u.kind = .semicolon := by
        intro u hu
        refine hfront u ?_
        rw [List.getLast?_cons, hu]
        rfl
      have hfinish : l.finish (pos.after text) = (pos.after text).after l.text := by
        simp [Lexeme.finish, hclosed]
      have hlexeme : l.text ++ l.rest = c :: cs := lexeme_text_append c cs
      have hplace : (l.finish (pos.after text)).after (l.rest ++ ['\n']) =
          pos.after (input ++ ['\n']) := by
        rw [hfinish, ← hinput, ← hlexeme]
        simp [Pos.after_append]
      have htokens := ih htail hlast
      rw [hplace] at htokens
      rw [tokensFrom_eq, gap_below_cons b hg]
      simp only [lexeme_below b hclosed]
      exact congrArg (_ :: ·) htokens

/-! ## Further down -/

theorem next_down (k : Nat) (p : Pos) (c : Char) : (p.down k).next c = (p.next c).down k := by
  unfold Pos.next
  split
  · simp [Pos.down, Nat.add_right_comm]
  · rfl

theorem after_down (k : Nat) (p : Pos) (cs : List Char) :
    (p.down k).after cs = (p.after cs).down k := by
  induction cs generalizing p with
  | nil => rfl
  | cons c cs ih => rw [Pos.after_cons, next_down, ih, Pos.after_cons]

/-- The tokens of a text that starts further down. -/
theorem tokensFrom_down (k : Nat) (input : List Char) (pos : Pos) :
    tokensFrom input (pos.down k) = (tokensFrom input pos).map (Token.move (Pos.down k)) := by
  fun_induction tokensFrom input pos with
  | case1 input pos text hg =>
    rw [tokensFrom_eq, hg]
    simp [after_down, Token.move]
  | case2 input pos text hg =>
    rw [tokensFrom_eq, hg]
    simp [after_down, Token.move]
  | case3 input pos text c cs hg l ih =>
    have hfinish : l.finish ((pos.after text).down k) = (l.finish (pos.after text)).down k := by
      unfold Lexeme.finish
      rw [after_down]
      split <;> rfl
    rw [tokensFrom_eq, hg, List.map_cons, ← ih, ← hfinish]
    simp only [after_down]
    rfl

/-- The start of the line behind a text. -/
theorem after_newline (cs : List Char) :
    Pos.start.after (cs ++ ['\n']) = Pos.start.down (cs.count '\n' + 1) := by
  have hline : ∀ p : Pos, (p.after cs).line = p.line + cs.count '\n' := by
    induction cs with
    | nil => exact fun p => rfl
    | cons c cs ih =>
      intro p
      rw [Pos.after_cons, ih, Pos.next]
      by_cases hc : c = '\n'
      · simp [hc]
        omega
      · simp [hc]
  rw [Pos.after_append, Pos.after_cons, Pos.after_nil, Pos.next, if_pos rfl, hline]
  rfl

end Scan

/-! ## Source texts -/

/-- The last token before the end is a semicolon. -/
def EndsWithSemicolon (source : String) : Prop :=
  ∃ front semi last, tokens source = front ++ [semi, last] ∧ semi.kind = .semicolon

instance (source : String) : Decidable (EndsWithSemicolon source) :=
  decidable_of_iff ((tokens source).dropLast.getLast?.map Token.kind = some .semicolon) <| by
    constructor
    · intro h
      obtain ⟨semi, hsemi, hk⟩ := Option.map_eq_some_iff.mp h
      obtain ⟨front, hfront⟩ := List.getLast?_eq_some_iff.mp hsemi
      have hne : tokens source ≠ [] := fun hnil => by simp [hnil] at hfront
      refine ⟨front, semi, (tokens source).getLast hne, ?_, hk⟩
      have hsplit := List.dropLast_concat_getLast hne
      rwa [hfront, List.append_assoc, List.singleton_append, eq_comm] at hsplit
    · rintro ⟨front, semi, last, htokens, hk⟩
      have hsplit : tokens source = (front ++ [semi]) ++ [last] := by
        rw [htokens, List.append_assoc]
        rfl
      rw [hsplit, List.dropLast_concat, List.getLast?_concat, Option.map_some, hk]

/-- The number of lines that a source text takes before the next one starts. -/
def lineCount (source : String) : Nat := source.toList.count '\n' + 1

/-- Source texts, each on new lines. -/
def stack (sources : List String) : String := String.intercalate "\n" sources

theorem toList_stack_cons (source next : String) (sources : List String) :
    (stack (source :: next :: sources)).toList =
      source.toList ++ '\n' :: (stack (next :: sources)).toList := by
  simp [stack]

/-- **The tokens of texts below one another** are those of the first but its end, and those of the
others, further down. -/
theorem tokens_stack {source : String} (h : EndsWithSemicolon source) (next : String)
    (sources : List String) :
    tokens (stack (source :: next :: sources)) = (tokens source).dropLast ++
      (tokens (stack (next :: sources))).map (Token.move (Pos.down (lineCount source))) := by
  obtain ⟨front, semi, last, htokens, hsemi⟩ := h
  have hsplit : Scan.tokensFrom source.toList .start = (front ++ [semi]) ++ [last] := by
    rw [List.append_assoc]
    exact htokens
  have hlast : ∀ t ∈ (front ++ [semi]).getLast?, t.kind = .semicolon := by
    intro t ht
    rw [List.getLast?_concat] at ht
    cases ht
    exact hsemi
  have hbelow := Scan.tokensFrom_below (stack (next :: sources)).toList hsplit hlast
  rw [Scan.after_newline, Scan.tokensFrom_down] at hbelow
  rw [tokens, toList_stack_cons, hbelow, tokens, hsplit, List.dropLast_concat]
  rfl

end Vorn
