import Vorn.Token.Scan

/-!
# How a text falls into tokens

`Scan.bare` gives the tokens of an input without their positions. Each lemma below says what one
piece at the head of the input contributes, whatever stands behind it, as long as the next
character cannot make the piece longer:

* `bare_blank`: a blank contributes nothing;
* `bare_word`, `bare_whole`, `bare_fraction`, `bare_quoted`: a name or keyword, a number without
  and with a point, a text in quotes;
* `bare_mark`: a symbol that no other symbol starts with;
* `bare_operator`: any symbol, if the next character is part of no operator.

`valid_of_mem_tokens` goes the other way: the literal of a token is of the form that its kind says.
-/

namespace Vorn

/-- The token at another place. -/
def Token.move (f : Pos → Pos) (t : Token) : Token := { t with pos := f t.pos }

/-- The token without its place. -/
def Token.bare (t : Token) : Token := t.move fun _ => .start

@[simp] theorem Token.move_kind (f : Pos → Pos) (t : Token) : (t.move f).kind = t.kind := rfl

@[simp] theorem Token.move_literal (f : Pos → Pos) (t : Token) :
    (t.move f).literal = t.literal := rfl

@[simp] theorem Token.move_pos (f : Pos → Pos) (t : Token) : (t.move f).pos = f t.pos := rfl

/-- The token of a word. -/
def Token.word (w : String) : Token := ⟨.ofWord w, w, .start⟩

/-- The token of a symbol. -/
def Token.symbol (k : Kind) : Token := ⟨k, k.text, .start⟩

/-- The token at the end of a text. -/
def Token.last : Token := ⟨.eof, "", .start⟩

/-! ## The form of literals -/

/-- A letter, and then letters and digits. -/
def IsWord (s : String) : Prop :=
  ∃ c cs, s.toList = c :: cs ∧ Scan.isLetter c = true ∧ ∀ d ∈ cs, Scan.isWordChar d = true

/-- A word that is not reserved. -/
def IsName (s : String) : Prop := IsWord s ∧ Kind.ofWord s = .ident

/-- One or more digits. -/
def IsWhole (s : String) : Prop := s.toList ≠ [] ∧ ∀ d ∈ s.toList, Scan.isDigit d = true

/-- One or more digits, a point, and any digits behind it. -/
def IsFraction (s : String) : Prop :=
  ∃ whole part, s.toList = whole ++ '.' :: part ∧ whole ≠ [] ∧
    (∀ d ∈ whole, Scan.isDigit d = true) ∧ ∀ d ∈ part, Scan.isDigit d = true

/-- The literal is of the form that the kind of the token says. -/
def Token.Valid (t : Token) : Prop :=
  match t.kind with
  | .ident => IsName t.literal
  | .int => IsWhole t.literal
  | .float => IsFraction t.literal
  | .string => '"' ∉ t.literal.toList
  | _ => True

/-- The kinds of which every literal is valid. -/
def Kind.isFixed : Kind → Bool
  | ident | int | float | string => false
  | _ => true

theorem Token.valid_of_isFixed {t : Token} (h : t.kind.isFixed = true) : t.Valid := by
  unfold Token.Valid
  split <;> simp_all [Kind.isFixed]

theorem Kind.ofWord_eq_ident_or_isFixed (w : String) :
    Kind.ofWord w = .ident ∨ (Kind.ofWord w).isFixed = true := by
  unfold Kind.ofWord
  cases h : Kind.keywords.lookup w with
  | none => exact .inl rfl
  | some k =>
    right
    have hk : ∀ p ∈ Kind.keywords, p.2.isFixed = true := by decide
    obtain ⟨l₁, l₂, hl, -⟩ := List.lookup_eq_some_iff.mp h
    exact hk (w, k) (by rw [hl]; simp)

namespace Scan

theorem isFixed_of_symbol? {input : List Char} {k : Kind} (h : symbol? input = some k) :
    k.isFixed = true := by
  have hk : ∀ k ∈ Kind.symbols, k.isFixed = true := by decide
  exact hk k (List.mem_of_find?_eq_some h)

theorem mem_takeWhile {p : Char → Bool} {c : Char} {cs : List Char} (h : c ∈ cs.takeWhile p) :
    p c = true := by
  simpa using List.all_eq_true.mp (List.all_takeWhile (p := p) (l := cs)) c h

/-- The token of a lexeme is valid. -/
theorem valid_lexeme (c : Char) (cs : List Char) (pos : Pos) :
    Token.Valid ⟨(lexeme c cs).kind, (lexeme c cs).literal, pos⟩ := by
  unfold lexeme
  split
  · rename_i hc
    rcases Kind.ofWord_eq_ident_or_isFixed (.ofList (c :: cs.takeWhile isWordChar)) with h | h
    · have hw : IsWord (.ofList (c :: cs.takeWhile isWordChar)) :=
        ⟨c, _, String.toList_ofList, hc, fun d hd => mem_takeWhile hd⟩
      simp only [word, Token.Valid, h]
      exact ⟨hw, h⟩
    · exact Token.valid_of_isFixed h
  split
  · rename_i hc
    have hw : ∀ d ∈ c :: cs.takeWhile isDigit, isDigit d = true := by
      intro d hd
      rcases List.mem_cons.mp hd with rfl | hd
      · exact hc
      · exact mem_takeWhile hd
    unfold number
    split
    · rename_i rest _
      exact ⟨_, _, String.toList_ofList, by simp, hw, fun d hd => mem_takeWhile hd⟩
    · exact ⟨by simp, by simpa using hw⟩
  split
  · have hq : '"' ∉ (String.ofList (cs.takeWhile (· != '"'))).toList := by
      intro h
      rw [String.toList_ofList] at h
      simpa using mem_takeWhile h
    unfold quoted
    split <;> exact hq
  split
  · rename_i h
    exact Token.valid_of_isFixed (isFixed_of_symbol? h)
  · exact Token.valid_of_isFixed rfl

theorem valid_of_mem_tokensFrom {input : List Char} {pos : Pos} :
    ∀ t ∈ tokensFrom input pos, t.Valid := by
  fun_induction tokensFrom input pos with
  | case1 => simp [Token.Valid]
  | case2 => simp [Token.Valid]
  | case3 input pos text c cs h l ih =>
    intro t ht
    rcases List.mem_cons.mp ht with rfl | ht
    · exact valid_lexeme c cs _
    · exact ih t ht

/-! ## Tokens without places -/

/-- The tokens of an input without their places. -/
def bare (input : List Char) : List Token := (tokensFrom input .start).map Token.bare

theorem tokensFrom_eq (input : List Char) (pos : Pos) :
    tokensFrom input pos =
      match gap input with
      | .unclosed text => [⟨.illegal, "", pos.after text⟩, ⟨.eof, "", pos.after text⟩]
      | .closed text [] => [⟨.eof, "", pos.after text⟩]
      | .closed text (c :: cs) =>
        ⟨(lexeme c cs).kind, (lexeme c cs).literal, pos.after text⟩ ::
          tokensFrom (lexeme c cs).rest ((lexeme c cs).finish (pos.after text)) := by
  rw [tokensFrom]
  split <;> rename_i h <;> simp only [h]

/-- Where the input starts does not matter. -/
theorem map_bare_tokensFrom (input : List Char) (p : Pos) :
    (tokensFrom input p).map Token.bare = bare input := by
  suffices h : ∀ q, (tokensFrom input p).map Token.bare = (tokensFrom input q).map Token.bare from
    h .start
  fun_induction tokensFrom input p with
  | case1 _ _ _ h => intro q; rw [tokensFrom_eq _ q, h]; rfl
  | case2 _ _ _ h => intro q; rw [tokensFrom_eq _ q, h]; rfl
  | case3 _ _ _ _ _ h l ih =>
    intro q
    rw [tokensFrom_eq _ q, h]
    exact congrArg (_ :: ·) (ih _)

/-- `bare` looks at its input only behind the gap at its head. -/
theorem bare_of_gap {a b c : List Char} (h : gap a = (gap b).prepend c) :
    bare a = bare b := by
  unfold bare
  rw [tokensFrom_eq a, tokensFrom_eq b, h]
  cases gap b with
  | unclosed text => rfl
  | closed text rest =>
    cases rest with
    | nil => rfl
    | cons c cs => simp [Gap.prepend, map_bare_tokensFrom, Token.bare, Token.move]

theorem bare_nil : bare [] = [.last] := by
  rw [bare, tokensFrom_eq, gap]
  rfl

theorem bare_blank {c : Char} (h : isBlank c = true) (cs : List Char) :
    bare (c :: cs) = bare cs := by
  refine bare_of_gap (c := [c]) ?_
  rw [gap, if_pos h]
  · rintro _ rfl -; simp [isBlank] at h
  · rintro _ rfl -; simp [isBlank] at h

/-- Neither a blank nor a comment starts the input. -/
def Starts (c : Char) (cs : List Char) : Prop :=
  isBlank c = false ∧ (c = '/' → ∀ d ∈ cs.head?, d ≠ '/' ∧ d ≠ '*')

theorem bare_lexeme {c : Char} {cs : List Char} (h : Starts c cs) :
    bare (c :: cs) =
      ⟨(lexeme c cs).kind, (lexeme c cs).literal, .start⟩ :: bare (lexeme c cs).rest := by
  have hg : gap (c :: cs) = .closed [] (c :: cs) := by
    rw [gap, if_neg (by simp [h.1])]
    · rintro ds rfl rfl; exact (h.2 rfl '/' rfl).1 rfl
    · rintro ds rfl rfl; exact (h.2 rfl '*' rfl).2 rfl
  rw [bare, tokensFrom_eq, hg]
  simp [map_bare_tokensFrom, Token.bare, Token.move]

/-! ## Words, numbers and texts -/

/-- The next character, if there is one, is not of the class. -/
def Stops (p : Char → Bool) (rest : List Char) : Prop := ∀ c ∈ rest.head?, p c = false

theorem takeWhile_append_stops {p : Char → Bool} {cs rest : List Char} (hcs : ∀ c ∈ cs, p c = true)
    (hr : Stops p rest) : (cs ++ rest).takeWhile p = cs := by
  rw [List.takeWhile_append_of_pos hcs]
  cases rest with
  | nil => simp
  | cons c rest => simp [hr c rfl]

theorem dropWhile_append_stops {p : Char → Bool} {cs rest : List Char} (hcs : ∀ c ∈ cs, p c = true)
    (hr : Stops p rest) : (cs ++ rest).dropWhile p = rest := by
  rw [List.dropWhile_append_of_pos hcs]
  cases rest with
  | nil => simp
  | cons c rest => simp [hr c rfl]

theorem starts_of_isWordChar {c : Char} (h : isWordChar c = true) (cs : List Char) :
    Starts c cs := by
  have hb : isBlank c = false := by
    rw [← Bool.not_eq_true]
    intro hb
    simp only [isBlank, Bool.or_eq_true, beq_iff_eq] at hb
    rcases hb with ((rfl | rfl) | rfl) | rfl <;> simp [isWordChar, isLetter, isDigit] at h
  refine ⟨hb, ?_⟩
  rintro rfl
  simp [isWordChar, isLetter, isDigit] at h

theorem bare_word {w : String} (hw : IsWord w) {rest : List Char} (hr : Stops isWordChar rest) :
    bare (w.toList ++ rest) = .word w :: bare rest := by
  obtain ⟨c, cs, hs, hc, hcs⟩ := hw
  have hwc : isWordChar c = true := by simp [isWordChar, hc]
  rw [hs, List.cons_append, bare_lexeme (starts_of_isWordChar hwc _), lexeme, if_pos hc]
  simp only [word, takeWhile_append_stops hcs hr, dropWhile_append_stops hcs hr, Token.word,
    ← hs, String.ofList_toList]

theorem not_isLetter_of_isDigit {c : Char} (h : isDigit c = true) : isLetter c = false := by
  have h0 : '0'.val.toNat ≤ c.val.toNat ∧ c.val.toNat ≤ '9'.val.toNat := by
    simpa [isDigit, Char.le_def, UInt32.le_iff_toNat_le] using h
  have hv : c ≠ '_' := by rintro rfl; simp at h0
  simp only [isLetter, hv, Char.le_def, UInt32.le_iff_toNat_le, Bool.or_eq_false_iff,
    Bool.and_eq_false_iff, decide_eq_false_iff_not, beq_eq_false_iff_ne, ne_eq, not_false_eq_true,
    and_true]
  simp at h0 ⊢
  omega

theorem isWordChar_of_isDigit {c : Char} (h : isDigit c = true) : isWordChar c = true := by
  simp [isWordChar, h]

/-- A number without a point; a point behind it would be taken for its own. -/
theorem bare_whole {w : String} (hw : IsWhole w) {rest : List Char}
    (hr : Stops (fun c => isDigit c || c == '.') rest) :
    bare (w.toList ++ rest) = ⟨.int, w, .start⟩ :: bare rest := by
  obtain ⟨hne, hds⟩ := hw
  obtain ⟨c, cs, hs⟩ := List.exists_cons_of_ne_nil hne
  have hcs : ∀ d ∈ cs, isDigit d = true := fun d hd => hds d (by simp [hs, hd])
  have hc : isDigit c = true := hds c (by simp [hs])
  have hr' : Stops isDigit rest := fun d hd => (Bool.or_eq_false_iff.mp (hr d hd)).1
  rw [hs, List.cons_append, bare_lexeme (starts_of_isWordChar (isWordChar_of_isDigit hc) _), lexeme,
    if_neg (by simp [not_isLetter_of_isDigit hc]), if_pos hc]
  simp only [number, takeWhile_append_stops hcs hr', dropWhile_append_stops hcs hr']
  split
  · simpa using hr '.' rfl
  · simp only [← hs, String.ofList_toList]

/-- A number with a point. -/
theorem bare_fraction {w : String} (hw : IsFraction w) {rest : List Char}
    (hr : Stops isDigit rest) :
    bare (w.toList ++ rest) = ⟨.float, w, .start⟩ :: bare rest := by
  obtain ⟨whole, part, hs, hne, hwhole, hpart⟩ := hw
  obtain ⟨c, cs, rfl⟩ := List.exists_cons_of_ne_nil hne
  have hcs : ∀ d ∈ cs, isDigit d = true := fun d hd => hwhole d (by simp [hd])
  have hc : isDigit c = true := hwhole c (by simp)
  have hpoint : Stops isDigit ('.' :: (part ++ rest)) := by
    rintro d ⟨⟩
    decide
  have hin : w.toList ++ rest = c :: (cs ++ '.' :: (part ++ rest)) := by simp [hs]
  rw [hin, bare_lexeme (starts_of_isWordChar (isWordChar_of_isDigit hc) _), lexeme,
    if_neg (by simp [not_isLetter_of_isDigit hc]), if_pos hc]
  simp only [number, takeWhile_append_stops hcs hpoint, dropWhile_append_stops hcs hpoint,
    takeWhile_append_stops hpart hr, dropWhile_append_stops hpart hr, ← hs, String.ofList_toList]

/-- A text in quotes. -/
theorem bare_quoted {w : String} (hw : '"' ∉ w.toList) (rest : List Char) :
    bare ('"' :: (w.toList ++ '"' :: rest)) = ⟨.string, w, .start⟩ :: bare rest := by
  have hcs : ∀ d ∈ w.toList, (d != '"') = true := by
    intro d hd
    simp only [bne_iff_ne, ne_eq]
    rintro rfl
    exact hw hd
  have hr : Stops (· != '"') ('"' :: rest) := by
    rintro d ⟨⟩
    decide
  rw [bare_lexeme ⟨by decide, by simp⟩, lexeme, if_neg (by decide), if_neg (by decide), if_pos rfl]
  simp only [quoted, takeWhile_append_stops hcs hr, dropWhile_append_stops hcs hr,
    String.ofList_toList]

/-! ## Symbols -/

/-- The characters that make an operator longer, or turn it into a comment. -/
def isOperatorChar (c : Char) : Bool :=
  c == '=' || c == '+' || c == '-' || c == '*' || c == '/' || c == '<' || c == '>' || c == '&' ||
    c == '|'

/-- The symbols that no other symbol starts with. -/
def marks : List Kind :=
  [.tilde, .comma, .semicolon, .colon, .dot, .lparen, .rparen, .lbrace, .rbrace, .lbracket,
   .rbracket]

/-- The first character of a symbol starts nothing else. -/
theorem symbol_head {k : Kind} (hk : k ∈ Kind.symbols) :
    ∃ c cs, k.text.toList = c :: cs ∧ isLetter c = false ∧ isDigit c = false ∧ c ≠ '"' ∧
      isBlank c = false ∧ (c = '/' → k = .slash ∨ cs = ['=']) := by
  have h : ∀ k ∈ Kind.symbols, ∃ p ∈ (k.text.toList.head?.map fun c => (c, k.text.toList.tail)),
      isLetter p.1 = false ∧ isDigit p.1 = false ∧ p.1 ≠ '"' ∧ isBlank p.1 = false ∧
        (p.1 = '/' → k = .slash ∨ p.2 = ['=']) := by
    decide +kernel
  obtain ⟨⟨c, cs⟩, hp, hc⟩ := h k hk
  cases ht : k.text.toList with
  | nil => simp [ht] at hp
  | cons d ds =>
    simp only [ht, List.head?_cons, Option.map_some, List.tail_cons, Option.mem_def,
      Option.some.injEq, Prod.mk.injEq] at hp
    obtain ⟨rfl, rfl⟩ := hp
    exact ⟨_, _, rfl, hc⟩

/-- A symbol is found at the head of an input if no longer symbol is there. -/
theorem symbol?_append {k : Kind} (hk : k ∈ Kind.symbols) {rest : List Char}
    (hext : ∀ k' ∈ Kind.symbols, k.text.toList <+: k'.text.toList → k' ≠ k →
      ¬ k'.text.toList <+: k.text.toList ++ rest) :
    symbol? (k.text.toList ++ rest) = some k := by
  have hsorted : Kind.symbols.Pairwise fun a b =>
      a ≠ b ∧ b.text.toList.length ≤ a.text.toList.length := by decide +kernel
  obtain ⟨before, after, hsplit⟩ := List.append_of_mem hk
  rw [hsplit, List.pairwise_append] at hsorted
  refine List.find?_eq_some_iff_append.mpr ⟨by simp, before, after, hsplit, ?_⟩
  intro k' hk'
  obtain ⟨hne, hlen⟩ := hsorted.2.2 k' hk' k (by simp)
  simp only [Bool.not_eq_true', ← Bool.not_eq_true, List.isPrefixOf_iff_prefix]
  intro hpre
  -- A symbol listed before `k` is no shorter, so it has the text of `k` as a start.
  have hstart := List.prefix_of_prefix_length_le (List.prefix_append _ rest) hpre hlen
  exact hext k' (by rw [hsplit]; simp [hk']) hstart hne hpre

theorem bare_symbol {k : Kind} (hk : k ∈ Kind.symbols) {rest : List Char}
    (hext : ∀ k' ∈ Kind.symbols, k.text.toList <+: k'.text.toList → k' ≠ k →
      ¬ k'.text.toList <+: k.text.toList ++ rest)
    (hcomment : k = .slash → ∀ d ∈ rest.head?, d ≠ '/' ∧ d ≠ '*') :
    bare (k.text.toList ++ rest) = .symbol k :: bare rest := by
  have hs := symbol?_append hk hext
  obtain ⟨c, cs, ht, hl, hd, hq, hb, hsl⟩ := symbol_head hk
  have hlen : k.text.length - 1 = cs.length := by
    rw [← String.length_toList, ht]
    rfl
  have hst : Starts c (cs ++ rest) := by
    refine ⟨hb, ?_⟩
    intro hc
    rcases hsl hc with rfl | rfl
    · obtain rfl : cs = [] := by simpa [Kind.text] using congrArg List.tail ht.symm
      exact hcomment rfl
    · simp
  rw [ht, List.cons_append] at hs ⊢
  rw [bare_lexeme hst, lexeme, if_neg (by simp [hl]), if_neg (by simp [hd]), if_neg hq, hs]
  simp [hlen, Token.symbol]

/-- A symbol that no other symbol starts with, whatever follows. -/
theorem bare_mark {k : Kind} (hk : k ∈ marks) (rest : List Char) :
    bare (k.text.toList ++ rest) = .symbol k :: bare rest := by
  have hsym : ∀ k ∈ marks, k ∈ Kind.symbols ∧ k ≠ .slash := by decide
  have honly : ∀ k ∈ marks, ∀ k' ∈ Kind.symbols, k.text.toList <+: k'.text.toList → k' = k := by
    decide +kernel
  obtain ⟨hin, hne⟩ := hsym k hk
  exact bare_symbol hin (fun k' hk' hp hn _ => hn (honly k hk k' hk' hp)) (fun h => (hne h).elim)

/-- A symbol in front of a character that is part of no operator. -/
theorem bare_operator {k : Kind} (hk : k ∈ Kind.symbols) {rest : List Char}
    (hr : Stops isOperatorChar rest) :
    bare (k.text.toList ++ rest) = .symbol k :: bare rest := by
  have hlonger : ∀ k ∈ Kind.symbols, ∀ k' ∈ Kind.symbols, k.text.toList <+: k'.text.toList →
      k' ≠ k → (k'.text.toList.drop k.text.toList.length).head?.any isOperatorChar = true := by
    decide +kernel
  refine bare_symbol hk ?_ ?_
  · intro k' hk' hp hn hpre
    obtain ⟨c, hc, hop⟩ := (Option.any_eq_true _ _).mp (hlonger k hk k' hk' hp hn)
    obtain ⟨more, hmore⟩ := hp
    rw [← hmore, List.drop_left] at hc
    rw [← hmore, List.prefix_append_right_inj] at hpre
    obtain ⟨tail, rfl⟩ := hpre
    cases more with
    | nil => simp at hc
    | cons d ds =>
      obtain rfl : d = c := by simpa using hc
      simpa [hop] using hr d rfl
  · intro _ d hd
    have := hr d hd
    constructor <;> rintro rfl <;> simp [isOperatorChar] at this

end Scan

/-- Every token of a source text is valid. -/
theorem valid_of_mem_tokens {source : String} {t : Token} (h : t ∈ tokens source) : t.Valid :=
  Scan.valid_of_mem_tokensFrom t h

end Vorn
