import Vorn.Proofs.Tree.Tokens

/-!
# The text of a tree and its tokens

The source form of a printable tree falls into exactly the tokens that `tokens` lists:

* `Expr.bare_text`: an expression in front of any text that does not continue its last token;
* `Stmt.bare_text`, `Block.bare_text`: a statement or a block in front of any text;
* `Program.bare_text`: a whole program.

What may follow an expression is `Expr.EndsBefore`. A word ends before a character that is not
part of words, and an integer must not run into a point.
-/

namespace Vorn

open Scan

/-! ## Single pieces -/

namespace Scan

section Pieces

variable (rest : List Char)

@[simp] theorem bare_space : bare (' ' :: rest) = bare rest := bare_blank (by decide) rest

@[simp] theorem bare_lparen : bare ('(' :: rest) = .symbol .lparen :: bare rest :=
  bare_mark (k := .lparen) (by decide) rest

@[simp] theorem bare_rparen : bare (')' :: rest) = .symbol .rparen :: bare rest :=
  bare_mark (k := .rparen) (by decide) rest

@[simp] theorem bare_lbrace : bare ('\x7b' :: rest) = .symbol .lbrace :: bare rest :=
  bare_mark (k := .lbrace) (by decide) rest

@[simp] theorem bare_rbrace : bare ('\x7d' :: rest) = .symbol .rbrace :: bare rest :=
  bare_mark (k := .rbrace) (by decide) rest

@[simp] theorem bare_lbracket : bare ('[' :: rest) = .symbol .lbracket :: bare rest :=
  bare_mark (k := .lbracket) (by decide) rest

@[simp] theorem bare_rbracket : bare (']' :: rest) = .symbol .rbracket :: bare rest :=
  bare_mark (k := .rbracket) (by decide) rest

@[simp] theorem bare_comma : bare (',' :: rest) = .symbol .comma :: bare rest :=
  bare_mark (k := .comma) (by decide) rest

@[simp] theorem bare_semicolon : bare (';' :: rest) = .symbol .semicolon :: bare rest :=
  bare_mark (k := .semicolon) (by decide) rest

@[simp] theorem bare_colon : bare (':' :: rest) = .symbol .colon :: bare rest :=
  bare_mark (k := .colon) (by decide) rest

@[simp] theorem bare_dot : bare ('.' :: rest) = .symbol .dot :: bare rest :=
  bare_mark (k := .dot) (by decide) rest

@[simp] theorem bare_assign : bare ('=' :: ' ' :: rest) = .symbol .assign :: bare rest := by
  rw [← bare_space rest]
  exact bare_operator (k := .assign) (by decide) (by rintro _ ⟨⟩; decide)

end Pieces

theorem stops_cons {p : Char → Bool} {c : Char} (h : p c = false) (rest : List Char) :
    Stops p (c :: rest) := by
  rintro _ ⟨⟩
  exact h

theorem isWord_of_mem_keywords {w : String} (h : w ∈ Kind.keywords.map Prod.fst) : IsWord w := by
  have hw : ∀ w ∈ Kind.keywords.map Prod.fst, w.toList.head?.any isLetter = true ∧
      w.toList.tail.all isWordChar = true := by decide +kernel
  obtain ⟨hhead, ht⟩ := hw w h
  obtain ⟨c, hc, hl⟩ := (Option.any_eq_true _ _).mp hhead
  obtain ⟨cs, hcs⟩ := List.head?_eq_some_iff.mp hc
  exact ⟨c, cs, hcs, hl, by simpa [hcs] using ht⟩

theorem bare_keyword {w : String} (h : w ∈ Kind.keywords.map Prod.fst) {rest : List Char}
    (hr : Stops isWordChar rest) : bare (w.toList ++ rest) = .word w :: bare rest :=
  bare_word (isWord_of_mem_keywords h) hr

section Keywords

variable (rest : List Char)

@[simp] theorem bare_if : bare ('i' :: 'f' :: ' ' :: rest) = .word "if" :: bare rest := by
  simpa using bare_keyword (w := "if") (by decide) (stops_cons (c := ' ') (by decide) rest)

@[simp] theorem bare_else :
    bare ('e' :: 'l' :: 's' :: 'e' :: ' ' :: rest) = .word "else" :: bare rest := by
  simpa using bare_keyword (w := "else") (by decide) (stops_cons (c := ' ') (by decide) rest)

@[simp] theorem bare_let : bare ('l' :: 'e' :: 't' :: ' ' :: rest) = .word "let" :: bare rest := by
  simpa using bare_keyword (w := "let") (by decide) (stops_cons (c := ' ') (by decide) rest)

@[simp] theorem bare_const :
    bare ('c' :: 'o' :: 'n' :: 's' :: 't' :: ' ' :: rest) = .word "const" :: bare rest := by
  simpa using bare_keyword (w := "const") (by decide) (stops_cons (c := ' ') (by decide) rest)

@[simp] theorem bare_while :
    bare ('w' :: 'h' :: 'i' :: 'l' :: 'e' :: ' ' :: rest) = .word "while" :: bare rest := by
  simpa using bare_keyword (w := "while") (by decide) (stops_cons (c := ' ') (by decide) rest)

@[simp] theorem bare_for : bare ('f' :: 'o' :: 'r' :: ' ' :: rest) = .word "for" :: bare rest := by
  simpa using bare_keyword (w := "for") (by decide) (stops_cons (c := ' ') (by decide) rest)

@[simp] theorem bare_return :
    bare ('r' :: 'e' :: 't' :: 'u' :: 'r' :: 'n' :: ' ' :: rest) =
      .word "return" :: bare rest := by
  simpa using bare_keyword (w := "return") (by decide) (stops_cons (c := ' ') (by decide) rest)

@[simp] theorem bare_return_semicolon :
    bare ('r' :: 'e' :: 't' :: 'u' :: 'r' :: 'n' :: ';' :: rest) =
      .word "return" :: .symbol .semicolon :: bare rest := by
  simpa using bare_keyword (w := "return") (by decide) (stops_cons (c := ';') (by decide) rest)

@[simp] theorem bare_func :
    bare ('f' :: 'u' :: 'n' :: 'c' :: ' ' :: rest) = .word "func" :: bare rest := by
  simpa using bare_keyword (w := "func") (by decide) (stops_cons (c := ' ') (by decide) rest)

@[simp] theorem bare_func_lparen :
    bare ('f' :: 'u' :: 'n' :: 'c' :: '(' :: rest) =
      .word "func" :: .symbol .lparen :: bare rest := by
  simpa using bare_keyword (w := "func") (by decide) (stops_cons (c := '(') (by decide) rest)

end Keywords

end Scan

/-! ## What may follow -/

/-- The text does not continue the last token of the expression. -/
def Expr.EndsBefore (e : Expr) (rest : List Char) : Prop :=
  Stops isWordChar rest ∧ ((e.isAssign || e.isInt) = true → Stops (· == '.') rest)

/-- The characters that every expression ends before. -/
def isEnd (c : Char) : Bool := !isWordChar c && c != '.'

theorem Expr.endsBefore_cons (e : Expr) {c : Char} (h : isEnd c = true) (rest : List Char) :
    e.EndsBefore (c :: rest) := by
  simp only [isEnd, Bool.and_eq_true, Bool.not_eq_true', bne_iff_ne] at h
  exact ⟨stops_cons h.1 rest, fun _ => stops_cons (by simpa using h.2) rest⟩

/-- A point may follow the receiver of a member. -/
theorem Expr.endsBefore_dot {e : Expr} (h : (!e.isAssign && !e.isInt) = true) (rest : List Char) :
    e.EndsBefore ('.' :: rest) := by
  refine ⟨stops_cons (by decide) rest, ?_⟩
  intro hc
  simp only [Bool.and_eq_true, Bool.not_eq_true', Bool.or_eq_true] at h hc
  simp [h.1, h.2] at hc

theorem Expr.EndsBefore.value {p : Pos} {name : String} {value : Expr} {rest : List Char}
    (h : (Expr.assign p name value).EndsBefore rest) : value.EndsBefore rest :=
  ⟨h.1, fun _ => h.2 rfl⟩

theorem stops_operator_of_isWordChar {c : Char} (h : isWordChar c = true) (rest : List Char) :
    Stops isOperatorChar (c :: rest) := by
  refine stops_cons (Bool.not_eq_true _ ▸ ?_) rest
  intro hc
  simp only [isOperatorChar, Bool.or_eq_true, beq_iff_eq] at hc
  rcases hc with (((((((rfl | rfl) | rfl) | rfl) | rfl) | rfl) | rfl) | rfl) | rfl <;>
    simp [isWordChar, isLetter, isDigit] at h

theorem IsWord.stops_operator {w : String} (h : IsWord w) (rest : List Char) :
    Stops isOperatorChar (w.toList ++ rest) := by
  obtain ⟨c, cs, hs, hc, -⟩ := h
  rw [hs]
  exact stops_operator_of_isWordChar (by simp [isWordChar, hc]) _

theorem IsWhole.stops_operator {w : String} (h : IsWhole w) (rest : List Char) :
    Stops isOperatorChar (w.toList ++ rest) := by
  obtain ⟨c, cs, hs⟩ := List.exists_cons_of_ne_nil h.1
  rw [hs]
  exact stops_operator_of_isWordChar (isWordChar_of_isDigit (h.2 c (by simp [hs]))) _

theorem IsFraction.stops_operator {w : String} (h : IsFraction w) (rest : List Char) :
    Stops isOperatorChar (w.toList ++ rest) := by
  obtain ⟨whole, part, hs, hne, hwhole, -⟩ := h
  obtain ⟨c, cs, rfl⟩ := List.exists_cons_of_ne_nil hne
  rw [hs]
  exact stops_operator_of_isWordChar (isWordChar_of_isDigit (hwhole c (by simp))) _

/-- No expression starts with an operator, so an operator may stand right before it. -/
theorem Expr.stops_text : ∀ (e : Expr), Printable e.nodes → ∀ rest : List Char,
    Stops isOperatorChar (e.text.toList ++ rest)
  | .ident _ name, h, rest => by
    simp only [Expr.nodes, Printable.cons_iff] at h
    exact IsWord.stops_operator h.1.1.1 rest
  | .int _ written _, h, rest => by
    simp only [Expr.nodes, Printable.cons_iff] at h
    exact IsWhole.stops_operator h.1.1.1 rest
  | .float _ written _, h, rest => by
    simp only [Expr.nodes, Printable.cons_iff] at h
    exact IsFraction.stops_operator h.1.1.1 rest
  | .assign _ name _, h, rest => by
    simp only [Expr.nodes, Printable.cons_iff] at h
    simpa [Expr.text] using IsWord.stops_operator h.1.1.1 _
  | .call _ callee _, h, rest => by
    simp only [Expr.nodes, Printable.cons_iff, Printable.append_iff] at h
    simpa [Expr.text] using Expr.stops_text callee h.2.1 _
  | .bool _ value, _, rest => by
    cases value <;> simpa [Expr.text] using stops_cons (by decide) _
  | .step _ _ _ before, _, rest => by
    cases before <;> simpa [Expr.text] using stops_cons (by decide) _
  | .null _, _, _ | .string _ _, _, _ | .array _ _, _, _ | .hash _ _, _, _ | .func _ _ _, _, _
  | .unary _ _ _, _, _ | .binary _ _ _ _, _, _ | .cond _ _ _ _, _, _ | .index _ _ _, _, _
  | .member _ _ _ _, _, _ | .method _ _ _ _ _ _, _, _ | .break _, _, _ | .continue _, _, _ => by
    simpa [Expr.text] using stops_cons (by decide) _

/-! ## Lists -/

/-- The texts behind the first one, with the separator before each. -/
def behind (sep : List Char) (xs : List String) : List Char := xs.flatMap fun x => sep ++ x.toList

@[simp] theorem behind_nil (sep : List Char) : behind sep [] = [] := rfl

@[simp] theorem behind_cons (sep : List Char) (x : String) (xs : List String) :
    behind sep (x :: xs) = sep ++ (x.toList ++ behind sep xs) := by
  simp [behind]

theorem intercalate_texts (sep : List Char) (x : String) (xs : List String) :
    sep.intercalate (x.toList :: xs.map String.toList) = x.toList ++ behind sep xs := by
  induction xs generalizing x with
  | nil => simp
  | cons y ys ih =>
    rw [List.map_cons, List.intercalate_cons_cons, ih, behind_cons, List.append_assoc]

/-- A list with commas goes on with a comma or ends. -/
theorem stops_behind {p : Char → Bool} (hp : p ',' = false) (xs : List String) {rest : List Char}
    (hr : Stops p rest) : Stops p (behind [',', ' '] xs ++ rest) := by
  cases xs with
  | nil => exact hr
  | cons x xs =>
    rw [behind_cons]
    exact stops_cons hp _

theorem Expr.endsBefore_behind (e : Expr) (xs : List String) {c : Char} (h : isEnd c = true)
    (rest : List Char) : e.EndsBefore (behind [',', ' '] xs ++ c :: rest) := by
  have hc := e.endsBefore_cons h rest
  exact ⟨stops_behind (by decide) xs hc.1, fun he => stops_behind (by decide) xs (hc.2 he)⟩

theorem bare_names : ∀ {x : String} {xs : List String}, (∀ y ∈ x :: xs, IsName y) →
    ∀ {rest : List Char}, Stops isWordChar rest →
      bare (x.toList ++ (behind [',', ' '] xs ++ rest)) = nameTokens (x :: xs) ++ bare rest
  | x, [], h, rest, hr => by
    simpa [nameTokens] using bare_word (h x (by simp)).1 hr
  | x, y :: ys, h, rest, hr => by
    have hxs := bare_names (x := y) (fun z hz => h z (List.mem_cons_of_mem x hz)) hr
    rw [bare_word (h x (by simp)).1 (stops_behind (by decide) _ hr)]
    simpa [nameTokens] using hxs

/-- Parameters between parentheses. -/
theorem bare_params {params : List String} (h : ∀ x ∈ params, IsName x) (rest : List Char) :
    bare ((parenthesized params).toList ++ rest) = paramTokens params ++ bare rest := by
  cases params with
  | nil => simp [parenthesized, paramTokens, nameTokens, String.intercalate]
  | cons x xs =>
    have hxs := bare_names h (stops_cons (p := isWordChar) (c := ')') (by decide) rest)
    simpa [parenthesized, intercalate_texts, paramTokens] using hxs

/-! ## Trees -/

mutual

theorem Expr.bare_text : ∀ e : Expr, Printable e.nodes → ∀ rest : List Char, e.EndsBefore rest →
    bare (e.text.toList ++ rest) = e.tokens ++ bare rest
  | .ident _ name, h, rest, hr => by
    simp only [Expr.nodes, Printable.cons_iff] at h
    exact bare_word h.1.1.1 hr.1
  | .int _ written _, h, rest, hr => by
    simp only [Expr.nodes, Printable.cons_iff] at h
    refine bare_whole h.1.1.1 fun c hc => ?_
    have hw := hr.1 c hc
    have hd := hr.2 rfl c hc
    simp_all [isWordChar]
  | .float _ written _, h, rest, hr => by
    simp only [Expr.nodes, Printable.cons_iff] at h
    refine bare_fraction h.1.1.1 fun c hc => ?_
    have hw := hr.1 c hc
    simp_all [isWordChar]
  | .bool _ true, _, rest, hr => bare_keyword (w := "true") (by decide) hr.1
  | .bool _ false, _, rest, hr => bare_keyword (w := "false") (by decide) hr.1
  | .null _, _, rest, hr => bare_keyword (w := "null") (by decide) hr.1
  | .break _, _, rest, hr => bare_keyword (w := "break") (by decide) hr.1
  | .continue _, _, rest, hr => bare_keyword (w := "continue") (by decide) hr.1
  | .string _ value, h, rest, _ => by
    simp only [Expr.nodes, Printable.cons_iff] at h
    simpa [Expr.text, Expr.tokens] using bare_quoted h.1.1 rest
  | .array _ es, h, rest, _ => by
    simp only [Expr.nodes, Printable.cons_iff] at h
    have hes := Expr.bare_texts es h.2 (c := ']') (by decide) rest
    simpa [Expr.text, Expr.tokens] using hes
  | .hash _ ps, h, rest, _ => by
    simp only [Expr.nodes, Printable.cons_iff] at h
    have hps := Expr.bare_pairTexts ps h.2 (c := '\x7d') (by decide) rest
    simpa [Expr.text, Expr.tokens] using hps
  | .func _ params body, h, rest, _ => by
    simp only [Expr.nodes, Printable.cons_iff] at h
    have hbody := Block.bare_text body h.2 rest
    have hparams := bare_params h.1.1 (' ' :: (body.text.toList ++ rest))
    simp only [parenthesized, paramTokens] at hparams
    simpa [Expr.text, Expr.tokens, parenthesized, paramTokens, hbody] using hparams
  | .unary _ op e, h, rest, _ => by
    simp only [Expr.nodes, Printable.cons_iff] at h
    have he := Expr.bare_text e h.2 (')' :: rest) (e.endsBefore_cons (by decide) rest)
    have hop := bare_operator op.kind_mem_symbols (e.stops_text h.2 (')' :: rest))
    rw [op.text_kind] at hop
    simp [Expr.text, Expr.tokens, hop, he]
  | .binary _ op l r, h, rest, _ => by
    simp only [Expr.nodes, Printable.cons_iff, Printable.append_iff] at h
    have hr := Expr.bare_text r h.2.2 (')' :: rest) (r.endsBefore_cons (by decide) rest)
    have hop := bare_operator op.kind_mem_symbols
      (stops_cons (c := ' ') (by decide) (r.text.toList ++ ')' :: rest))
    have hl := fun rest => Expr.bare_text l h.2.1 (' ' :: rest) (l.endsBefore_cons (by decide) rest)
    rw [op.text_kind] at hop
    simp [Expr.text, Expr.tokens, hop, hl, hr]
  | .cond _ c b a, h, rest, _ => by
    simp only [Expr.nodes, Printable.cons_iff, Printable.append_iff] at h
    have hc := Expr.bare_optionText c h.2.1 (c := ')') (by decide)
    have hb := Block.bare_text b h.2.2.1
    have ha := Block.bare_alternativeText a h.2.2.2 rest
    simp [Expr.text, Expr.tokens, ha, hb, hc]
  | .call _ f es, h, rest, _ => by
    simp only [Expr.nodes, Printable.cons_iff, Printable.append_iff] at h
    have hf := fun rest => Expr.bare_text f h.2.1 ('(' :: rest) (f.endsBefore_cons (by decide) rest)
    have hes := Expr.bare_texts es h.2.2 (c := ')') (by decide) rest
    simpa [Expr.text, Expr.tokens, parenthesized, hf] using hes
  | .index _ c k, h, rest, _ => by
    simp only [Expr.nodes, Printable.cons_iff, Printable.append_iff] at h
    have hc := fun rest => Expr.bare_text c h.2.1 ('[' :: rest) (c.endsBefore_cons (by decide) rest)
    have hk := fun rest => Expr.bare_text k h.2.2 (']' :: rest) (k.endsBefore_cons (by decide) rest)
    simp [Expr.text, Expr.tokens, hc, hk]
  | .member _ r _ name, h, rest, _ => by
    simp only [Expr.nodes, Printable.cons_iff] at h
    have hr := fun rest => Expr.bare_text r h.2 ('.' :: rest) (Expr.endsBefore_dot h.1.2 rest)
    have hname := bare_word h.1.1.1 (stops_cons (c := ')') (by decide) rest)
    simp [Expr.text, Expr.tokens, hr, hname]
  | .method _ r _ name _ es, h, rest, _ => by
    simp only [Expr.nodes, Printable.cons_iff, Printable.append_iff] at h
    have hr := fun rest => Expr.bare_text r h.2.1 ('.' :: rest) (Expr.endsBefore_dot h.1.2 rest)
    have hname := fun rest => bare_word h.1.1.1 (stops_cons (c := '(') (by decide) rest)
    have hes := Expr.bare_texts es h.2.2 (c := ')') (by decide) (')' :: rest)
    simpa [Expr.text, Expr.tokens, parenthesized, hr, hname] using hes
  | .assign _ name e, h, rest, hr => by
    simp only [Expr.nodes, Printable.cons_iff] at h
    have hname := fun rest => bare_word h.1.1.1 (stops_cons (c := ' ') (by decide) rest)
    have he := Expr.bare_text e h.2 rest hr.value
    simp [Expr.text, Expr.tokens, hname, he]
  | .step _ op name true, h, rest, _ => by
    simp only [Expr.nodes, Printable.cons_iff] at h
    have hname := bare_word h.1.1.1 (stops_cons (c := ')') (by decide) rest)
    have hop := bare_operator op.kind_mem_symbols (IsWord.stops_operator h.1.1.1 (')' :: rest))
    rw [op.text_kind] at hop
    simp [Expr.text, Expr.tokens, hname, hop]
  | .step _ op name false, h, rest, _ => by
    simp only [Expr.nodes, Printable.cons_iff] at h
    have hop := bare_operator op.kind_mem_symbols (stops_cons (c := ')') (by decide) rest)
    have hstop : Stops isWordChar (op.text.toList ++ ')' :: rest) := by
      cases op <;> exact stops_cons (by decide) _
    have hname := bare_word h.1.1.1 hstop
    rw [op.text_kind] at hop
    simp [Expr.text, Expr.tokens, hname, hop]

/-- Expressions between commas. -/
theorem Expr.bare_texts : ∀ es : List Expr, Printable (Expr.nodesOfAll es) → ∀ {c : Char},
    isEnd c = true → ∀ rest : List Char,
    bare ([',', ' '].intercalate ((Expr.texts es).map String.toList) ++ c :: rest) =
      Expr.tokensOfAll es ++ bare (c :: rest)
  | [], _, c, _, rest => rfl
  | e :: es, h, c, hc, rest => by
    simp only [Expr.nodesOfAll, Printable.append_iff] at h
    have hes := Expr.bare_textsBehind es h.2 hc rest
    have he := Expr.bare_text e h.1 _ (e.endsBefore_behind (Expr.texts es) hc rest)
    rw [Expr.texts, List.map_cons, intercalate_texts, List.append_assoc, he, hes]
    simp [Expr.tokensOfAll]

theorem Expr.bare_textsBehind : ∀ es : List Expr, Printable (Expr.nodesOfAll es) → ∀ {c : Char},
    isEnd c = true → ∀ rest : List Char,
    bare (behind [',', ' '] (Expr.texts es) ++ c :: rest) =
      Expr.tokensBehind es ++ bare (c :: rest)
  | [], _, c, _, rest => rfl
  | e :: es, h, c, hc, rest => by
    simp only [Expr.nodesOfAll, Printable.append_iff] at h
    have hes := Expr.bare_textsBehind es h.2 hc rest
    have he := Expr.bare_text e h.1 _ (e.endsBefore_behind (Expr.texts es) hc rest)
    simp [Expr.texts, Expr.tokensBehind, he, hes]

/-- Pairs between commas. -/
theorem Expr.bare_pairTexts : ∀ ps : List (Expr × Expr), Printable (Expr.nodesOfPairs ps) →
    ∀ {c : Char}, isEnd c = true → ∀ rest : List Char,
    bare ([',', ' '].intercalate ((Expr.pairTexts ps).map String.toList) ++ c :: rest) =
      Expr.tokensOfPairs ps ++ bare (c :: rest)
  | [], _, c, _, rest => rfl
  | (k, v) :: ps, h, c, hc, rest => by
    simp only [Expr.nodesOfPairs, Printable.append_iff] at h
    have hps := Expr.bare_pairTextsBehind ps h.2.2 hc rest
    have hv := Expr.bare_text v h.2.1 _ (v.endsBefore_behind (Expr.pairTexts ps) hc rest)
    have hk := fun rest => Expr.bare_text k h.1 (':' :: rest) (k.endsBefore_cons (by decide) rest)
    rw [Expr.pairTexts, List.map_cons, intercalate_texts]
    simp [Expr.tokensOfPairs, hk, hv, hps]

theorem Expr.bare_pairTextsBehind : ∀ ps : List (Expr × Expr), Printable (Expr.nodesOfPairs ps) →
    ∀ {c : Char}, isEnd c = true → ∀ rest : List Char,
    bare (behind [',', ' '] (Expr.pairTexts ps) ++ c :: rest) =
      Expr.tokensOfPairsBehind ps ++ bare (c :: rest)
  | [], _, c, _, rest => rfl
  | (k, v) :: ps, h, c, hc, rest => by
    simp only [Expr.nodesOfPairs, Printable.append_iff] at h
    have hps := Expr.bare_pairTextsBehind ps h.2.2 hc rest
    have hv := Expr.bare_text v h.2.1 _ (v.endsBefore_behind (Expr.pairTexts ps) hc rest)
    have hk := fun rest => Expr.bare_text k h.1 (':' :: rest) (k.endsBefore_cons (by decide) rest)
    simp [Expr.pairTexts, Expr.tokensOfPairsBehind, hk, hv, hps]

theorem Expr.bare_optionText : ∀ e : Option Expr, Printable (Expr.nodesOfOption e) →
    ∀ {c : Char}, isEnd c = true → ∀ rest : List Char,
    bare ((Expr.optionText e).toList ++ c :: rest) = Expr.tokensOfOption e ++ bare (c :: rest)
  | none, _, c, _, rest => by simp [Expr.optionText, Expr.tokensOfOption]
  | some e, h, c, hc, rest => Expr.bare_text e h (c :: rest) (e.endsBefore_cons hc rest)

theorem Block.bare_alternativeText : ∀ b : Option Block, Printable (Block.nodesOfOption b) →
    ∀ rest : List Char,
    bare ((Block.alternativeText b).toList ++ rest) = Block.tokensOfOption b ++ bare rest
  | none, _, rest => by simp [Block.alternativeText, Block.tokensOfOption]
  | some b, h, rest => by
    have hb := Block.bare_text b h rest
    simp [Block.alternativeText, Block.tokensOfOption, hb]

theorem Block.bare_text : ∀ b : Block, Printable b.nodes → ∀ rest : List Char,
    bare (b.text.toList ++ rest) = b.tokens ++ bare rest
  | .mk _ [], _, rest => by simp [Block.text, Stmt.texts, braced, Block.tokens, Stmt.tokensOfAll]
  | .mk _ (s :: ss), h, rest => by
    simp only [Block.nodes, Stmt.nodesOfAll, Printable.append_iff] at h
    have hss := Stmt.bare_texts ss h.2 (c := ' ') (by decide)
    have hs := Stmt.bare_text s h.1
    simp [Block.text, Stmt.texts, braced, intercalate_texts, Block.tokens, Stmt.tokensOfAll, hs,
      hss]

theorem Stmt.bare_text : ∀ s : Stmt, Printable s.nodes → ∀ rest : List Char,
    bare (s.text.toList ++ rest) = s.tokens ++ bare rest
  | .expr _ _ e, h, rest => by
    simp only [Stmt.nodes, Printable.cons_iff] at h
    have he := Expr.bare_text e h.2 (';' :: rest) (e.endsBefore_cons (by decide) rest)
    simp [Stmt.text, Stmt.tokens, he]
  | .declare _ isConst name e, h, rest => by
    simp only [Stmt.nodes, Printable.cons_iff] at h
    have hname := fun rest => bare_word h.1.1.1 (stops_cons (c := ' ') (by decide) rest)
    have he := Expr.bare_text e h.2 (';' :: rest) (e.endsBefore_cons (by decide) rest)
    cases isConst <;> simp [Stmt.text, Stmt.tokens, declareWord, hname, he]
  | .return _ none, _, rest => by simp [Stmt.text, Stmt.tokens, Expr.tokensOfOption]
  | .return _ (some e), h, rest => by
    simp only [Stmt.nodes, Expr.nodesOfOption, Printable.cons_iff] at h
    have he := Expr.bare_text e h.2 (';' :: rest) (e.endsBefore_cons (by decide) rest)
    simp [Stmt.text, Stmt.tokens, Expr.tokensOfOption, he]
  | .while _ c b, h, rest => by
    simp only [Stmt.nodes, Printable.cons_iff, Printable.append_iff] at h
    have hc := Expr.bare_optionText c h.2.1 (c := ')') (by decide)
    have hb := Block.bare_text b h.2.2
    simp [Stmt.text, Stmt.tokens, hb, hc]
  | .for _ i c u b, h, rest => by
    simp only [Stmt.nodes, Printable.cons_iff, Printable.append_iff] at h
    have hi := Stmt.bare_initText i h.2.1
    have hc := Expr.bare_optionText c h.2.2.1 (c := ';') (by decide)
    have hu := Expr.bare_optionText u h.2.2.2.1 (c := ')') (by decide)
    have hb := Block.bare_text b h.2.2.2.2
    simp [Stmt.text, Stmt.tokens, hi, hc, hu, hb]
  | .func _ name params body, h, rest => by
    simp only [Stmt.nodes, Printable.cons_iff] at h
    have hbody := Block.bare_text body h.2 rest
    have hparams := bare_params h.1.1.2 (' ' :: (body.text.toList ++ rest))
    have hname := fun rest => bare_word h.1.1.1.1 (stops_cons (c := '(') (by decide) rest)
    simp only [parenthesized, paramTokens] at hparams
    simpa [Stmt.text, Stmt.tokens, parenthesized, paramTokens, hname, hbody] using hparams

/-- Statements with a blank before each. -/
theorem Stmt.bare_texts : ∀ ss : List Stmt, Printable (Stmt.nodesOfAll ss) → ∀ {c : Char},
    isBlank c = true → ∀ rest : List Char,
    bare (behind [c] (Stmt.texts ss) ++ rest) = Stmt.tokensOfAll ss ++ bare rest
  | [], _, c, _, rest => rfl
  | s :: ss, h, c, hc, rest => by
    simp only [Stmt.nodesOfAll, Printable.append_iff] at h
    have hss := Stmt.bare_texts ss h.2 hc rest
    have hs := Stmt.bare_text s h.1
    simp [Stmt.texts, Stmt.tokensOfAll, bare_blank hc, hs, hss]

theorem Stmt.bare_initText : ∀ s : Option Stmt, Printable (Stmt.nodesOfOption s) →
    ∀ rest : List Char,
    bare ((Stmt.initText s).toList ++ rest) = Stmt.tokensOfInit s ++ bare rest
  | none, _, rest => by simp [Stmt.initText, Stmt.tokensOfInit]
  | some s, h, rest => Stmt.bare_text s h rest

end

/-- The text of a program falls into the tokens of its statements. -/
theorem Program.bare_text {p : Program} (h : Printable p.nodes) :
    bare p.text.toList = p.tokens := by
  obtain ⟨ss⟩ := p
  cases ss with
  | nil => simp [Program.text, Program.tokens, Stmt.texts, Stmt.tokensOfAll, bare_nil]
  | cons s ss =>
    simp only [Program.nodes, Stmt.nodesOfAll, Printable.append_iff] at h
    have hss := Stmt.bare_texts ss h.2 (c := '\n') (by decide) []
    have hs := Stmt.bare_text s h.1
    rw [List.append_nil] at hss
    simp [Program.text, Program.tokens, Stmt.texts, intercalate_texts, Stmt.tokensOfAll, hs, hss,
      bare_nil]

end Vorn
