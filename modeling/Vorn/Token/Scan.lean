import Vorn.Token

/-!
# From text to tokens

The source is a sequence of gaps (blanks and comments) and lexemes. `gap` splits the input behind
the gap at its head, `lexeme` splits it behind the longest lexeme at its head, and `tokens`
alternates the two. Both hand back what they consumed as well as the rest, so that no character
is lost:

* `gap_text_append`: the gap and the rest make up the input;
* `lexeme_text_append`: the lexeme and the rest make up the input.

Every lexeme has at least one character, which is why `tokens` ends.
-/

namespace Vorn.Scan

def isLetter (c : Char) : Bool := ('a' ≤ c && c ≤ 'z') || ('A' ≤ c && c ≤ 'Z') || c == '_'

def isDigit (c : Char) : Bool := '0' ≤ c && c ≤ '9'

/-- The characters of a name behind its first. -/
def isWordChar (c : Char) : Bool := isLetter c || isDigit c

def isBlank (c : Char) : Bool := c == ' ' || c == '\t' || c == '\n' || c == '\r'

/-! ## Gaps -/

/-- What stands before a lexeme. -/
inductive Gap where
  /-- Blanks and closed comments, and the input behind them. -/
  | closed (text rest : List Char)
  /-- A block comment that is never closed takes all of the input. -/
  | unclosed (text : List Char)
deriving DecidableEq, Repr

namespace Gap

/-- The same gap with more text in front. -/
def prepend (more : List Char) : Gap → Gap
  | closed text rest => closed (more ++ text) rest
  | unclosed text => unclosed (more ++ text)

def text : Gap → List Char
  | closed text _ => text
  | unclosed text => text

def rest : Gap → List Char
  | closed _ rest => rest
  | unclosed _ => []

@[simp] theorem text_prepend (more : List Char) (g : Gap) :
    (g.prepend more).text = more ++ g.text := by
  cases g <;> rfl

@[simp] theorem rest_prepend (more : List Char) (g : Gap) : (g.prepend more).rest = g.rest := by
  cases g <;> rfl

end Gap

/-- Splits behind the first `*/`. -/
def closeComment? : List Char → Option (List Char × List Char)
  | [] => none
  | '*' :: '/' :: rest => some (['*', '/'], rest)
  | c :: rest => (closeComment? rest).map fun (text, rest) => (c :: text, rest)

theorem closeComment?_append {input text rest : List Char}
    (h : closeComment? input = some (text, rest)) : text ++ rest = input := by
  fun_induction closeComment? input generalizing text rest with
  | case1 => simp at h
  | case2 r =>
    simp only [Option.some.injEq, Prod.mk.injEq] at h
    obtain ⟨rfl, rfl⟩ := h
    rfl
  | case3 c r _ ih =>
    obtain ⟨⟨t, r'⟩, hr, heq⟩ := Option.map_eq_some_iff.1 h
    simp only [Prod.mk.injEq] at heq
    obtain ⟨rfl, rfl⟩ := heq
    simp [ih hr]

/-- The blanks and comments at the head of the input. -/
def gap : List Char → Gap
  | [] => .closed [] []
  | '/' :: '/' :: cs =>
    (gap (cs.dropWhile (· != '\n'))).prepend ('/' :: '/' :: cs.takeWhile (· != '\n'))
  | '/' :: '*' :: cs =>
    match _h : closeComment? cs with
    | some (text, rest) => (gap rest).prepend ('/' :: '*' :: text)
    | none => .unclosed ('/' :: '*' :: cs)
  | c :: cs => if isBlank c then (gap cs).prepend [c] else .closed [] (c :: cs)
termination_by input => input.length
decreasing_by
  · have := (List.dropWhile_sublist (fun c : Char => c != '\n') (l := cs)).length_le
    simp_all only [List.length_cons]
    omega
  · have := congrArg List.length (closeComment?_append _h)
    simp only [List.length_append, List.length_cons] at *
    omega
  · simp

theorem gap_text_append (input : List Char) : (gap input).text ++ (gap input).rest = input := by
  fun_induction gap input with
  | case1 => rfl
  | case2 cs ih => simp [ih]
  | case3 cs text rest h ih => simp [ih, closeComment?_append h]
  | case4 cs h => simp [Gap.text, Gap.rest]
  | case5 c cs _ _ hc ih => simp [ih]
  | case6 c cs _ _ hc => simp [Gap.text, Gap.rest]

/-! ## Lexemes -/

/-- A piece of source text that makes one token, and the input behind it. -/
structure Lexeme where
  kind : Kind
  literal : String
  text : List Char
  rest : List Char
  /-- False for a string that reaches the end of the input. -/
  closed : Bool := true
deriving DecidableEq, Repr

/-- A letter and all letters and digits behind it. -/
def word (c : Char) (cs : List Char) : Lexeme :=
  let text := c :: cs.takeWhile isWordChar
  { kind := .ofWord (.ofList text), literal := .ofList text, text, rest := cs.dropWhile isWordChar }

/-- A digit and all digits behind it; if a point follows, the point and all digits behind that. -/
def number (c : Char) (cs : List Char) : Lexeme :=
  let whole := c :: cs.takeWhile isDigit
  match cs.dropWhile isDigit with
  | '.' :: rest =>
    let text := whole ++ '.' :: rest.takeWhile isDigit
    { kind := .float, literal := .ofList text, text, rest := rest.dropWhile isDigit }
  | rest => { kind := .int, literal := .ofList whole, text := whole, rest }

/-- The text up to the next quote, or to the end of the input. There are no escapes. -/
def quoted (cs : List Char) : Lexeme :=
  let body := cs.takeWhile (· != '"')
  match cs.dropWhile (· != '"') with
  | [] =>
    { kind := .string, literal := .ofList body, text := '"' :: body, rest := [], closed := false }
  | q :: rest => { kind := .string, literal := .ofList body, text := '"' :: body ++ [q], rest }

/-- The longest symbol at the head of the input. -/
def symbol? (input : List Char) : Option Kind :=
  Kind.symbols.find? fun k => k.text.toList.isPrefixOf input

/-- The longest lexeme at the head of the input `c :: cs`; a character that starts none is
illegal. -/
def lexeme (c : Char) (cs : List Char) : Lexeme :=
  if isLetter c then word c cs
  else if isDigit c then number c cs
  else if c = '"' then quoted cs
  else match symbol? (c :: cs) with
    | some k =>
      let more := k.text.length - 1
      { kind := k, literal := k.text, text := c :: cs.take more, rest := cs.drop more }
    | none => { kind := .illegal, literal := .singleton c, text := [c], rest := cs }

theorem lexeme_text_append (c : Char) (cs : List Char) :
    (lexeme c cs).text ++ (lexeme c cs).rest = c :: cs := by
  unfold lexeme
  split
  · simp [word]
  split
  · unfold number
    split <;> rename_i h
    · simp [← h]
    · simp
  split
  · unfold quoted
    split <;> rename_i h
    · have := List.takeWhile_append_dropWhile (p := fun c : Char => c != '"') (l := cs)
      simp_all
    · simp_all [← h]
  split <;> simp

theorem lexeme_text_ne_nil (c : Char) (cs : List Char) : (lexeme c cs).text ≠ [] := by
  unfold lexeme word number quoted
  split
  · simp
  split
  · split <;> simp
  split
  · split <;> simp
  split <;> simp

/-- Where the input goes on behind a lexeme at `p`. A string that is never closed counts one
column for its missing quote. -/
def Lexeme.finish (l : Lexeme) (p : Pos) : Pos :=
  let q := p.after l.text
  if l.closed then q else ⟨q.line, q.column + 1⟩

/-! ## Tokens -/

/-- The tokens of the input whose first character stands at `pos`. The last one, and only the
last, marks the end. A block comment that is never closed makes an illegal token without
literal. -/
def tokensFrom (input : List Char) (pos : Pos) : List Token :=
  match _h : gap input with
  | .unclosed text =>
    [⟨.illegal, "", pos.after text⟩, ⟨.eof, "", pos.after text⟩]
  | .closed text [] => [⟨.eof, "", pos.after text⟩]
  | .closed text (c :: cs) =>
    let l := lexeme c cs
    ⟨l.kind, l.literal, pos.after text⟩ :: tokensFrom l.rest (l.finish (pos.after text))
termination_by input.length
decreasing_by
  have hg := congrArg List.length (gap_text_append input)
  have hl := congrArg List.length (lexeme_text_append c cs)
  have hn := List.length_pos_iff.2 (lexeme_text_ne_nil c cs)
  simp only [_h, Gap.text, Gap.rest, List.length_append, List.length_cons] at hg hl
  omega

/-! ## One token at a time -/

/-- Where a reader of tokens stands: the input that is left, and the place of its first
character. -/
structure Cursor where
  input : List Char
  pos : Pos
deriving DecidableEq, Repr

/-- Before the first character of a source text. -/
def Cursor.start (source : String) : Cursor := ⟨source.toList, .start⟩

/-- The next token and where the reader stands behind it. At the end of the input it stays and
finds the end again. -/
def Cursor.next (c : Cursor) : Token × Cursor :=
  match gap c.input with
  | .unclosed text => (⟨.illegal, "", c.pos.after text⟩, ⟨[], c.pos.after text⟩)
  | .closed text [] => (⟨.eof, "", c.pos.after text⟩, ⟨[], c.pos.after text⟩)
  | .closed text (d :: ds) =>
    let l := lexeme d ds
    (⟨l.kind, l.literal, c.pos.after text⟩, ⟨l.rest, l.finish (c.pos.after text)⟩)

/-- The next `n` tokens. -/
def Cursor.read : Nat → Cursor → List Token
  | 0, _ => []
  | n + 1, c => c.next.1 :: c.next.2.read n

end Scan

/-- The tokens of a source text, through the token that marks its end. -/
def tokens (source : String) : List Token := Scan.tokensFrom source.toList .start

end Vorn
