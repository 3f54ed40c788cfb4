import Vorn.Proofs.Grammar.Chain
import Vorn.Proofs.Grammar.Positions

/-!
# The precedence of operators

A text that consists of operands with binary operators between them, and of a semicolon, is accepted
and has the tree that its operators say: it is split at the rightmost operator of the lowest level,
and so on on both sides, and a prefix operator applies to its own operand only
(`Chain.parse_source`). The words of the text stand apart from each other by one space or more.
-/

namespace Vorn

/-! ## Spaced words -/

/-- The words with spaces between them. Behind the word of index `i` stand `gap i` spaces, and one
more if another word follows. -/
def spaced (gap : Nat → Nat) : List String → List Char
  | [] => []
  | [w] => w.toList ++ List.replicate (gap 0) ' '
  | w :: ws => w.toList ++ ' ' :: (List.replicate (gap 0) ' ' ++ spaced (fun i => gap (i + 1)) ws)

namespace Scan

/-- No character of a word or an operator starts the input. -/
structure Apart (input : List Char) : Prop where
  word : Stops isWordChar input
  operator : Stops isOperatorChar input

/-- The literal of the token is read as the token if the next character does not make it longer. -/
def Alone (t : Token) : Prop :=
  ∀ rest, Apart rest → bare (t.literal.toList ++ rest) = t :: bare rest

theorem alone_symbol {k : Kind} (hk : k ∈ Kind.symbols) : Alone (.symbol k) :=
  fun _ hrest => bare_operator hk hrest.operator

theorem alone_word {w : String} (hw : IsName w) : Alone (.word w) :=
  fun _ hrest => bare_word hw.1 hrest.word

theorem apart_cons {c : Char} (hw : isWordChar c = false) (ho : isOperatorChar c = false)
    (cs : List Char) : Apart (c :: cs) := by
  constructor <;> rintro _ ⟨⟩ <;> assumption

theorem apart_spaces (n : Nat) {rest : List Char} (h : Apart rest) :
    Apart (List.replicate n ' ' ++ rest) := by
  cases n with
  | zero => simpa using h
  | succ n => exact apart_cons (by decide) (by decide) _

theorem bare_spaces (n : Nat) (rest : List Char) :
    bare (List.replicate n ' ' ++ rest) = bare rest := by
  induction n with
  | zero => simp
  | succ n ih =>
    rw [List.replicate_succ, List.cons_append, bare_blank (by decide), ih]

theorem bare_spaced {rest : List Char} (hrest : Apart rest) : ∀ {ts : List Token}
    (gap : Nat → Nat), (∀ t ∈ ts, Alone t) →
      bare (spaced gap (ts.map Token.literal) ++ rest) = ts ++ bare rest
  | [], _, _ => rfl
  | [t], gap, h => by
    simp only [List.map_cons, List.map_nil, spaced, List.append_assoc]
    rw [h t (by simp) _ (apart_spaces _ hrest), bare_spaces]
    rfl
  | t :: t' :: ts, gap, h => by
    have hts := bare_spaced hrest (fun i => gap (i + 1)) fun u hu => h u (List.mem_cons_of_mem t hu)
    have hspace : Apart (' ' :: (List.replicate (gap 0) ' ' ++
        (spaced (fun i => gap (i + 1)) ((t' :: ts).map Token.literal) ++ rest))) :=
      apart_cons (by decide) (by decide) _
    rw [List.map_cons, spaced, List.append_assoc, List.cons_append, List.append_assoc,
      h t (by simp) _ hspace, bare_blank (by decide), bare_spaces, hts]
    · rfl
    · simp

end Scan

/-! ## The text of a chain -/

namespace Operand

def words (o : Operand) : List String := o.prefixes.map UnaryOp.text ++ [o.name]

theorem map_literal_tokens (o : Operand) : o.tokens.map Token.literal = o.words := by
  simp [tokens, words, Token.symbol, Function.comp_def, UnaryOp.text_kind]

theorem alone_of_mem_tokens (o : Operand) {t : Token} (h : t ∈ o.tokens) : Scan.Alone t := by
  rcases List.mem_append.mp h with h | h
  · obtain ⟨op, -, rfl⟩ := List.mem_map.mp h
    exact Scan.alone_symbol op.kind_mem_symbols
  · obtain rfl := List.mem_singleton.mp h
    exact Scan.alone_word o.isName

end Operand

namespace Chain

def words (c : Chain) : List String :=
  c.first.words ++ c.links.flatMap fun k => k.op.text :: k.operand.words

theorem map_literal_tokens (c : Chain) : c.tokens.map Token.literal = c.words := by
  simp [tokens, linkTokens, words, List.map_flatMap, Operand.map_literal_tokens, Token.symbol,
    BinaryOp.text_kind]

theorem alone_of_mem_tokens (c : Chain) : ∀ t ∈ c.tokens, Scan.Alone t := by
  intro t h
  rcases List.mem_append.mp h with h | h
  · exact c.first.alone_of_mem_tokens h
  · obtain ⟨k, -, h⟩ := List.mem_flatMap.mp h
    rcases List.mem_cons.mp h with rfl | h
    · exact Scan.alone_symbol k.op.kind_mem_symbols
    · exact k.operand.alone_of_mem_tokens h

/-- A text of the chain: its words, apart from each other, and a semicolon. -/
def source (c : Chain) (gap : Nat → Nat) : String := .ofList (spaced gap c.words ++ [';'])

example (ha : IsName "a") (hb : IsName "b") (hc : IsName "c") :
    source ⟨⟨[], "a", ha⟩, [⟨.sub, ⟨[.not, .negate], "b", hb⟩⟩, ⟨.shiftLeft, ⟨[], "c", hc⟩⟩]⟩
      (fun i => if i = 2 then 3 else 0) = "a - !    - b << c;" := by cbv

theorem bare_source (c : Chain) (gap : Nat → Nat) :
    Scan.bare (c.source gap).toList = c.tokens ++ [.symbol .semicolon, .last] := by
  have hsemicolon : Scan.bare [';'] = [.symbol .semicolon, .last] := by
    rw [← Scan.bare_nil]
    exact Scan.bare_mark (k := .semicolon) (by decide) []
  have hapart : Scan.Apart [';'] := Scan.apart_cons (by decide) (by decide) []
  rw [source, String.toList_ofList, ← c.map_literal_tokens,
    Scan.bare_spaced hapart gap c.alone_of_mem_tokens, hsemicolon]

/-- **Precedence.** However long the chain and wherever its spaces, the text is read without an
error as one expression statement with the tree of the chain. -/
theorem parse_source (c : Chain) (gap : Nat → Nat) :
    ∃ p, parse (c.source gap) = (p, []) ∧
      p.mark (.moved fun _ => .start) = ⟨[.expr .start (c.words.headD "") c.tree]⟩ := by
  have hhead : (c.tokens.headD .last).literal = c.words.headD "" := by
    rw [← c.map_literal_tokens]
    cases c.tokens <;> rfl
  rw [← hhead]
  exact parse_of_bare (c.bare_source gap) c.run_tokens

end Chain

end Vorn
