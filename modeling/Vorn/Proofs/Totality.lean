import Vorn.Proofs.Grammar.Call
import Vorn.Proofs.Grammar.Positions
import Vorn.Proofs.Grammar.Provenance

/-!
# The grammar comes to an end

Every text is read to its end, however malformed it is, within a bound that is linear in the number
of its tokens, and a larger bound changes nothing (`parse_total`). The reason is that no form and no
loop goes round without reading a token, and that all of them stop at the end:

* `Parse.Call.spends`: a call does not go back, and calls nest only as deep as the tokens that were
  read allow;
* `Parse.Round.readsOn`: each round of a loop leaves fewer tokens.
-/

namespace Vorn

/-- The number of tokens behind the current one, through the mark of the end. -/
def Stream.behind (s : Stream) : Nat := s.rest.length

/-- The stream stands in the tokens, and the last of them marks the end. -/
def Stream.StandsIn (ts : List Token) (s : Stream) : Prop := s.Within ts s.behind

theorem Stream.standsIn_ofTokens : ∀ {ts : List Token}, EndsWithEof ts →
    (Stream.ofTokens ts).StandsIn ts
  | [], h => (h.ne_nil rfl).elim
  | _ :: _, h => Stream.within_ofTokens h

namespace Reader

variable {α β : Type} {ts : List Token} {b n w depth : Nat} {s : ReaderState} {r : Reader α}

/-- The run from `s` does not go back. It ends for lack of fuel only if, of the calls that it nests,
all but `depth` have been paid for by the tokens that were read, each of which pays for 16. -/
def Spends (n depth : Nat) (r : Reader α) (s : ReaderState) : Prop :=
  match r s with
  | .ok _ s' => s'.stream.behind ≤ s.stream.behind
  | .error .misfit s' => s'.stream.behind ≤ s.stream.behind
  | .error .outOfFuel s' =>
    s'.stream.behind ≤ s.stream.behind ∧ n ≤ 16 * (s.stream.behind - s'.stream.behind) + depth

/-- The run from `s` leaves fewer tokens, whether they fit or not, unless fuel runs out. -/
def ReadsOn (r : Reader α) (s : ReaderState) : Prop :=
  match r s with
  | .ok _ s' => s'.stream.behind < s.stream.behind
  | .error .misfit s' => s'.stream.behind < s.stream.behind
  | .error .outOfFuel _ => True

theorem SureAt.spends {Q : α → Prop}
    (h : SureAt ts s.stream.behind (n + 1) (16 * s.stream.behind + depth + 1) s r Q) :
    Spends n depth r s := by
  unfold SureAt at h
  unfold Spends Stream.behind at *
  revert h
  cases r s with
  | ok a s' => exact fun h => h.1.length_le
  | error e s' =>
    cases e with
    | misfit => exact fun h => h.length_le
    | outOfFuel =>
      rintro ⟨hs', hspent⟩
      have := hs'.length_le
      dsimp only
      omega

/-- A reader that begins with a step ahead. -/
theorem readsOn_of_step {f : α → Reader β} {s' : ReaderState} {a : α} {Q : β → Prop}
    (hrun : r s = .ok a s') (hs' : s'.stream.Within ts b) (hb : b < s.stream.behind)
    (hf : Sure ts b n w (f a) Q) : ReadsOn (r >>= f) s := by
  have hrest := hf s' hs'
  unfold SureAt at hrest
  unfold ReadsOn Stream.behind
  rw [run_bind_ok hrun]
  revert hrest
  cases f a s' with
  | ok c t => exact fun h => Nat.lt_of_le_of_lt h.1.length_le hb
  | error e t =>
    cases e with
    | misfit => exact fun h => Nat.lt_of_le_of_lt h.length_le hb
    | outOfFuel => exact fun _ => trivial

end Reader

namespace Parse

open Reader

variable {α : Type} {ts : List Token} {n : Nat} {fs : Frames} {s : ReaderState}

/-! ## Calls -/

/-- What a call reads, it reads forward, and it nests no deeper than the tokens allow. -/
theorem Call.spends (hs : s.stream.StandsIn ts) (c : Call α) (hc : c.Begins s.stream) :
    Spends n c.depth (c.reader n fs) s := by
  have ih := provisions ts n
  have hlt : ∀ {w}, w < w + 1 := Nat.lt_succ_self _
  cases c with
  | moreParams => exact (sure_moreParams hlt s hs).spends
  | params => exact (sure_params hlt s hs).spends
  | expression level => exact (ih.expression fs hc hlt s hs).spends
  | extend level left => exact (ih.extend fs hc hlt s hs).spends
  | continuation left => exact (ih.continuation fs hlt s hs).spends
  | operand => exact (ih.operand fs hlt s hs).spends
  | unaryOperand => exact (ih.unaryOperand fs (hs.pos_of_current hc) hlt s hs).spends
  | nameOrAssign name =>
    obtain ⟨rfl, hk⟩ := hc
    exact (ih.nameOrAssign fs hs.current_mem hk hlt s hs).spends
  | items close =>
    obtain ⟨hclose, hk⟩ := hc
    exact (ih.items fs hclose (hs.pos_of_current hk) hlt s hs).spends
  | moreItems close => exact (ih.moreItems fs hc hlt s hs).spends
  | pairs => exact (ih.pairs fs (hs.pos_of_current hc) hlt s hs).spends
  | conditional => exact (ih.conditional fs hlt s hs).spends
  | alternative => exact (ih.alternative fs hlt s hs).spends
  | block ps => exact (ih.block fs ps (hs.pos_of_current hc) hlt s hs).spends
  | statement => exact (ih.statement fs hlt s hs).spends
  | declaration isConst => exact (ih.declaration fs isConst hlt s hs).spends
  | returnStatement => exact (ih.returnStatement fs hlt s hs).spends
  | expressionStatement => exact (ih.expressionStatement fs hlt s hs).spends
  | functionStatement => exact (ih.functionStatement fs s hs hc hlt).spends
  | whileStatement => exact (ih.whileStatement fs hlt s hs).spends
  | forStatement => exact (ih.forStatement fs hlt s hs).spends

/-! ## Loops -/

/-- A loop of the grammar. -/
inductive Round where
  /-- Statements up to a closing brace or the end. -/
  | statement
  /-- Operators behind an operand. -/
  | operator (left : Expr)
  /-- Parameters behind a comma. -/
  | param
  /-- Items behind a comma. -/
  | item
  /-- The pairs of a hash. -/
  | pair
  /-- Tokens up to a semicolon. -/
  | skipped

namespace Round

/-- What a round of the loop reads. -/
def reader (n : Nat) (fs : Frames) : Round → Reader Unit
  | statement => do
    let _ ← attempt (Parse.statement n fs)
    advance
  | operator left => do
    advance
    let _ ← continuation n fs left
  | param => do
    expectPeek .comma
    expectPeek .ident
  | item => do
    expectPeek .comma
    advance
    let _ ← expression n fs Level.lowest
  | pair => do
    advance
    let _ ← expression n fs Level.lowest
    expectPeek .colon
    advance
    let _ ← expression n fs Level.lowest
    unless ← peekIs .rbrace do expectPeek .comma
  | skipped => advance

/-- Where the loop goes round once more. -/
def Begins (s : Stream) : Round → Prop
  | statement => s.current.kind ≠ .rbrace ∧ s.current.kind ≠ .eof
  | operator _ => Level.lowest < s.peek.kind.level
  | param => s.peek.kind = .comma
  | item => s.peek.kind = .comma
  | pair => s.current.kind ≠ .eof
  | skipped => s.current.kind ≠ .semicolon ∧ s.peek.kind ≠ .eof ∧ s.peek.kind ≠ .rbrace

/-- A step ahead that has a token to read. -/
theorem readsOn_advance {f : Unit → Reader α} (hs : s.stream.StandsIn ts)
    (hb : 0 < s.stream.behind)
    (hf : Sure ts (s.stream.behind - 1) (n + 1) (16 * s.stream.behind) (f ()) fun _ => True) :
    ReadsOn (Reader.advance >>= f) s :=
  readsOn_of_step (run_advance s) hs.advance (by omega) hf

/-- A comma that is there. -/
theorem readsOn_comma {f : Unit → Reader α} (hs : s.stream.StandsIn ts)
    (hk : s.stream.peek.kind = .comma)
    (hf : 0 < s.stream.behind - 1 →
      Sure ts (s.stream.behind - 1) (n + 1) (16 * s.stream.behind) (f ()) fun _ => True) :
    ReadsOn (Reader.expectPeek .comma >>= f) s := by
  have hb := hs.lt_of_peek (by simp [hk])
  have hrun := run_expectPeek s .comma
  rw [if_pos hk] at hrun
  exact readsOn_of_step hrun hs.advance (by omega) (hf (by omega))

/-- Each round leaves fewer tokens. -/
theorem readsOn (hs : s.stream.StandsIn ts) (round : Round) (hround : round.Begins s.stream) :
    ReadsOn (round.reader n fs) s := by
  have ih := provisions ts n
  cases round with
  | statement =>
    have hb := hs.pos_of_current hround.2
    have hone := ih.statement fs (Nat.lt_succ_self _) s hs
    -- Behind a statement that fits and behind one that does not the round takes a step ahead.
    have hstep : ∀ {s' : ReaderState}, s'.stream.Within ts s.stream.behind →
        s'.stream.advance.behind < s.stream.behind := by
      intro s' hs'
      have := hs'.advance.length_le
      unfold Stream.behind at *
      omega
    unfold SureAt at hone
    unfold ReadsOn
    rw [reader, run_bind, run_attempt]
    revert hone
    cases Parse.statement n fs s with
    | ok o s' => exact fun hone => hstep hone.1
    | error e s' =>
      cases e with
      | misfit => exact fun hone => hstep hone
      | outOfFuel => exact fun _ => trivial
  | operator left =>
    have hb : 1 < s.stream.behind := hs.lt_of_peek fun hk => by
      rw [Begins, hk] at hround
      exact absurd hround (by decide)
    refine readsOn_advance (n := n) hs (by omega) ?_
    exact .bind (ih.continuation fs (by omega)) fun _ _ => .pure trivial
  | param => exact readsOn_comma (n := n) hs hround fun _ => .expectPeek (by decide)
  | item =>
    refine readsOn_comma (n := n) hs hround fun hb => .advance_bind ?_
    exact .bind (ih.expression fs (by decide) (by omega)) fun _ _ => .pure trivial
  | pair =>
    have hb : 0 < s.stream.behind := hs.pos_of_current hround
    refine readsOn_advance (n := n) hs hb (.bind (ih.expression fs (by decide) (by omega)) fun _ _ => ?_)
    refine .expectPeek_bind (by decide) fun _ => .advance_bind ?_
    refine .bind (ih.expression fs (by decide) (by omega)) fun _ _ => ?_
    refine .peekIs_bind (fun s hs _ => ?_) (.expectPeek (by decide))
    exact Sure.pure trivial s hs
  | skipped =>
    have hb := hs.lt_of_peek hround.2.1
    have := hs.advance.length_le
    show s.stream.advance.rest.length < s.stream.behind
    omega

end Round

end Parse

/-! ## Whole texts -/

/-- **The grammar comes to an end.** For every source text, however malformed, 16 units of fuel for
each token and 16 more suffice, and any fuel that suffices gives the same tree and the same errors.
Wherever the grammar makes a call among the tokens of the text, the call does not go back and nests
only as many calls as the tokens that it reads pay for; at the end it stops within the few calls that
need no token. And wherever a loop goes round, it leaves fewer tokens. -/
theorem parse_total (source : String) :
    (∀ n, 16 * ((tokens source).length + 1) ≤ n →
      Parse.run n (tokens source) = some (parse source)) ∧
    (∀ n result, Parse.run n (tokens source) = some result → result = parse source) ∧
    (∀ n fs (s : ReaderState), s.stream.StandsIn (tokens source) →
      (∀ {α : Type} (c : Parse.Call α), c.Begins s.stream →
        Reader.Spends n c.depth (c.reader n fs) s) ∧
      ∀ round : Parse.Round, round.Begins s.stream → Reader.ReadsOn (round.reader n fs) s) := by
  have hne := tokens_ne_nil source
  have hrun := (parse_reads source).1
  refine ⟨fun n hn => Parse.run_mono hn hne hrun, fun n result hresult => ?_, fun n fs s hs => ?_⟩
  · have hmax := Parse.run_mono (Nat.le_max_left n (Parse.fuel (tokens source))) hne hresult
    rw [Parse.run_mono (Nat.le_max_right n _) hne hrun] at hmax
    exact (Option.some.inj hmax).symm
  · exact ⟨fun c hc => c.spends hs hc, fun round hround => round.readsOn hs hround⟩

/-- A text that ends in the middle of nearly every form. -/
def openText : String := "func f(a, b) \x7b let x = [1, \x7b2: (3 + if (g(-"

theorem parse_total_openText :
    Parse.run 600 (tokens openText) = some (parse openText) ∧ (parse openText).2.length = 4 ∧
      Reader.Spends 4 5 (Parse.statement 4 [{}]) { stream := .ofTokens (tokens openText) } ∧
      Reader.ReadsOn (Parse.Round.reader 600 [{}] .statement)
        { stream := .ofTokens (tokens openText) } := by
  obtain ⟨hall, honly, hparts⟩ := parse_total openText
  have hrun := hall 600 (by decide +kernel)
  have hstands := Stream.standsIn_ofTokens (endsWithEof_tokens openText)
  rw [honly 600 _ hrun] at hrun
  refine ⟨hrun, by decide +kernel, ?_, ?_⟩
  · exact (hparts 4 [{}] { stream := .ofTokens (tokens openText) } hstands).1 .statement trivial
  · refine (hparts 600 [{}] { stream := .ofTokens (tokens openText) } hstands).2 .statement ?_
    exact ⟨by decide +kernel, by decide +kernel⟩

end Vorn
