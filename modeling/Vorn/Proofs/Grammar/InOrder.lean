import Vorn.Grammar.Parse
import Vorn.Proofs.Grammar.Locality
import Vorn.Proofs.Grammar.Triple

/-!
# Errors go forward

A reader reports at the current token or at the one behind it, and after a misfit the reading goes
on from wherever it stands. `Reported ts es us` says that the errors `es`, latest first, were
reported while the tokens `ts` were gone through, each at one of them and none at a token before an
earlier one; `us` are the tokens from the last one that was reported on. A reader may report at the
current token as long as none behind it has been reported (`ReaderState.UpTo`).

`Reader.OrderlyAt ts s p r Q` says of the run of `r` from `s`: if nothing behind `p` has been
reported before, then nothing behind `Q a` has been reported when it gives the result `a`, and
nothing behind the next token when it fails. The rules below take a reader apart along its steps.
-/

namespace Vorn

/-- The misfit is one of the token `t`: it names the kind or the text of the token, or what the
token is not. -/
def Misfit.Concerns (t : Token) : Misfit → Prop
  | .expected want got => got = t.kind ∧ want ≠ t.kind
  | .unexpected shown => shown = Parse.shown t
  | .notInteger written => t.kind = .int ∧ written = t.literal
  | .notName _ => t.kind ≠ .ident

/-- The errors were reported one after the other on the way through the tokens, and the second list
is what is left from the last reported token on. -/
inductive Reported (ts : List Token) : List ParseError → List Token → Prop
  | start : Reported ts [] ts
  | grammar {es us t vs m} (h : Reported ts es us) (hleft : t :: vs <:+ us) (hm : m.Concerns t) :
    Reported ts (.grammar t.pos m :: es) (t :: vs)
  | name {es us e} (h : Reported ts es us) (he : e.isGrammar = false) : Reported ts (e :: es) us

theorem Reported.names {ts us : List Token} {es new : List ParseError} (h : Reported ts es us)
    (hnew : Clean new) : Reported ts (new.reverse ++ es) us := by
  induction new generalizing es with
  | nil => exact h
  | cons e new ih =>
    obtain ⟨he, hnew⟩ := List.forall_mem_cons.mp hnew
    rw [List.reverse_cons, List.append_assoc]
    exact ih (h.name he) hnew

/-- How far errors have been reported: up to the current token, or up to the one behind it. -/
inductive ReaderState.Reach where
  | current
  | next

/-- The tokens from the reach on. -/
def Stream.from (s : Stream) : ReaderState.Reach → List Token
  | .current => s.left
  | .next => s.advance.left

/-- No token behind the reach has been reported. -/
def ReaderState.UpTo (ts : List Token) (p : ReaderState.Reach) (s : ReaderState) : Prop :=
  ∃ us, Reported ts s.errors us ∧ s.stream.from p <:+ us

namespace ReaderState.UpTo

variable {ts : List Token} {p : ReaderState.Reach} {s : ReaderState}

/-- What is true of the current token is true of the next one. -/
theorem next (h : s.UpTo ts p) : s.UpTo ts .next := by
  obtain ⟨us, hreported, hfrom⟩ := h
  cases p with
  | current => exact ⟨us, hreported, s.stream.advance_left_suffix.trans hfrom⟩
  | next => exact ⟨us, hreported, hfrom⟩

/-- Behind the token that was next, nothing has been reported. -/
theorem advance (h : s.UpTo ts p) :
    ReaderState.UpTo ts .current { s with stream := s.stream.advance } :=
  h.next

/-- The run up to a semicolon stays where it is, or it moves behind what was reported. -/
theorem toSemicolon (h : s.UpTo ts p) : ReaderState.UpTo ts p
    { s with stream := .toSemicolon s.stream.current s.stream.rest } := by
  obtain ⟨us, hreported, hfrom⟩ := h
  refine ⟨us, hreported, .trans ?_ hfrom⟩
  obtain ⟨⟨current, rest⟩, es⟩ := s
  cases p with
  | current => exact Stream.toSemicolon_left_suffix current rest
  | next =>
    cases rest with
    | nil => exact List.suffix_rfl
    | cons t rest =>
      dsimp only
      rw [Stream.toSemicolon]
      split
      · exact List.suffix_rfl
      · exact (Stream.advance_left_suffix _).trans (Stream.toSemicolon_left_suffix t rest)

theorem fail (h : s.UpTo ts .current) {m : Misfit} (hm : m.Concerns s.stream.current) :
    ReaderState.UpTo ts .current { s with errors := .grammar s.stream.current.pos m :: s.errors } := by
  obtain ⟨us, hreported, hfrom⟩ := h
  exact ⟨_, hreported.grammar hfrom hm, List.suffix_rfl⟩

theorem failNext (h : s.UpTo ts p) {m : Misfit} (hm : m.Concerns s.stream.peek) :
    ReaderState.UpTo ts .next { s with errors := .grammar s.stream.peek.pos m :: s.errors } := by
  obtain ⟨us, hreported, hfrom⟩ := h.next
  rw [← s.stream.current_advance] at hm ⊢
  exact ⟨_, hreported.grammar hfrom hm, List.suffix_rfl⟩

theorem names (h : s.UpTo ts p) {new : List ParseError} (hnew : Clean new) :
    ReaderState.UpTo ts p { s with errors := new.reverse ++ s.errors } := by
  obtain ⟨us, hreported, hfrom⟩ := h
  exact ⟨us, hreported.names hnew, hfrom⟩

end ReaderState.UpTo

namespace Reader

section

variable (ts : List Token) {α : Type}

/-- What is said of one run, see above. -/
def OrderlyAt (s : ReaderState) (p : ReaderState.Reach) (r : Reader α)
    (Q : α → ReaderState.Reach) : Prop :=
  s.UpTo ts p →
    match r s with
    | .ok a s₁ => s₁.UpTo ts (Q a)
    | .error .misfit s₁ => s₁.UpTo ts .next
    | .error .outOfFuel _ => True

/-- The same of all runs. -/
def Orderly (p : ReaderState.Reach) (r : Reader α) (Q : α → ReaderState.Reach) : Prop :=
  ∀ s, OrderlyAt ts s p r Q

end

namespace OrderlyAt

variable {ts : List Token} {α β : Type} {s : ReaderState} {p : ReaderState.Reach} {r r' : Reader α}
  {f : α → Reader β} {Q : α → ReaderState.Reach} {R : β → ReaderState.Reach}

theorem bind (hr : OrderlyAt ts s p r Q) (hf : ∀ a, Orderly ts (Q a) (f a) R) :
    OrderlyAt ts s p (r >>= f) R := by
  intro hs
  have h := hr hs
  rw [run_bind]
  cases hrun : r s with
  | ok a s₁ =>
    rw [hrun] at h
    exact hf a s₁ h
  | error failure s₁ =>
    rw [hrun] at h
    cases failure <;> exact h

/-- A reader that only looks at the state and goes on with `a`. -/
theorem look {a : α} (hrun : r s = .ok a s) (hf : OrderlyAt ts s p (f a) R) :
    OrderlyAt ts s p (r >>= f) R := by
  unfold OrderlyAt
  rw [run_bind_ok hrun]
  exact hf

theorem pure {a : α} (h : p = Q a) : OrderlyAt ts s p (Pure.pure a) Q := by
  subst h
  exact id

theorem pure_next {a : α} : OrderlyAt ts s p (Pure.pure a) fun _ => .next :=
  ReaderState.UpTo.next

theorem outOfFuel : OrderlyAt ts s p (throw .outOfFuel : Reader α) Q := fun _ => trivial

theorem ite {c : Prop} [Decidable c] (ht : c → OrderlyAt ts s p r Q)
    (he : ¬ c → OrderlyAt ts s p r' Q) : OrderlyAt ts s p (if c then r else r') Q := by
  split
  · exact ht ‹_›
  · exact he ‹_›

/-! ## Single steps -/

theorem current_bind {f : Token → Reader β} (hf : OrderlyAt ts s p (f s.stream.current) R) :
    OrderlyAt ts s p (Reader.current >>= f) R :=
  look (run_current s) hf

theorem peek_bind {f : Token → Reader β} (hf : OrderlyAt ts s p (f s.stream.peek) R) :
    OrderlyAt ts s p (Reader.peek >>= f) R :=
  look (run_peek s) hf

theorem currentIs_bind {k : Kind} {f : Bool → Reader β}
    (hf : OrderlyAt ts s p (f (s.stream.current.kind = k)) R) :
    OrderlyAt ts s p (Reader.currentIs k >>= f) R :=
  look (run_currentIs s k) hf

theorem peekIs_bind {k : Kind} {f : Bool → Reader β}
    (hf : OrderlyAt ts s p (f (s.stream.peek.kind = k)) R) :
    OrderlyAt ts s p (Reader.peekIs k >>= f) R :=
  look (run_peekIs s k) hf

theorem advance : OrderlyAt ts s p Reader.advance fun _ => .current := ReaderState.UpTo.advance

theorem fail {m : Misfit} (hm : m.Concerns s.stream.current) :
    OrderlyAt ts s .current (Reader.fail s.stream.current.pos m : Reader α) Q :=
  fun hs => (hs.fail hm).next

theorem expectPeek (k : Kind) : OrderlyAt ts s p (Reader.expectPeek k) fun _ => .current := by
  refine peek_bind (ite (fun _ => advance) fun hk hs => ?_)
  exact hs.failNext ⟨rfl, Ne.symm hk⟩

theorem skipPeek_bind {k : Kind} {f : Bool → Reader β} (ht : Orderly ts .current (f true) R)
    (hf : Orderly ts p (f false) R) : OrderlyAt ts s p (Reader.skipPeek k >>= f) R := by
  have hskip : OrderlyAt ts s p (Reader.skipPeek k) fun found => if found then .current else p :=
    peekIs_bind (ite (fun _ => advance.bind fun _ _ => pure rfl) fun _ => pure rfl)
  refine hskip.bind fun found => ?_
  cases found with
  | true => exact ht
  | false => exact hf

theorem skipToSemicolon : OrderlyAt ts s p Reader.skipToSemicolon fun _ => p :=
  ReaderState.UpTo.toSemicolon

/-- Errors about names count for nothing. -/
theorem report {errors : List ParseError} (h : Clean errors) :
    OrderlyAt ts s p (Reader.report errors) fun _ => p :=
  fun hs => hs.names h

theorem reportCurrent {m : Misfit} (hm : m.Concerns s.stream.current) :
    OrderlyAt ts s .current (Reader.report [.grammar s.stream.current.pos m]) fun _ => .current :=
  fun hs => hs.fail hm

/-- If the attempt fails, the next token may have been reported on. -/
theorem attempt (hr : OrderlyAt ts s p r Q) :
    OrderlyAt ts s p (Reader.attempt r) fun o => o.elim .next Q := by
  intro hs
  have h := hr hs
  rw [run_attempt]
  revert h
  cases r s with
  | ok a s₁ => exact id
  | error failure s₁ => cases failure <;> exact id

theorem require {o : Option α} (h : o.isSome = true → p = .current) :
    OrderlyAt ts s p (Reader.require o) fun _ => .current := by
  cases o with
  | some a => exact pure (h rfl)
  | none => exact ReaderState.UpTo.next

/-- What an attempt gave is required where it ended. -/
theorem require_attempted {o : Option α} : OrderlyAt ts s (o.elim .next fun _ => .current)
    (Reader.require o) fun _ => .current := by
  refine require fun ho => ?_
  obtain ⟨a, rfl⟩ := Option.isSome_iff_exists.mp ho
  rfl

end OrderlyAt

end Reader

/-! ## Errors about names -/

theorem Frames.clean_checkTarget (fs : Frames) (target : Option (Pos × String)) :
    Clean (Frames.checkTarget fs target) := by
  unfold Frames.checkTarget
  split
  · split <;> simp [Clean, ParseError.isGrammar]
  · exact clean_nil

theorem Frames.clean_check (own : Frame) (outer : Frames) (s : Stmt) :
    Clean (Frames.check own outer s) := by
  refine clean_append.mpr ⟨Frames.clean_checkTarget _ _, ?_⟩
  unfold Frame.checkFresh
  split
  · split <;> simp [Clean, ParseError.isGrammar]
  · exact clean_nil

namespace Parse

open Reader (OrderlyAt Orderly)
open Reader.OrderlyAt

variable {ts : List Token} {n : Nat} {s : ReaderState}

/-! ## Forms without expressions inside -/

theorem orderly_moreParams : ∀ n, Orderly ts .current (moreParams n) fun _ => .current
  | 0, _ => outOfFuel
  | n + 1, s => by
    rw [moreParams]
    refine skipPeek_bind (fun s₁ => ?_) fun s₁ => ?_
    · refine (expectPeek .ident).bind fun _ s₂ => current_bind ?_
      exact (orderly_moreParams n s₂).bind fun xs s₃ => pure rfl
    · exact (expectPeek .rparen).bind fun _ s₂ => pure rfl

theorem orderly_params (n : Nat) : Orderly ts .current (params n) fun _ => .current := by
  intro s
  rw [params]
  refine skipPeek_bind (fun s₁ => pure rfl) fun s₁ => ?_
  refine (expectPeek .ident).bind fun _ s₂ => current_bind ?_
  exact (orderly_moreParams n s₂).bind fun xs s₃ => pure rfl

theorem orderly_integer (hk : s.stream.current.kind = .int) :
    OrderlyAt ts s .current (integer s.stream.current) fun _ => .current := by
  unfold integer
  split
  · exact pure rfl
  · exact fail ⟨hk, rfl⟩

theorem orderly_stepBefore (t : Token) (op : StepOp) :
    OrderlyAt ts s .current (stepBefore t op) fun _ => .current :=
  advance.bind fun _ _ => current_bind (ite (fun _ => pure rfl) fun hk => fail hk)

theorem orderly_stepBehind (op : StepOp) (left : Expr) (hk : s.stream.current.kind ≠ .ident) :
    OrderlyAt ts s .current (stepBehind s.stream.current op left) fun _ => .current := by
  unfold stepBehind
  split
  · exact pure rfl
  · exact fail hk

/-! ## The grammar -/

theorem orderly_listed {fs : Frames} {own : Frame} {one : Reader (Option Stmt)}
    {rest : Frame → Reader (List Stmt)} (hone : OrderlyAt ts s .current one fun _ => .next)
    (hrest : ∀ own, Orderly ts .current (rest own) fun _ => .current) :
    OrderlyAt ts s .current (listed fs own one rest) fun _ => .current := by
  refine (attempt hone).bind fun o s₁ => ?_
  rcases o with _ | _ | x
  · exact advance.bind fun _ => hrest own
  · exact advance.bind fun _ => hrest own
  · refine (report (Frames.clean_check own fs x)).bind fun _ s₂ => advance.bind fun _ s₃ => ?_
    exact (hrest _ s₃).bind fun ss s₄ => pure rfl

/-- Every function of the grammar with the fuel `n`. -/
structure InOrder (ts : List Token) (n : Nat) : Prop where
  expression : ∀ fs level, Orderly ts .current (expression n fs level) fun _ => .current
  extend : ∀ fs level left, Orderly ts .current (extend n fs level left) fun _ => .current
  continuation : ∀ fs left, Orderly ts .current (continuation n fs left) fun _ => .current
  operand : ∀ fs, Orderly ts .current (operand n fs) fun _ => .current
  unaryOperand : ∀ fs, Orderly ts .current (unaryOperand n fs) fun _ => .current
  nameOrAssign : ∀ fs t, Orderly ts .current (nameOrAssign n fs t) fun _ => .current
  items : ∀ fs close, Orderly ts .current (items n fs close) fun _ => .current
  moreItems : ∀ fs close, Orderly ts .current (moreItems n fs close) fun _ => .current
  pairs : ∀ fs, Orderly ts .current (pairs n fs) fun _ => .current
  conditional : ∀ fs, Orderly ts .current (conditional n fs) fun _ => .current
  alternative : ∀ fs, Orderly ts .current (alternative n fs) fun _ => .current
  block : ∀ fs ps, Orderly ts .current (block n fs ps) fun _ => .current
  blockStatements : ∀ fs own, Orderly ts .current (blockStatements n fs own) fun _ => .current
  statement : ∀ fs, Orderly ts .current (statement n fs) fun _ => .next
  declaration : ∀ fs isConst, Orderly ts .current (declaration n fs isConst) fun _ => .current
  returnStatement : ∀ fs, Orderly ts .current (returnStatement n fs) fun _ => .next
  expressionStatement : ∀ fs, Orderly ts .current (expressionStatement n fs) fun _ => .current
  functionStatement : ∀ fs, Orderly ts .current (functionStatement n fs) fun _ => .current
  whileStatement : ∀ fs, Orderly ts .current (whileStatement n fs) fun _ => .current
  forStatement : ∀ fs, Orderly ts .current (forStatement n fs) fun _ => .current
  forInit : ∀ fs, Orderly ts .current (forInit n fs) fun _ => .current
  forCondition : ∀ fs, Orderly ts .current (forCondition n fs) fun _ => .current
  forUpdate : ∀ fs, Orderly ts .current (forUpdate n fs) fun _ => .current

theorem inOrder_zero : InOrder ts 0 := by
  constructor <;> intros <;> exact fun _ => outOfFuel

namespace InOrder

variable (ih : InOrder ts n) (fs : Frames)

include ih

theorem expression_succ (level : Nat) :
    Orderly ts .current (Parse.expression (n + 1) fs level) fun _ => .current := by
  intro s
  rw [Parse.expression]
  exact (ih.operand fs s).bind fun left => ih.extend fs level left

theorem extend_succ (level : Nat) (left : Expr) :
    Orderly ts .current (Parse.extend (n + 1) fs level left) fun _ => .current := by
  intro s
  rw [Parse.extend]
  refine peek_bind (ite (fun _ => ?_) fun _ => pure rfl)
  refine advance.bind fun _ s₁ => (ih.continuation fs left s₁).bind fun x => ?_
  exact ih.extend fs level x

theorem continuation_succ (left : Expr) :
    Orderly ts .current (Parse.continuation (n + 1) fs left) fun _ => .current := by
  intro s
  rw [Parse.continuation]
  refine current_bind ?_
  split
  · exact (ih.items fs .rparen s).bind fun es s₁ => pure rfl
  · refine advance.bind fun _ s₁ => (ih.expression fs _ s₁).bind fun key s₂ => ?_
    exact (expectPeek .rbracket).bind fun _ s₃ => pure rfl
  · refine (expectPeek .ident).bind fun _ s₁ => current_bind ?_
    refine skipPeek_bind (fun s₂ => current_bind ?_) fun s₂ => pure rfl
    exact (ih.items fs .rparen s₂).bind fun es s₃ => pure rfl
  · rename_i hk
    exact orderly_stepBehind .increment left (by rw [hk]; decide)
  · rename_i hk
    exact orderly_stepBehind .decrement left (by rw [hk]; decide)
  · split
    · exact advance.bind fun _ s₁ => (ih.expression fs _ s₁).bind fun x s₂ => pure rfl
    · exact fail rfl

theorem operand_succ : Orderly ts .current (Parse.operand (n + 1) fs) fun _ => .current := by
  intro s
  rw [Parse.operand]
  refine current_bind ?_
  have hunary (op : UnaryOp) : OrderlyAt ts s .current
      (do return Expr.unary s.stream.current.pos op (← Parse.unaryOperand n fs))
      fun _ => .current :=
    (ih.unaryOperand fs s).bind fun x s₁ => pure rfl
  split
  · exact ih.nameOrAssign fs _ s
  · exact orderly_integer ‹_›
  · exact pure rfl
  · exact pure rfl
  · exact pure rfl
  · exact pure rfl
  · exact pure rfl
  · exact pure rfl
  · exact pure rfl
  · exact hunary .not
  · exact hunary .negate
  · exact hunary .complement
  · exact orderly_stepBefore _ .increment
  · exact orderly_stepBefore _ .decrement
  · refine advance.bind fun _ s₁ => (attempt (ih.expression fs _ s₁)).bind fun o s₂ => ?_
    exact (expectPeek .rparen).bind fun _ s₃ => require fun _ => rfl
  · exact ih.conditional fs s
  · refine (expectPeek .lparen).bind fun _ s₁ => (orderly_params n s₁).bind fun ps s₂ => ?_
    refine (expectPeek .lbrace).bind fun _ s₃ => (ih.block fs ps s₃).bind fun b s₄ => pure rfl
  · exact (ih.items fs .rbracket s).bind fun es s₁ => pure rfl
  · exact (ih.pairs fs s).bind fun ps s₁ => pure rfl
  · exact fail rfl

theorem unaryOperand_succ :
    Orderly ts .current (Parse.unaryOperand (n + 1) fs) fun _ => .current := by
  intro s
  rw [Parse.unaryOperand]
  exact advance.bind fun _ => ih.expression fs _

theorem nameOrAssign_succ (t : Token) :
    Orderly ts .current (Parse.nameOrAssign (n + 1) fs t) fun _ => .current := by
  intro s
  rw [Parse.nameOrAssign]
  refine peek_bind ?_
  cases s.stream.peek.kind.assignment? with
  | none => exact pure rfl
  | some apply =>
    refine advance.bind fun _ s₁ => advance.bind fun _ s₂ => ?_
    exact (ih.expression fs _ s₂).bind fun value s₃ => pure rfl

theorem items_succ (close : Kind) :
    Orderly ts .current (Parse.items (n + 1) fs close) fun _ => .current := by
  intro s
  rw [Parse.items]
  refine skipPeek_bind (fun s₁ => pure rfl) fun s₁ => advance.bind fun _ s₂ => ?_
  refine (ih.expression fs _ s₂).bind fun x s₃ => ?_
  exact (ih.moreItems fs close s₃).bind fun xs s₄ => pure rfl

theorem moreItems_succ (close : Kind) :
    Orderly ts .current (Parse.moreItems (n + 1) fs close) fun _ => .current := by
  intro s
  rw [Parse.moreItems]
  refine skipPeek_bind (fun s₁ => advance.bind fun _ s₂ => ?_) fun s₁ => ?_
  · refine (ih.expression fs _ s₂).bind fun x s₃ => ?_
    exact (ih.moreItems fs close s₃).bind fun xs s₄ => pure rfl
  · exact (expectPeek close).bind fun _ s₂ => pure rfl

theorem pairs_succ : Orderly ts .current (Parse.pairs (n + 1) fs) fun _ => .current := by
  intro s
  rw [Parse.pairs]
  refine skipPeek_bind (fun s₁ => pure rfl) fun s₁ => advance.bind fun _ s₂ => ?_
  refine (ih.expression fs _ s₂).bind fun key s₃ => (expectPeek .colon).bind fun _ s₄ => ?_
  refine advance.bind fun _ s₅ => (ih.expression fs _ s₅).bind fun value s₆ => ?_
  refine peekIs_bind (ite (fun _ => ?_) fun _ => ?_)
  · exact (ih.pairs fs s₆).bind fun ps s₇ => pure rfl
  · refine (expectPeek .comma).bind fun _ s₇ => ?_
    exact (ih.pairs fs s₇).bind fun ps s₈ => pure rfl

theorem conditional_succ :
    Orderly ts .current (Parse.conditional (n + 1) fs) fun _ => .current := by
  intro s
  rw [Parse.conditional]
  refine current_bind ((expectPeek .lparen).bind fun _ s₁ => advance.bind fun _ s₂ => ?_)
  refine (attempt (ih.expression fs _ s₂)).bind fun c s₃ => (expectPeek .rparen).bind fun _ s₄ => ?_
  refine (expectPeek .lbrace).bind fun _ s₅ => (ih.block fs [] s₅).bind fun b s₆ => ?_
  refine skipPeek_bind (fun s₇ => ?_) fun s₇ => pure rfl
  exact (ih.alternative fs s₇).bind fun a s₈ => pure rfl

theorem alternative_succ :
    Orderly ts .current (Parse.alternative (n + 1) fs) fun _ => .current := by
  intro s
  rw [Parse.alternative]
  refine skipPeek_bind (fun s₁ => current_bind ?_) fun s₁ => ?_
  · exact (ih.conditional _ s₁).bind fun x s₂ => pure rfl
  · exact (expectPeek .lbrace).bind fun _ => ih.block fs []

theorem block_succ (ps : List String) :
    Orderly ts .current (Parse.block (n + 1) fs ps) fun _ => .current := by
  intro s
  rw [Parse.block]
  refine current_bind (advance.bind fun _ s₁ => (ih.blockStatements fs _ s₁).bind fun ss s₂ => ?_)
  refine currentIs_bind (ite (fun hk => current_bind ?_) fun _ => pure rfl)
  have hk : s₂.stream.current.kind = .eof := of_decide_eq_true hk
  have hend : (Misfit.expected .rbrace .eof).Concerns s₂.stream.current :=
    ⟨hk.symm, by rw [hk]; decide⟩
  exact (reportCurrent hend).bind fun _ s₃ => pure rfl

theorem blockStatements_succ (own : Frame) :
    Orderly ts .current (Parse.blockStatements (n + 1) fs own) fun _ => .current := by
  intro s
  rw [Parse.blockStatements]
  refine current_bind (ite (fun _ => pure rfl) fun _ => ?_)
  exact orderly_listed (ih.statement _ s) fun own => ih.blockStatements fs own

theorem statement_succ : Orderly ts .current (Parse.statement (n + 1) fs) fun _ => .next := by
  intro s
  rw [Parse.statement]
  refine current_bind ?_
  split
  · exact (ih.declaration fs false s).bind fun x s₁ => pure_next
  · exact (ih.declaration fs true s).bind fun x s₁ => pure_next
  · exact (ih.returnStatement fs s).bind fun x s₁ => pure_next
  · exact (ih.whileStatement fs s).bind fun x s₁ => pure_next
  · exact (ih.forStatement fs s).bind fun x s₁ => pure_next
  · exact pure_next
  · refine peekIs_bind (ite (fun _ => ?_) fun _ => ?_)
    · exact (ih.functionStatement fs s).bind fun x s₁ => pure_next
    · exact (ih.expressionStatement fs s).bind fun x s₁ => pure_next
  · exact (ih.expressionStatement fs s).bind fun x s₁ => pure_next

theorem declaration_succ (isConst : Bool) :
    Orderly ts .current (Parse.declaration (n + 1) fs isConst) fun _ => .current := by
  intro s
  rw [Parse.declaration]
  refine current_bind ((expectPeek .ident).bind fun _ s₁ => current_bind ?_)
  refine (expectPeek .assign).bind fun _ s₂ => advance.bind fun _ s₃ => ?_
  refine (attempt (ih.expression fs _ s₃)).bind fun o s₄ => skipToSemicolon.bind fun _ s₅ => ?_
  exact require_attempted.bind fun x s₆ => pure rfl

theorem returnStatement_succ :
    Orderly ts .current (Parse.returnStatement (n + 1) fs) fun _ => .next := by
  intro s
  rw [Parse.returnStatement]
  refine current_bind (skipPeek_bind (fun s₁ => pure_next) fun s₁ => peek_bind ?_)
  refine ite (fun _ => pure_next) fun _ => advance.bind fun _ s₂ => ?_
  refine (attempt (ih.expression fs _ s₂)).bind fun o s₃ => ?_
  exact skipToSemicolon.bind fun _ s₄ => pure_next

theorem expressionStatement_succ :
    Orderly ts .current (Parse.expressionStatement (n + 1) fs) fun _ => .current := by
  intro s
  rw [Parse.expressionStatement]
  refine current_bind ((attempt (ih.expression fs _ s)).bind fun o s₁ => ?_)
  refine skipPeek_bind (fun s₂ => ?_) fun s₂ => ?_
  · exact (require fun _ => rfl).bind fun x s₃ => pure rfl
  · exact require_attempted.bind fun x s₃ => pure rfl

theorem functionStatement_succ :
    Orderly ts .current (Parse.functionStatement (n + 1) fs) fun _ => .current := by
  intro s
  rw [Parse.functionStatement]
  refine current_bind (advance.bind fun _ s₁ => current_bind ?_)
  refine (expectPeek .lparen).bind fun _ s₂ => (orderly_params n s₂).bind fun ps s₃ => ?_
  exact (expectPeek .lbrace).bind fun _ s₄ => (ih.block fs ps s₄).bind fun b s₅ => pure rfl

theorem whileStatement_succ :
    Orderly ts .current (Parse.whileStatement (n + 1) fs) fun _ => .current := by
  intro s
  rw [Parse.whileStatement]
  refine current_bind ((expectPeek .lparen).bind fun _ s₁ => advance.bind fun _ s₂ => ?_)
  refine (attempt (ih.expression fs _ s₂)).bind fun c s₃ => (expectPeek .rparen).bind fun _ s₄ => ?_
  exact (expectPeek .lbrace).bind fun _ s₅ => (ih.block fs [] s₅).bind fun b s₆ => pure rfl

theorem forStatement_succ :
    Orderly ts .current (Parse.forStatement (n + 1) fs) fun _ => .current := by
  intro s
  rw [Parse.forStatement]
  refine current_bind ((expectPeek .lparen).bind fun _ s₁ => advance.bind fun _ s₂ => ?_)
  refine (ih.forInit fs s₂).bind fun init s₃ => advance.bind fun _ s₄ => ?_
  refine (ih.forCondition _ s₄).bind fun condition s₅ => advance.bind fun _ s₆ => ?_
  refine (ih.forUpdate _ s₆).bind fun update s₇ => (expectPeek .lbrace).bind fun _ s₈ => ?_
  exact (ih.block _ [] s₈).bind fun b s₉ => pure rfl

theorem forInit_succ : Orderly ts .current (Parse.forInit (n + 1) fs) fun _ => .current := by
  intro s
  rw [Parse.forInit]
  refine current_bind (ite (fun _ => pure rfl) fun _ => ?_)
  refine ite (fun _ => (ih.declaration _ _ s).bind fun init s₁ => ?_) fun _ =>
    (ih.expressionStatement _ s).bind fun init s₁ => ?_
  all_goals
    refine (report (Frames.clean_checkTarget _ _)).bind fun _ s₂ => currentIs_bind ?_
    refine ite (fun _ => pure rfl) fun _ => ?_
    exact (expectPeek .semicolon).bind fun _ s₃ => pure rfl

theorem forCondition_succ :
    Orderly ts .current (Parse.forCondition (n + 1) fs) fun _ => .current := by
  intro s
  rw [Parse.forCondition]
  refine currentIs_bind (ite (fun _ => pure rfl) fun _ => ?_)
  refine (attempt (ih.expression fs _ s)).bind fun o s₁ => ?_
  exact (expectPeek .semicolon).bind fun _ s₂ => pure rfl

theorem forUpdate_succ : Orderly ts .current (Parse.forUpdate (n + 1) fs) fun _ => .current := by
  intro s
  rw [Parse.forUpdate]
  refine currentIs_bind (ite (fun _ => pure rfl) fun _ => ?_)
  refine (attempt (ih.expression fs _ s)).bind fun o s₁ => ?_
  refine (report (Frames.clean_checkTarget _ _)).bind fun _ s₂ => ?_
  exact (expectPeek .rparen).bind fun _ s₃ => pure rfl

end InOrder

theorem inOrder : ∀ n, InOrder ts n
  | 0 => inOrder_zero
  | n + 1 =>
    have ih := inOrder n
    { expression := ih.expression_succ
      extend := ih.extend_succ
      continuation := ih.continuation_succ
      operand := ih.operand_succ
      unaryOperand := ih.unaryOperand_succ
      nameOrAssign := ih.nameOrAssign_succ
      items := ih.items_succ
      moreItems := ih.moreItems_succ
      pairs := ih.pairs_succ
      conditional := ih.conditional_succ
      alternative := ih.alternative_succ
      block := ih.block_succ
      blockStatements := ih.blockStatements_succ
      statement := ih.statement_succ
      declaration := ih.declaration_succ
      returnStatement := ih.returnStatement_succ
      expressionStatement := ih.expressionStatement_succ
      functionStatement := ih.functionStatement_succ
      whileStatement := ih.whileStatement_succ
      forStatement := ih.forStatement_succ
      forInit := ih.forInit_succ
      forCondition := ih.forCondition_succ
      forUpdate := ih.forUpdate_succ }

theorem orderly_programStatements : ∀ n own,
    Orderly ts .current (programStatements n own) fun _ => .current
  | 0, _, _ => outOfFuel
  | n + 1, own, s => by
    rw [programStatements]
    refine currentIs_bind (ite (fun _ => pure rfl) fun _ => ?_)
    exact orderly_listed ((inOrder n).statement _ s) (orderly_programStatements n)

end Parse

end Vorn
