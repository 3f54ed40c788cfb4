import Vorn.Proofs.Grammar.Linked
import Vorn.Proofs.Grammar.Run

/-!
# Linked scopes are frames

What the links lead to from the current scope is, at every moment, what the frames hold that the
functions of `Parse` hand on:

* `Follows`: a reader with linked scopes does what a reader inside given frames does, leaves the
  scopes that exist as they are, and ends with the scope current that was current;
* `FollowsIn`: the same of what is read in a scope of its own, to which statements may be added;
* `Follows.within`: a new scope is left as if it had not been there;
* `follows_call`: every function of the grammar, by induction on the fuel.
-/

namespace Vorn.Linked

/-! ## Scopes and what they show -/

section Outward

variable {o : Scope} {older newer : List Scope} {p : Nat} {link : Option Nat}

@[simp] theorem outward_none (scopes : List Scope) : outward scopes none = [] := by
  cases scopes <;> rfl

theorem outward_cons_self (h : older.length = p) :
    outward (o :: older) (some p) = o.toRegion :: outward older o.outer := by
  rw [outward, if_pos h]

/-- Scopes that are created later are not seen. -/
theorem outward_append (h : ∀ p ∈ link, p < older.length) :
    outward (newer ++ older) link = outward older link := by
  cases link with
  | none => simp
  | some p =>
    have hp := h p rfl
    induction newer with
    | nil => rfl
    | cons o newer ih =>
      have hlength : (newer ++ older).length ≠ p := by
        rw [List.length_append]
        omega
      rw [List.cons_append, outward, if_neg hlength, ih]

/-- A finished statement is added to its own scope and to no other. -/
theorem record_append (s : Stmt) (h : older.length = p) :
    record p s (newer ++ o :: older) =
      newer ++ { o with toRegion := o.toRegion.finish s } :: older := by
  induction newer with
  | nil => exact if_pos h
  | cons u newer ih =>
    have hlength : (newer ++ o :: older).length ≠ p := by
      rw [List.length_append, List.length_cons]
      omega
    rw [List.cons_append, record, if_neg hlength, ih, List.cons_append]

end Outward

namespace State

/-- The frames around what is read in the state. -/
def frames (s : State) : Frames := (outward s.scopes s.scope).frames

/-- The current scope has been created. -/
def Sound (s : State) : Prop := ∀ p ∈ s.scope, p < s.scopes.length

/-- From `s` to `t` no scope that existed has changed, and the current one is the same. -/
structure Kept (s t : State) : Prop where
  scope : t.scope = s.scope
  scopes : s.scopes <:+ t.scopes

variable {s t u : State}

theorem Kept.refl (s : State) : s.Kept s := ⟨rfl, List.suffix_refl _⟩

theorem Kept.trans (h : s.Kept t) (h' : t.Kept u) : s.Kept u :=
  ⟨h'.scope.trans h.scope, h.scopes.trans h'.scopes⟩

theorem Kept.sound (h : s.Kept t) (hs : s.Sound) : t.Sound := fun p hp =>
  Nat.lt_of_lt_of_le (hs p (h.scope ▸ hp)) h.scopes.length_le

theorem Kept.frames_eq (h : s.Kept t) (hs : s.Sound) : t.frames = s.frames := by
  obtain ⟨newer, hnewer⟩ := h.scopes
  rw [frames, frames, h.scope, ← hnewer, outward_append hs]

/-- The state stands in the scope `p`, which has the statements `own` so far, is the next one after
those of `older`, and links to `link`. -/
structure Stands (p : Nat) (older : List Scope) (link : Option Nat) (own : Region) (s : State) :
    Prop where
  scope : s.scope = some p
  length : older.length = p
  scopes : ∃ newer, s.scopes = newer ++ ⟨own, link⟩ :: older

variable {p : Nat} {older : List Scope} {link : Option Nat} {own : Region}

theorem Stands.sound (h : s.Stands p older link own) : s.Sound := by
  obtain ⟨newer, hscopes⟩ := h.scopes
  intro q hq
  rw [h.scope, Option.mem_some_iff] at hq
  subst hq
  rw [hscopes, List.length_append, List.length_cons, h.length]
  omega

theorem Stands.outward_eq (h : s.Stands p older link own) :
    outward s.scopes (some p) = own :: outward older link := by
  obtain ⟨newer, hscopes⟩ := h.scopes
  rw [hscopes, outward_append, outward_cons_self h.length]
  rintro q ⟨⟩
  rw [List.length_cons, h.length]
  omega

theorem Stands.frames_eq (h : s.Stands p older link own) :
    s.frames = own.frame :: (outward older link).frames := by
  rw [frames, h.scope, h.outward_eq, Regions.frames_cons]

theorem Stands.kept (h : s.Stands p older link own) (ht : s.Kept t) :
    t.Stands p older link own := by
  obtain ⟨newer, hscopes⟩ := h.scopes
  obtain ⟨more, hmore⟩ := ht.scopes
  exact ⟨ht.scope.trans h.scope, h.length, more ++ newer, by rw [← hmore, hscopes, List.append_assoc]⟩

theorem Stands.record (h : s.Stands p older link own) (st : Stmt) :
    Stands p older link (own.finish st) { s with scopes := Linked.record p st s.scopes } := by
  obtain ⟨newer, hscopes⟩ := h.scopes
  exact ⟨h.scope, h.length, newer, by rw [hscopes, record_append st h.length]⟩

end State

/-! ## Readers inside frames -/

variable {α β : Type}

/-- The result without the scopes. -/
def plain : EStateM.Result Failure State α → EStateM.Result Failure ReaderState α
  | .ok a s => .ok a s.toReaderState
  | .error e s => .error e s.toReaderState

/-- The state at the end, whether there is a result or not. -/
def ending : EStateM.Result Failure State α → State
  | .ok _ s => s
  | .error _ s => s

/-- `r'` does inside the frames `fs` what `r` does, changes no scope that exists, and ends in the
scope in which it starts, on every path. -/
def Follows (fs : Frames) (r : Vorn.Reader α) (r' : Reader α) : Prop :=
  ∀ s, s.Sound → s.frames = fs →
    plain (r' s) = r s.toReaderState ∧ s.Kept (ending (r' s))

theorem run_bind (r : Reader α) (k : α → Reader β) (s : State) :
    (r >>= k) s =
      match r s with
      | .ok a t => k a t
      | .error e t => .error e t := by
  simp only [bind, EStateM.bind]
  cases r s <;> rfl

namespace Follows

variable {fs : Frames} {r u : Vorn.Reader α} {r' u' : Reader α} {k : α → Vorn.Reader β}
  {k' : α → Reader β}

theorem bind (hr : Follows fs r r') (hk : ∀ a, Follows fs (k a) (k' a)) :
    Follows fs (r >>= k) (r' >>= k') := by
  intro s hs hfs
  obtain ⟨hrun, hkept⟩ := hr s hs hfs
  rw [run_bind, Reader.run_bind, ← hrun]
  cases hr' : r' s with
  | error e t => exact ⟨rfl, by rwa [hr'] at hkept⟩
  | ok a t =>
    rw [hr'] at hkept
    obtain ⟨hrest, hkept'⟩ := hk a t (hkept.sound hs) ((hkept.frames_eq hs).trans hfs)
    exact ⟨hrest, hkept.trans hkept'⟩

theorem lift (r : Vorn.Reader α) : Follows fs r (liftM r) := by
  intro s _ _
  show plain (Linked.lift r s) = _ ∧ s.Kept (ending (Linked.lift r s))
  unfold Linked.lift
  cases r s.toReaderState with
  | ok a t => exact ⟨rfl, rfl, List.suffix_refl _⟩
  | error e t => exact ⟨rfl, rfl, List.suffix_refl _⟩

theorem pure (a : α) : Follows fs (Pure.pure a) (Pure.pure a) := fun s _ _ => ⟨rfl, .refl s⟩

theorem throw (e : Failure) :
    Follows fs (MonadExcept.throw e : Vorn.Reader α) (MonadExcept.throw e) :=
  fun s _ _ => ⟨rfl, .refl s⟩

theorem ite {c : Prop} [Decidable c] (ht : Follows fs r r') (he : Follows fs u u') :
    Follows fs (if c then r else u) (if c then r' else u') := by
  split
  · exact ht
  · exact he

theorem attempt (hr : Follows fs r r') : Follows fs (Reader.attempt r) (Linked.attempt r') := by
  intro s hs hfs
  obtain ⟨hrun, hkept⟩ := hr s hs hfs
  unfold Linked.attempt
  rw [Reader.run_attempt, ← hrun]
  revert hkept
  cases r' s with
  | ok a t => exact fun hkept => ⟨rfl, hkept⟩
  | error e t => cases e <;> exact fun hkept => ⟨rfl, hkept⟩

end Follows

/-! ## Readers in a scope of their own -/

/-- `r'` does in the scope `p`, which has the statements `own` so far and stands inside the frames
`fs`, what `r` does. It ends in that scope; if it has a result then `post` holds of the statements
that the scope has at the end. No older scope is changed. -/
def FollowsIn (p : Nat) (fs : Frames) (own : Region) (r : Vorn.Reader α) (r' : Reader α)
    (post : α → Region → Prop) : Prop :=
  ∀ older link s, s.Stands p older link own → (outward older link).frames = fs →
    match r' s with
    | .ok a t => r s.toReaderState = .ok a t.toReaderState ∧
        ∃ own', post a own' ∧ t.Stands p older link own'
    | .error e t => r s.toReaderState = .error e t.toReaderState ∧
        ∃ own', t.Stands p older link own'

namespace FollowsIn

variable {p : Nat} {fs : Frames} {own : Region} {r u : Vorn.Reader α} {r' u' : Reader α}
  {k : α → Vorn.Reader β} {k' : α → Reader β} {mid post : α → Region → Prop}
  {post' : β → Region → Prop}

theorem bind (hr : FollowsIn p fs own r r' mid)
    (hk : ∀ a own', mid a own' → FollowsIn p fs own' (k a) (k' a) post') :
    FollowsIn p fs own (r >>= k) (r' >>= k') post' := by
  intro older link s hs hfs
  have hrun := hr older link s hs hfs
  rw [run_bind]
  revert hrun
  cases r' s with
  | ok a t =>
    rintro ⟨hrun, own', hmid, ht⟩
    rw [Reader.run_bind_ok hrun]
    exact hk a own' hmid older link t ht hfs
  | error e t =>
    rintro ⟨hrun, hown⟩
    exact ⟨by rw [Reader.run_bind, hrun], hown⟩

/-- What follows the frames leaves its scope as it is. -/
theorem of (hr : Follows (own.frame :: fs) r r') :
    FollowsIn p fs own r r' fun _ own' => own' = own := by
  intro older link s hs hfs
  obtain ⟨hrun, hkept⟩ := hr s hs.sound (by rw [hs.frames_eq, hfs])
  revert hrun hkept
  cases r' s with
  | ok a t => exact fun hrun hkept => ⟨hrun.symm, own, rfl, hs.kept hkept⟩
  | error e t => exact fun hrun hkept => ⟨hrun.symm, own, hs.kept hkept⟩

theorem first (hr : Follows (own.frame :: fs) r r')
    (hk : ∀ a, FollowsIn p fs own (k a) (k' a) post') :
    FollowsIn p fs own (r >>= k) (r' >>= k') post' :=
  bind (of hr) fun a _ hown => hown ▸ hk a

theorem pure {a : α} (h : post a own) : FollowsIn p fs own (Pure.pure a) (Pure.pure a) post :=
  fun _ _ _ hs _ => ⟨rfl, own, h, hs⟩

theorem ite {c : Prop} [Decidable c] (ht : FollowsIn p fs own r r' post)
    (he : FollowsIn p fs own u u' post) :
    FollowsIn p fs own (if c then r else u) (if c then r' else u') post := by
  split
  · exact ht
  · exact he

/-- A check sees the scope itself and what the frames hold. -/
theorem check {errors : Regions → List ParseError} {es : List ParseError}
    (h : ∀ rs : Regions, rs.frames = fs → errors (own :: rs) = es) :
    FollowsIn p fs own (Reader.report es) (Linked.check p errors) fun _ own' => own' = own := by
  intro older link s hs hfs
  have hcheck : Linked.check p errors s = Linked.lift (Reader.report es) s := by
    show Linked.lift (Reader.report (errors (outward s.scopes (some p)))) s = _
    rw [hs.outward_eq, h _ hfs]
  rw [hcheck]
  exact ⟨rfl, own, rfl, hs.scope, hs.length, hs.scopes⟩

theorem finish (s : Stmt) (hr : FollowsIn p fs (own.finish s) r r' post) :
    FollowsIn p fs own r (Linked.finish p s >>= fun _ => r') post :=
  fun older link _ ht hfs => hr older link _ (ht.record s) hfs

theorem append (s : Stmt) :
    FollowsIn p fs own (Reader.report (Frames.check own.frame fs s)) (Linked.append p s)
      fun _ own' => own' = own.finish s := by
  have hcheck : FollowsIn p fs own (Reader.report (Frames.check own.frame fs s))
      (Linked.check p (statementErrors s)) fun _ own' => own' = own :=
    check fun rs hrs => by rw [← hrs, Regions.check_frames, statementErrors]
  intro older link t ht hfs
  have hrun := hcheck older link t ht hfs
  rw [Linked.append, run_bind]
  revert hrun
  cases Linked.check p (statementErrors s) t with
  | ok a t' =>
    rintro ⟨hrun, _, rfl, ht'⟩
    exact ⟨hrun, _, rfl, ht'.record s⟩
  | error e t' => exact id

end FollowsIn

/-- A new scope is left as if it had not been there. -/
theorem Follows.within {fs : Frames} {params : List String} {r : Vorn.Reader α}
    {body : Nat → Reader α} (h : ∀ p, FollowsIn p fs { params } r (body p) fun _ _ => True) :
    Follows fs r (Linked.within params body) := by
  intro s _ hfs
  have hrun := h s.scopes.length s.scopes s.scope
    { s with scopes := ⟨{ params }, s.scope⟩ :: s.scopes, scope := some s.scopes.length }
    ⟨rfl, rfl, [], rfl⟩ hfs
  have hleft : ∀ {own : Region} {t : State}, t.Stands s.scopes.length s.scopes s.scope own →
      s.Kept { t with scope := s.scope } := by
    rintro own t ⟨-, -, newer, hscopes⟩
    exact ⟨rfl, hscopes ▸ (List.suffix_cons _ _).trans (List.suffix_append _ _)⟩
  unfold Linked.within
  revert hrun
  dsimp only
  cases body s.scopes.length
    { s with scopes := ⟨{ params }, s.scope⟩ :: s.scopes, scope := some s.scopes.length } with
  | ok a t =>
    rintro ⟨hrun, own, -, ht⟩
    exact ⟨hrun.symm, hleft ht⟩
  | error e t =>
    rintro ⟨hrun, own, ht⟩
    exact ⟨hrun.symm, hleft ht⟩

/-! ## The grammar -/

/-- Every function of the grammar with fuel `n`, and the parts of blocks and loops. -/
structure Agree (n : Nat) : Prop where
  call : ∀ {α : Type} (c : Parse.Call α) (fs : Frames), Follows fs (c.reader n fs) (Linked.call n c)
  blockStatements : ∀ p fs own, FollowsIn p fs own (Parse.blockStatements n fs own.frame)
    (Linked.blockStatements n p) fun _ _ => True
  forInit : ∀ p fs, FollowsIn p fs {} (Parse.forInit n fs) (Linked.forInit n p)
    fun init own => own.frame = (init.map (Frame.add {})).getD {}
  forCondition : ∀ fs, Follows fs (Parse.forCondition n fs) (Linked.forCondition n)
  forUpdate : ∀ p fs own, FollowsIn p fs own (Parse.forUpdate n (own.frame :: fs))
    (Linked.forUpdate n p) fun _ own' => own' = own

theorem follows_moreParams (n : Nat) (fs : Frames) :
    Follows fs (Parse.moreParams n) (Linked.call n .moreParams) := .lift _

theorem follows_params (n : Nat) (fs : Frames) :
    Follows fs (Parse.params n) (Linked.call n .params) := .lift _

theorem agree_zero : Agree 0 where
  call c fs := by
    cases c with
    | moreParams => exact follows_moreParams 0 fs
    | params => exact follows_params 0 fs
    | _ => exact Follows.throw .outOfFuel
  blockStatements _ _ _ _ _ _ hs _ := ⟨rfl, _, hs⟩
  forInit _ _ _ _ _ hs _ := ⟨rfl, _, hs⟩
  forCondition _ := .throw .outOfFuel
  forUpdate _ _ _ _ _ _ hs _ := ⟨rfl, _, hs⟩

/-- A statement of the scope `p` and the statements behind it. -/
theorem followsIn_listed {p : Nat} {fs : Frames} {own : Region} {one : Vorn.Reader (Option Stmt)}
    {one' : Reader (Option Stmt)} {rest : Frame → Vorn.Reader (List Stmt)}
    {rest' : Reader (List Stmt)} (hone : Follows (own.frame :: fs) one one')
    (hrest : ∀ own, FollowsIn p fs own (rest own.frame) rest' fun _ _ => True) :
    FollowsIn p fs own (Parse.listed fs own.frame one rest)
      (do
        match ← Linked.attempt one' with
        | some (some s) =>
          Linked.append p s
          Reader.advance
          return s :: (← rest')
        | _ =>
          Reader.advance
          rest') fun _ _ => True := by
  refine .first (.attempt hone) fun o => ?_
  rcases o with _ | _ | s
  · exact .first (.lift _) fun _ => hrest own
  · exact .first (.lift _) fun _ => hrest own
  · refine .bind (.append s) fun _ own' hown => ?_
    subst hown
    rw [← Region.frame_finish]
    exact .first (.lift _) fun _ => .bind (hrest _) fun ss own' _ => .pure trivial

namespace Agree

variable {n : Nat} (ih : Agree n) {fs : Frames}

include ih

theorem expr (level : Nat) (fs : Frames) :
    Follows fs (Parse.expression n fs level) (expression n level) :=
  ih.call (.expression level) fs

theorem expression_succ (level : Nat) : Follows fs (Parse.expression (n + 1) fs level)
    (expression (n + 1) level) := by
  rw [Parse.expression, expression]
  exact .bind (ih.call .operand fs) fun left => ih.call (.extend level left) fs

theorem extend_succ (level : Nat) (left : Expr) : Follows fs (Parse.extend (n + 1) fs level left)
    (extend (n + 1) level left) := by
  rw [Parse.extend, extend]
  refine .bind (.lift _) fun t => .ite (.bind (.lift _) fun _ => ?_) (.pure left)
  exact .bind (ih.call (.continuation left) fs) fun e => ih.call (.extend level e) fs

theorem continuation_succ (left : Expr) : Follows fs (Parse.continuation (n + 1) fs left)
    (continuation (n + 1) left) := by
  rw [Parse.continuation, continuation]
  refine .bind (.lift _) fun t => ?_
  cases t.kind with
  | lparen => exact .bind (ih.call (.items .rparen) fs) fun es => .pure _
  | lbracket =>
    exact .bind (.lift _) fun _ => .bind (ih.expr _ fs) fun key =>
      .bind (.lift _) fun _ => .pure _
  | dot =>
    refine .bind (.lift _) fun _ => .bind (.lift _) fun name => ?_
    refine .bind (.lift _) fun _ => .ite (.bind (.lift _) fun paren => ?_) (.pure _)
    exact .bind (ih.call (.items .rparen) fs) fun es => .pure _
  | plusPlus => exact .lift _
  | minusMinus => exact .lift _
  -- A binary operator, or a token that continues nothing.
  | _ =>
    first
    | exact .bind (.lift _) fun _ => .bind (ih.expr _ fs) fun right => .pure _
    | exact .lift _

theorem operand_succ : Follows fs (Parse.operand (n + 1) fs) (operand (n + 1)) := by
  rw [Parse.operand, operand]
  refine .bind (.lift _) fun t => ?_
  have hunary : ∀ op, Follows fs (do return Expr.unary t.pos op (← Parse.unaryOperand n fs))
      (do return Expr.unary t.pos op (← unaryOperand n)) :=
    fun op => .bind (ih.call .unaryOperand fs) fun e => .pure _
  cases t.kind with
  | ident => exact ih.call (.nameOrAssign t) fs
  | int => exact .lift _
  | float => exact .pure _
  | string => exact .pure _
  | kwTrue => exact .pure _
  | kwFalse => exact .pure _
  | kwNull => exact .pure _
  | kwBreak => exact .pure _
  | kwContinue => exact .pure _
  | bang => exact hunary .not
  | minus => exact hunary .negate
  | tilde => exact hunary .complement
  | plusPlus => exact .lift _
  | minusMinus => exact .lift _
  | lparen =>
    exact .bind (.lift _) fun _ => .bind (.attempt (ih.expr _ fs)) fun e =>
      .bind (.lift _) fun _ => .lift _
  | kwIf => exact ih.call .conditional fs
  | kwFunc =>
    refine .bind (.lift _) fun _ => .bind (.lift _) fun ps => .bind (.lift _) fun _ => ?_
    exact .bind (ih.call (.block ps) fs) fun b => .pure _
  | lbracket => exact .bind (ih.call (.items .rbracket) fs) fun es => .pure _
  | lbrace => exact .bind (ih.call .pairs fs) fun ps => .pure _
  | _ => exact .lift _

theorem unaryOperand_succ : Follows fs (Parse.unaryOperand (n + 1) fs) (unaryOperand (n + 1)) := by
  rw [Parse.unaryOperand, unaryOperand]
  exact .bind (.lift _) fun _ => ih.expr _ fs

theorem nameOrAssign_succ (name : Token) : Follows fs (Parse.nameOrAssign (n + 1) fs name)
    (nameOrAssign (n + 1) name) := by
  rw [Parse.nameOrAssign, nameOrAssign]
  refine .bind (.lift _) fun op => ?_
  cases op.kind.assignment? with
  | none => exact .pure _
  | some apply =>
    exact .bind (.lift _) fun _ => .bind (.lift _) fun _ =>
      .bind (ih.expr _ fs) fun value => .pure _

theorem items_succ (close : Kind) : Follows fs (Parse.items (n + 1) fs close)
    (items (n + 1) close) := by
  rw [Parse.items, items]
  refine .bind (.lift _) fun _ => .ite (.pure _) (.bind (.lift _) fun _ => ?_)
  exact .bind (ih.expr _ fs) fun e =>
    .bind (ih.call (.moreItems close) fs) fun es => .pure _

theorem moreItems_succ (close : Kind) : Follows fs (Parse.moreItems (n + 1) fs close)
    (moreItems (n + 1) close) := by
  rw [Parse.moreItems, moreItems]
  refine .bind (.lift _) fun _ =>
    .ite (.bind (.lift _) fun _ => ?_) (.bind (.lift _) fun _ => .pure _)
  exact .bind (ih.expr _ fs) fun e =>
    .bind (ih.call (.moreItems close) fs) fun es => .pure _

theorem pairs_succ : Follows fs (Parse.pairs (n + 1) fs) (pairs (n + 1)) := by
  rw [Parse.pairs, pairs]
  refine .bind (.lift _) fun _ => .ite (.pure _) (.bind (.lift _) fun _ => ?_)
  refine .bind (ih.expr _ fs) fun key => .bind (.lift _) fun _ => ?_
  refine .bind (.lift _) fun _ => .bind (ih.expr _ fs) fun value => ?_
  refine .bind (.lift _) fun _ => .ite ?_ (.bind (.lift _) fun _ => ?_)
  all_goals exact .bind (ih.call .pairs fs) fun ps => .pure _

theorem conditional_succ : Follows fs (Parse.conditional (n + 1) fs) (conditional (n + 1)) := by
  rw [Parse.conditional, conditional]
  refine .bind (.lift _) fun t => .bind (.lift _) fun _ => .bind (.lift _) fun _ => ?_
  refine .bind (.attempt (ih.expr _ fs)) fun c => .bind (.lift _) fun _ => ?_
  refine .bind (.lift _) fun _ => .bind (ih.call (.block []) fs) fun b => ?_
  refine .bind (.lift _) fun _ => .ite ?_ (.pure _)
  exact .bind (ih.call .alternative fs) fun a => .pure _

theorem alternative_succ : Follows fs (Parse.alternative (n + 1) fs) (alternative (n + 1)) := by
  rw [Parse.alternative, alternative]
  refine .bind (.lift _) fun _ => .ite ?_ (.bind (.lift _) fun _ => ih.call (.block []) fs)
  refine .within fun p => .first (.lift _) fun t => ?_
  refine .first (ih.call .conditional _) fun e => .finish _ (.pure trivial)

theorem block_succ (ps : List String) : Follows fs (Parse.block (n + 1) fs ps)
    (block (n + 1) ps) := by
  rw [Parse.block, block]
  refine .within fun p => .first (.lift _) fun t => ?_
  refine .first (.lift _) fun _ => .bind (ih.blockStatements p fs { params := ps }) fun ss own _ => ?_
  refine .first (.lift _) fun _ => .ite (.first (.lift _) fun u => ?_) (.pure trivial)
  exact .first (.lift _) fun _ => .pure trivial

theorem blockStatements_succ (p : Nat) (own : Region) :
    FollowsIn p fs own (Parse.blockStatements (n + 1) fs own.frame) (Linked.blockStatements (n + 1) p)
      fun _ _ => True := by
  rw [Parse.blockStatements, Linked.blockStatements]
  refine .first (.lift _) fun t => .ite (.pure trivial) ?_
  exact followsIn_listed (ih.call .statement _) (ih.blockStatements p fs)

theorem declaration_succ (isConst : Bool) : Follows fs (Parse.declaration (n + 1) fs isConst)
    (declaration (n + 1) isConst) := by
  rw [Parse.declaration, declaration]
  refine .bind (.lift _) fun t => .bind (.lift _) fun _ => .bind (.lift _) fun name => ?_
  refine .bind (.lift _) fun _ => .bind (.lift _) fun _ => ?_
  refine .bind (.attempt (ih.expr _ fs)) fun o => .bind (.lift _) fun _ => ?_
  exact .bind (.lift _) fun e => .pure _

theorem returnStatement_succ : Follows fs (Parse.returnStatement (n + 1) fs)
    (returnStatement (n + 1)) := by
  rw [Parse.returnStatement, returnStatement]
  refine .bind (.lift _) fun t => .bind (.lift _) fun _ => .ite (.pure _) (.bind (.lift _) fun u => ?_)
  refine .ite (.pure _) (.bind (.lift _) fun _ => ?_)
  exact .bind (.attempt (ih.expr _ fs)) fun o => .bind (.lift _) fun _ => .pure _

theorem expressionStatement_succ : Follows fs (Parse.expressionStatement (n + 1) fs)
    (expressionStatement (n + 1)) := by
  rw [Parse.expressionStatement, expressionStatement]
  refine .bind (.lift _) fun t => .bind (.attempt (ih.expr _ fs)) fun o => ?_
  exact .bind (.lift _) fun _ => .bind (.lift _) fun e => .pure _

theorem functionStatement_succ : Follows fs (Parse.functionStatement (n + 1) fs)
    (functionStatement (n + 1)) := by
  rw [Parse.functionStatement, functionStatement]
  refine .bind (.lift _) fun t => .bind (.lift _) fun _ => .bind (.lift _) fun name => ?_
  refine .bind (.lift _) fun _ => .bind (.lift _) fun ps => .bind (.lift _) fun _ => ?_
  exact .bind (ih.call (.block ps) fs) fun b => .pure _

theorem whileStatement_succ : Follows fs (Parse.whileStatement (n + 1) fs)
    (whileStatement (n + 1)) := by
  rw [Parse.whileStatement, whileStatement]
  refine .bind (.lift _) fun t => .bind (.lift _) fun _ => .bind (.lift _) fun _ => ?_
  refine .bind (.attempt (ih.expr _ fs)) fun c => .bind (.lift _) fun _ => ?_
  exact .bind (.lift _) fun _ => .bind (ih.call (.block []) fs) fun b => .pure _

theorem forStatement_succ : Follows fs (Parse.forStatement (n + 1) fs) (forStatement (n + 1)) := by
  rw [Parse.forStatement, forStatement]
  refine .within fun p => .first (.lift _) fun t => ?_
  refine .first (.lift _) fun _ => .first (.lift _) fun _ => ?_
  refine .bind (ih.forInit p fs) fun i own hown => ?_
  rw [← hown]
  refine .first (.lift _) fun _ => .first (ih.forCondition _) fun c => ?_
  refine .first (.lift _) fun _ => .bind (ih.forUpdate p fs own) fun u own' hown' => ?_
  subst hown'
  refine .first (.lift _) fun _ => .first (ih.call (.block []) _) fun b => .pure trivial

theorem forInit_succ (p : Nat) : FollowsIn p fs {} (Parse.forInit (n + 1) fs)
    (Linked.forInit (n + 1) p) fun init own => own.frame = (init.map (Frame.add {})).getD {} := by
  rw [Parse.forInit, Linked.forInit]
  refine .first (.lift _) fun t => .ite (.pure rfl) ?_
  -- What follows the clause is the same for a declaration and an expression.
  have hrest : ∀ s : Stmt, FollowsIn p fs {} (do
        Reader.report (Frames.checkTarget ({} :: fs) s.target?)
        unless ← Reader.currentIs .semicolon do Reader.expectPeek .semicolon
        return some s)
      (do
        Linked.check p fun rs => rs.checkTarget s.target?
        Linked.finish p s
        unless ← Reader.currentIs .semicolon do Reader.expectPeek .semicolon
        return some s) fun init own => own.frame = (init.map (Frame.add {})).getD {} := by
    intro s
    refine .bind (.check fun rs hrs => ?_) fun _ own hown => ?_
    · rw [← hrs, ← Region.frame_empty, ← Regions.frames_cons, Regions.checkTarget_frames]
    · subst hown
      refine .finish s (.first (.lift _) fun _ => .ite (.pure rfl) (.first (.lift _) fun _ => .pure rfl))
  refine .ite ?_ ?_
  · exact .first (ih.call (.declaration (t.kind = .kwConst)) ({} :: fs)) hrest
  · exact .first (ih.call .expressionStatement _) hrest

theorem forCondition_succ : Follows fs (Parse.forCondition (n + 1) fs) (Linked.forCondition (n + 1)) := by
  rw [Parse.forCondition, Linked.forCondition]
  refine .bind (.lift _) fun _ => .ite (.pure _) ?_
  exact .bind (.attempt (ih.expr _ fs)) fun o => .bind (.lift _) fun _ => .pure _

theorem forUpdate_succ (p : Nat) (own : Region) : FollowsIn p fs own
    (Parse.forUpdate (n + 1) (own.frame :: fs)) (Linked.forUpdate (n + 1) p) fun _ own' => own' = own := by
  rw [Parse.forUpdate, Linked.forUpdate]
  refine .first (.lift _) fun _ => .ite (.pure rfl) ?_
  refine .first (.attempt (ih.expr _ _)) fun o => ?_
  refine .bind (.check fun rs hrs => ?_) fun _ own' hown => ?_
  · rw [← hrs, ← Regions.frames_cons, Regions.checkTarget_frames]
  · subst hown
    exact .first (.lift _) fun _ => .pure rfl

theorem statement_succ : Follows fs (Parse.statement (n + 1) fs) (statement (n + 1)) := by
  rw [Parse.statement, statement]
  refine .bind (.lift _) fun t => ?_
  cases t.kind with
  | kwLet => exact .bind (ih.call (.declaration false) fs) fun s => .pure _
  | kwConst => exact .bind (ih.call (.declaration true) fs) fun s => .pure _
  | kwReturn => exact .bind (ih.call .returnStatement fs) fun s => .pure _
  | kwWhile => exact .bind (ih.call .whileStatement fs) fun s => .pure _
  | kwFor => exact .bind (ih.call .forStatement fs) fun s => .pure _
  | semicolon => exact .pure _
  | kwFunc =>
    exact .bind (.lift _) fun _ => .ite (.bind (ih.call .functionStatement fs) fun s => .pure _)
      (.bind (ih.call .expressionStatement fs) fun s => .pure _)
  | _ => exact .bind (ih.call .expressionStatement fs) fun s => .pure _

end Agree

theorem agree : ∀ n, Agree n
  | 0 => agree_zero
  | n + 1 =>
    have ih := agree n
    { call := fun c fs => by
        cases c with
        | moreParams => exact follows_moreParams _ fs
        | params => exact follows_params _ fs
        | expression level => exact ih.expression_succ level
        | extend level left => exact ih.extend_succ level left
        | continuation left => exact ih.continuation_succ left
        | operand => exact ih.operand_succ
        | unaryOperand => exact ih.unaryOperand_succ
        | nameOrAssign name => exact ih.nameOrAssign_succ name
        | items close => exact ih.items_succ close
        | moreItems close => exact ih.moreItems_succ close
        | pairs => exact ih.pairs_succ
        | conditional => exact ih.conditional_succ
        | alternative => exact ih.alternative_succ
        | block params => exact ih.block_succ params
        | statement => exact ih.statement_succ
        | declaration isConst => exact ih.declaration_succ isConst
        | returnStatement => exact ih.returnStatement_succ
        | expressionStatement => exact ih.expressionStatement_succ
        | functionStatement => exact ih.functionStatement_succ
        | whileStatement => exact ih.whileStatement_succ
        | forStatement => exact ih.forStatement_succ
      blockStatements := fun p _ own => ih.blockStatements_succ p own
      forInit := fun p _ => ih.forInit_succ p
      forCondition := fun _ => ih.forCondition_succ
      forUpdate := fun p _ own => ih.forUpdate_succ p own }

/-- The statements of a whole text. -/
theorem followsIn_programStatements (p : Nat) : ∀ (n : Nat) (own : Region),
    FollowsIn p [] own (Parse.programStatements n own.frame) (programStatements n p) fun _ _ => True
  | 0, _ => fun _ _ _ hs _ => ⟨rfl, _, hs⟩
  | n + 1, own => by
    rw [Parse.programStatements, programStatements]
    refine .first (.lift _) fun _ => .ite (.pure trivial) ?_
    exact followsIn_listed ((agree n).call .statement _) (followsIn_programStatements p n)

end Vorn.Linked
