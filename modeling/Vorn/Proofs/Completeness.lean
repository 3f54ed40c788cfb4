import Vorn.Proofs.BoundNames
import Vorn.Proofs.Eval.NodeRule
import Vorn.Proofs.Grammar.Accepted
import Vorn.Proofs.Grammar.Provenance
import Vorn.Proofs.Tree.Occurrence

/-!
# Accepted means complete

Whatever a text is like, it is read to its end, and the tree that is left can be written and
described in full: names, bodies and operands are there, and a condition that could not be read is
all that may be missing. If nothing is wrong with the text, no condition is missing either, and so
no evaluation ever stops for a missing part (`parse_complete`).

The rule behind the last point (`NodeRule.decided`) asks of each node that is evaluated that it does
not lack its condition.
-/

namespace Vorn

/-! ## Trees -/

theorem Node.WellFormed.decided {n : Node} (h : n.WellFormed) : n.lacksCondition = false := by
  cases n with
  | expr e =>
    cases e with
    | cond pos condition consequence alternative =>
      cases condition with
      | none => cases h
      | some _ => rfl
    | _ => rfl
  | stmt s =>
    cases s with
    | «while» pos condition body =>
      cases condition with
      | none => cases h
      | some _ => rfl
    | _ => rfl

theorem Expr.lacksCondition_eq (e : Expr) : e.lacksCondition = (Node.expr e).lacksCondition := by
  cases e <;> rfl

/-- A statement lacks the condition that its own node lacks, or that of its expression. -/
theorem Stmt.lacksCondition_of_nodes {s : Stmt} (h : ∀ n ∈ s.nodes, n.lacksCondition = false) :
    s.lacksCondition = false := by
  cases s with
  | expr pos literal e =>
    have hself : Node.expr e ∈ (Stmt.expr pos literal e).nodes :=
      List.mem_cons_of_mem _ (by cases e <;> simp [Expr.nodes])
    rw [Stmt.lacksCondition, Expr.lacksCondition_eq]
    exact h _ hself
  | «while» pos condition body => exact h _ List.mem_cons_self
  | _ => rfl

/-! ## Runs -/

/-- No node lacks its condition. -/
def NodeRule.decided : NodeRule where
  ints := .all
  Signals := True
  Keeps n := n.lacksCondition = false
  literal _ := trivial
  placed h := absurd trivial h
  Assumed _ := True
  sizes _ := Ints.sizes_all _

/-- Every reason to stop but a missing part. -/
def Reasons.complete : Reasons where
  Allows stop := stop ≠ .incomplete
  common h := by
    rintro rfl
    cases h

/-- The reason for which a task stops. -/
def Moment.stop? : Moment → Option Stop
  | .finished _ (.error stop _) => some stop
  | _ => none

theorem Task.fit_complete {t : Task} (h : t.lacksCondition = false) : t.Fit .complete := by
  refine ⟨fun hlacks => ?_, .inr fun f hf => nomatch hf⟩
  rw [h] at hlacks
  cases hlacks

/-- Tasks that keep to the rule are fit to stop for other reasons only. -/
theorem NodeRule.starts_of_at {m : Moment} (h : NodeRule.decided.contract.At () m) :
    m.Starts (Task.Fit .complete) := by
  match m, h with
  | .finished _ _, _ => trivial
  | .started (.block b r) s, _ | .started (.apply pos f args) s, _ => exact Task.fit_complete rfl
  | .started (.expr e r) s, ⟨_, hneeds⟩ =>
    refine Task.fit_complete ?_
    have hself : Node.expr e ∈ e.nodes := by cases e <;> simp [Expr.nodes]
    rw [Task.lacksCondition, Expr.lacksCondition_eq]
    exact hneeds.nodes _ hself
  | .started (.stmt st r) s, ⟨_, hneeds⟩ =>
    exact Task.fit_complete (Stmt.lacksCondition_of_nodes hneeds)

namespace Session

variable {settings : Settings}

/-- What a session keeps to: all trees in the state are complete, and there is a root scope. -/
structure Sane (s : State) : Prop where
  holds : NodeRule.decided.contract.Holds () s.store
  root : Scopes.root.index < s.store.scopes.size

theorem sane_start : Sane start := ⟨⟨Law.admitsStore_start, trivial⟩, by decide⟩

/-- One source text, accepted or refused. -/
theorem complete_step (source : String) {s : State} (hs : Sane s) :
    Sane (step settings source s).2 ∧
      (∀ m ∈ moments settings source s, m.stop? ≠ some .incomplete) ∧
      (step settings source s).1 ≠ .ran (.cut .incomplete) := by
  have hroot : Scopes.root.index < (step settings source s).2.store.scopes.size :=
    Nat.lt_of_lt_of_le hs.root (size_le_step source s)
  unfold moments step at *
  cases hparse : parse? source with
  | error errors => exact ⟨hs, by simp, by simp⟩
  | ok p =>
    rw [hparse] at hroot
    have hseq : NodeRule.decided.contract.Seq () p.statements Scopes.root :=
      NodeRule.seq fun n hn => (wellFormed_of_accepted hparse n hn).decided
    obtain ⟨⟨⟩, halong, hstore, -⟩ := @Contract.Discipline.program NodeRule.decided.contract
      settings () _ NodeRule.discipline p hs.holds hseq fun _ _ => trivial
    have hstarts : ∀ m ∈ Eval.programHistory settings p s, m.Starts (Task.Fit .complete) := by
      intro m hm
      obtain ⟨⟨⟩, -, -, hat⟩ := halong.at_of_mem hm
      exact NodeRule.starts_of_at hat
    have hopened : (Eval.opened settings p s).store = s.store := Run.traced_store ..
    obtain ⟨hend, hmoments⟩ := Eval.sound_names.program
      (Eval.ensures_runTopLevel (by rw [hopened]; exact hs.root) (.inr fun f hf => nomatch hf))
      hstarts
    refine ⟨⟨hstore, hroot⟩, fun m hm => ?_, ?_⟩
    · match m, hmoments m hm with
      | .started _ _, _ | .finished _ (.ok _ _), _ => simp [Moment.stop?]
      | .finished t (.error stop s'), ⟨_, _, _, hstops⟩ =>
        exact fun hstop => hstops (Option.some.inj hstop)
    · intro hcut
      rcases Eval.ended_of_cut (Answer.ran.inj hcut) with hstop | ⟨s', hended⟩
      · cases hstop
      · rw [hended] at hend
        exact hend rfl

/-- No session ever stops for a missing part. -/
theorem complete_session {sources : List String} {s : State} (hs : Sane s) :
    (∀ m ∈ history settings sources s, m.stop? ≠ some .incomplete) ∧
      ∀ a ∈ answers settings sources s, a.1 ≠ .ran (.cut .incomplete) := by
  induction sources generalizing s with
  | nil => exact ⟨fun _ hm => (nomatch hm), fun _ ha => nomatch ha⟩
  | cons source rest ih =>
    obtain ⟨hsane, hmoments, hanswer⟩ := @complete_step settings source s hs
    obtain ⟨hhistory, hanswers⟩ := ih hsane
    rw [history, answers, List.forall_mem_append, List.forall_mem_cons]
    exact ⟨⟨hmoments, hhistory⟩, hanswer, hanswers⟩

end Session

/-! ## Texts -/

/-- **Accepted means complete.** Any text is read to its end; each node of the tree that is left
stands at a token of the text and has its names from there; the source form and the document of the
tree show all its nodes, and the document has every name, body and operand, and the right side of
each access by a dot is a name or the call of a name. If nothing is wrong with the text, the
document is complete in the strict sense. And whatever texts run one after the other, no task and no
program stops because a part of a tree is missing. -/
theorem parse_complete (source : String) :
    Parse.run (Parse.fuel (tokens source)) (tokens source) = some (parse source) ∧
      (∀ n ∈ (parse source).1.nodes, n.MadeOf (tokens source) ∧
        n.text.toList <:+: (parse source).1.text.toList ∧
        n.document ∈ (parse source).1.document.inside) ∧
      (parse source).1.document.Complete false ∧
      ((parse source).2 = [] → (parse source).1.document.Complete true) ∧
      ∀ settings sources,
        (∀ m ∈ Session.history settings sources Session.start, m.stop? ≠ some .incomplete) ∧
          ∀ a ∈ Session.answers settings sources Session.start, a.1 ≠ .ran (.cut .incomplete) := by
  obtain ⟨hrun, hmade⟩ := parse_reads source
  refine ⟨hrun, fun n hn => ⟨hmade n hn, (parse source).1.shown n hn⟩,
    Program.complete_document fun _ _ h => (nomatch h), fun haccepted => ?_,
    fun settings sources => Session.complete_session Session.sane_start⟩
  have hparse := parse?_eq_ok.mpr (Prod.ext rfl haccepted)
  exact Program.complete_document fun n hn _ => (wellFormed_of_accepted hparse n hn).decided

/-- All forms with a condition, a method call and a plain member. -/
def conditionalText : String :=
  "let a = [1]; while (a.pop()) \x7b if (a == \x7b1: a\x7d) \x7b a.b; \x7d \x7d"

theorem parse_complete_conditionalText :
    (parse conditionalText).2 = [] ∧ (parse conditionalText).1.document.Complete true ∧
      ∀ m ∈ Session.history {} [conditionalText] Session.start, m.stop? ≠ some .incomplete := by
  have haccepted : (parse conditionalText).2 = [] := by decide +kernel
  obtain ⟨-, -, -, hstrict, hruns⟩ := parse_complete conditionalText
  exact ⟨haccepted, hstrict haccepted, (hruns {} [conditionalText]).1⟩

/-- A condition that cannot be read is reported and left out; the rest of the tree is there. -/
example : (parse "while (*) \x7b x; \x7d").2.length = 1 ∧
    (parse "while (*) \x7b x; \x7d").1.text = "while () \x7b x; \x7d" := by
  decide +kernel

end Vorn
