import Vorn.Proofs.Eval.NodeRule

/-!
# Rules on blocks

A rule on nodes can ask something of the blocks in each node as well: of the body of a function or a
loop, and of the branches of a conditional. A function keeps its body, so the rule holds of every
block that is run, wherever it is run from (`BlockRule.discipline`).
-/

namespace Vorn

/-- The blocks that stand in a node itself. -/
def Node.blocks : Node → List Block
  | .expr (.func _ _ body) => [body]
  | .expr e => e.branches
  | .stmt (.while _ _ body) | .stmt (.for _ _ _ _ body) | .stmt (.func _ _ _ body) => [body]
  | .stmt _ => []

/-- What is asked of each node, and of the blocks in it. -/
structure BlockRule extends NodeRule where
  Fit : Block → Prop
  fit : ∀ {n b}, Keeps n → b ∈ n.blocks → Fit b

namespace BlockRule

variable (R : BlockRule)

/-- The contract of the rule on nodes, for which the blocks are fit as well. -/
def contract : Contract :=
  { R.toNodeRule.contract with
    Function := fun _ c => R.Fit c.body ∧ R.Nodes c.body.nodes
    function_mono := fun _ h => h
    Block := fun _ b _ => R.Fit b ∧ R.Nodes b.nodes }

variable {R}

theorem fit_expr {e : Expr} (h : R.Nodes e.nodes) {b : Block} (hb : b ∈ (Node.expr e).blocks) :
    R.Fit b := by
  have hself : .expr e ∈ e.nodes := by cases e <;> simp [Expr.nodes]
  exact R.fit (h _ hself) hb

theorem fit_stmt {st : Stmt} (h : R.Nodes st.nodes) {b : Block} (hb : b ∈ (Node.stmt st).blocks) :
    R.Fit b := by
  have hself : .stmt st ∈ st.nodes := by cases st <;> simp [Stmt.nodes]
  exact R.fit (h _ hself) hb

theorem seq {r : ScopeRef} : ∀ {ss : List Stmt} {w : R.contract.World},
    R.Nodes (Stmt.nodesOfAll ss) → R.contract.Seq w ss r
  | [], _, _ => trivial
  | s :: ss, _, h => by
    rw [Stmt.nodesOfAll] at h
    exact ⟨h.mono (List.subset_append_left _ _), fun _ _ _ =>
      seq (h.mono (List.subset_append_right _ _))⟩

/-- A branch of a conditional stands in its node. -/
theorem block_branch {e : Expr} (h : R.Nodes e.nodes) {b : Block} (hb : b ∈ e.branches) :
    R.Fit b ∧ R.Nodes b.nodes := by
  refine ⟨?_, NodeRule.nodes_branches h b hb⟩
  cases e with
  | cond => exact fit_expr h hb
  | _ => cases hb

/-- **A rule on nodes and blocks is a contract that every program keeps to** if its own nodes do. -/
theorem discipline : R.contract.Discipline where
  expr_quiet _ h := h
  block_quiet _ h := h
  literal {w _ _ _ r} h := R.toNodeRule.discipline.literal (w := w) (r := r) h
  part h := NodeRule.operand_parts h.nodes
  branch h _ hb := block_branch h.nodes hb
  signal {w _ r} h := R.toNodeRule.discipline.signal (w := w) (r := r) h
  function h _ := ⟨fit_expr h.nodes List.mem_cons_self,
    h.nodes.mono (by simp [Expr.nodes])⟩
  assign _ _ _ _ _ _ _ _ := ⟨(), trivial, trivial⟩
  stmt_expr {_ _ _ e _} h := by
    have he : R.Nodes e.nodes := NodeRule.Nodes.mono h (by simp [Stmt.nodes])
    cases hcontrol : e.isControl with
    | false => exact .inl ⟨fun _ => hcontrol, he⟩
    | true => exact .inr ⟨hcontrol, NodeRule.operand_parts he, fun _ hb => block_branch he hb⟩
  stmt_part h hexpr := NodeRule.operand_stmt_parts h hexpr
  stmt_body h := ⟨fit_stmt h List.mem_cons_self,
    NodeRule.Nodes.mono h (by simp [Stmt.nodes])⟩
  declare _ _ _ _ _ _ := ⟨(), trivial, trivial, trivial⟩
  define h _ _ _ := ⟨⟨fit_stmt h List.mem_cons_self,
    NodeRule.Nodes.mono h (by simp [Stmt.nodes])⟩, fun _ => ⟨(), trivial, trivial, trivial⟩⟩
  other _ _ := trivial
  enter {_ b _ _} h _ := ⟨(), trivial, trivial, fun _ _ _ _ _ => trivial, by
    cases b
    exact seq h.2⟩
  loop {_ _ _ _ _ _ r _} h _ := ⟨(), trivial, trivial, fun _ _ _ _ _ => trivial, by
    obtain ⟨hinit, hcondition, hupdate, hnodes⟩ := NodeRule.clauses (w := ()) (r := r) h
    have hbody := fit_stmt h List.mem_cons_self
    split
    · exact ⟨hcondition, hupdate, hbody, hnodes⟩
    · exact ⟨hinit _ rfl, fun _ _ _ => ⟨hcondition, hupdate, hbody, hnodes⟩⟩⟩
  call h _ _ := ⟨(), trivial, trivial, h⟩

end BlockRule

end Vorn
