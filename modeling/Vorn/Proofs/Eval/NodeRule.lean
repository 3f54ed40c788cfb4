import Vorn.Proofs.Eval.Discipline

/-!
# Rules on nodes

A rule asks the same of every node of every tree that is evaluated. Its contract
(`NodeRule.contract`) knows of nothing but that, so each form of the language hands the rule down to
its parts, and the contract has a discipline (`NodeRule.discipline`). If signals may not be data,
the rule has to keep them from standing where a value is needed.
-/

namespace Vorn

/-- What is asked of each node, and of the integers and moments of a run. -/
structure NodeRule where
  ints : Ints
  /-- Whether signals may be data. -/
  Signals : Prop
  /-- What is asked of one node. -/
  Keeps : Node → Prop
  literal : ∀ {pos text n}, Keeps (.expr (.int pos text n)) → ints.Holds n
  placed : ¬ Signals → ∀ {n}, Keeps n → n.placed = true
  /-- What is taken for granted at the moments of a run. -/
  Assumed : Moment → Prop
  sizes : ∀ {m}, Assumed m → ints.Sizes m

namespace NodeRule

variable (R : NodeRule)

/-- The rule holds of all the nodes. -/
def Nodes (ns : List Node) : Prop := ∀ n ∈ ns, R.Keeps n

/-- An expression whose value is data. -/
structure Operand (e : Expr) : Prop where
  control : ¬ R.Signals → e.isControl = false
  nodes : R.Nodes e.nodes

/-- The rule holds of every tree, and an expression that is evaluated for data gives no signal
where signals may not be data. -/
def contract : Contract where
  World := Unit
  Le _ _ := True
  Quiet _ _ := True
  quiet_refl _ := trivial
  quiet_trans _ _ := trivial
  le_of_quiet _ := trivial
  le_trans _ _ := trivial
  ints := R.ints
  Function _ c := R.Nodes c.body.nodes
  function_mono _ h := h
  Signals := R.Signals
  Scoped _ _ := True
  Expr _ e _ := R.Operand e
  Stmt _ s _ := R.Nodes s.nodes
  Block _ b _ := R.Nodes b.nodes
  Ran _ _ _ _ := True
  Assumed := R.Assumed
  sizes h := R.sizes h

variable {R}

theorem Nodes.mono {ms ns : List Node} (h : R.Nodes ns) (hsub : ms ⊆ ns) : R.Nodes ms :=
  fun n hn => h n (hsub hn)

/-- Parts that are not control are operands, if their nodes keep the rule. -/
theorem operand_of_all {es : List Expr} {ns : List Node}
    (hplaced : ¬ R.Signals → es.all (!·.isControl) = true) (h : R.Nodes ns)
    (hsub : es.flatMap Expr.nodes ⊆ ns) : ∀ e ∈ es, R.Operand e := fun e he =>
  ⟨fun hsignals => by simpa using List.all_eq_true.mp (hplaced hsignals) e he,
    h.mono fun _ hn => hsub (List.mem_flatMap.mpr ⟨e, he, hn⟩)⟩

theorem operand_parts {e : Expr} (h : R.Nodes e.nodes) : ∀ e' ∈ e.parts, R.Operand e' := by
  have hself : .expr e ∈ e.nodes := by cases e <;> simp [Expr.nodes]
  refine operand_of_all (fun hsignals => ?_) h
    (List.Subset.trans (List.subset_append_left _ _) e.nodes_subset)
  exact R.placed hsignals (h _ hself)

theorem nodes_branches {e : Expr} (h : R.Nodes e.nodes) : ∀ b ∈ e.branches, R.Nodes b.nodes :=
  fun b hb => h.mono fun _ hn =>
    e.nodes_subset (List.mem_append_right _ (List.mem_flatMap.mpr ⟨b, hb, hn⟩))

theorem operand_stmt_parts {s : Stmt} (h : R.Nodes s.nodes) (hexpr : s.isExpr = false) :
    ∀ e ∈ s.parts, R.Operand e := by
  have hself : .stmt s ∈ s.nodes := by cases s <;> simp [Stmt.nodes]
  refine operand_of_all (fun hsignals => ?_) h s.nodes_subset
  have hplaced := R.placed hsignals (h _ hself)
  cases s with
  | expr => cases hexpr
  | «for» => rfl
  | _ => exact hplaced

theorem seq {r : ScopeRef} : ∀ {ss : List Stmt} {w : R.contract.World},
    R.Nodes (Stmt.nodesOfAll ss) → R.contract.Seq w ss r
  | [], _, _ => trivial
  | s :: ss, _, h => by
    rw [Stmt.nodesOfAll] at h
    exact ⟨h.mono (List.subset_append_left _ _), fun _ _ _ =>
      seq (h.mono (List.subset_append_right _ _))⟩

theorem clauses {w : R.contract.World} {pos : Pos} {init : Option Stmt}
    {condition update : Option Expr} {body : Block} {r : ScopeRef}
    (h : R.Nodes (Stmt.for pos init condition update body).nodes) :
    (∀ s ∈ init, R.Nodes s.nodes) ∧ R.contract.Clauses w r condition update body := by
  have hplaced : ¬ R.Signals → (Node.stmt (.for pos init condition update body)).placed = true :=
    fun hsignals => R.placed hsignals (h _ (by simp [Stmt.nodes]))
  simp only [Node.placed, Bool.and_eq_true, Option.all_eq_true, Bool.not_eq_true'] at hplaced
  have hnodes : ∀ n, n ∈ Stmt.nodesOfOption init ∨ n ∈ Expr.nodesOfOption condition ∨
      n ∈ Expr.nodesOfOption update ∨ n ∈ body.nodes → R.Keeps n :=
    fun n hn => h n (by simpa [Stmt.nodes] using .inr hn)
  refine ⟨fun s hs n hn => hnodes n (.inl ?_),
    fun e he => ⟨fun hsignals => (hplaced hsignals).1.2 e he,
      fun n hn => hnodes n (.inr (.inl ?_))⟩,
    fun e he => ⟨fun hsignals => (hplaced hsignals).2 e he,
      fun n hn => hnodes n (.inr (.inr (.inl ?_)))⟩,
    fun n hn => hnodes n (.inr (.inr (.inr hn)))⟩
  · rwa [hs, Stmt.nodesOfOption]
  · rwa [he, Expr.nodesOfOption]
  · rwa [he, Expr.nodesOfOption]

/-- **A rule on nodes is a contract that every program keeps to** if its own nodes do. -/
theorem discipline : R.contract.Discipline where
  expr_quiet _ h := h
  block_quiet _ h := h
  literal {_ pos text n _} h := R.literal (h.nodes (.expr (.int pos text n)) (by simp [Expr.nodes]))
  part h := operand_parts h.nodes
  branch h := nodes_branches h.nodes
  signal {_ e _} h hcontrol := by
    refine Classical.byContradiction fun hsignals => ?_
    rw [h.control hsignals] at hcontrol
    cases hcontrol
  function h _ := h.nodes.mono (by simp [Expr.nodes])
  assign _ _ _ _ _ _ _ _ := ⟨(), trivial, trivial⟩
  stmt_expr {_ _ _ e _} h := by
    have he : R.Nodes e.nodes := h.mono (by simp [Stmt.nodes])
    cases hcontrol : e.isControl with
    | false => exact .inl ⟨fun _ => hcontrol, he⟩
    | true => exact .inr ⟨hcontrol, operand_parts he, nodes_branches he⟩
  stmt_part h hexpr := operand_stmt_parts h hexpr
  stmt_body h := h.mono (by simp [Stmt.nodes])
  declare _ _ _ _ _ _ := ⟨(), trivial, trivial, trivial⟩
  define h _ _ _ := ⟨h.mono (by simp [Stmt.nodes]), fun _ => ⟨(), trivial, trivial, trivial⟩⟩
  other _ _ := trivial
  enter {_ b _ _} h _ := ⟨(), trivial, trivial, fun _ _ _ _ _ => trivial, by
    cases b
    exact seq h⟩
  loop h _ := ⟨(), trivial, trivial, fun _ _ _ _ _ => trivial, by
    obtain ⟨hinit, hclauses⟩ := clauses h
    split
    · exact hclauses
    · exact ⟨hinit _ rfl, fun _ _ _ => hclauses⟩⟩
  call h _ _ := ⟨(), trivial, trivial, h⟩

end NodeRule

end Vorn
