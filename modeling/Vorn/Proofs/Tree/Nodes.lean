import Vorn.Tree

/-!
# The nodes of a tree

`nodes` lists the expressions and statements that a tree is made of, itself included. A property
that concerns each node by itself is stated of all nodes of a program, and `Expr.nodes` and its
companions hand it down to the parts. `parts` lists the expressions that are evaluated in the scope
of a node itself; their nodes are nodes of it (`Expr.nodes_subset`, `Stmt.nodes_subset`). Some
expressions can give a signal; `Node.placed` says that none of them stands where a value is needed.
-/

namespace Vorn

/-- A node of a tree. -/
inductive Node where
  | expr (e : Expr)
  | stmt (s : Stmt)

mutual

def Expr.nodes : Expr → List Node
  | .ident p name => [.expr (.ident p name)]
  | .int p written value => [.expr (.int p written value)]
  | .float p written value => [.expr (.float p written value)]
  | .bool p value => [.expr (.bool p value)]
  | .null p => [.expr (.null p)]
  | .string p value => [.expr (.string p value)]
  | .array p elements => .expr (.array p elements) :: Expr.nodesOfAll elements
  | .hash p pairs => .expr (.hash p pairs) :: Expr.nodesOfPairs pairs
  | .func p params body => .expr (.func p params body) :: body.nodes
  | .unary p op operand => .expr (.unary p op operand) :: operand.nodes
  | .binary p op left right => .expr (.binary p op left right) :: (left.nodes ++ right.nodes)
  | .cond p condition consequence alternative =>
    .expr (.cond p condition consequence alternative) ::
      (Expr.nodesOfOption condition ++ (consequence.nodes ++ Block.nodesOfOption alternative))
  | .call p callee args => .expr (.call p callee args) :: (callee.nodes ++ Expr.nodesOfAll args)
  | .index p collection key =>
    .expr (.index p collection key) :: (collection.nodes ++ key.nodes)
  | .member p receiver namePos name => .expr (.member p receiver namePos name) :: receiver.nodes
  | .method p receiver namePos name callPos args =>
    .expr (.method p receiver namePos name callPos args) ::
      (receiver.nodes ++ Expr.nodesOfAll args)
  | .assign p name value => .expr (.assign p name value) :: value.nodes
  | .step p op name before => [.expr (.step p op name before)]
  | .break p => [.expr (.break p)]
  | .continue p => [.expr (.continue p)]

def Expr.nodesOfAll : List Expr → List Node
  | [] => []
  | e :: es => e.nodes ++ Expr.nodesOfAll es

def Expr.nodesOfPairs : List (Expr × Expr) → List Node
  | [] => []
  | (k, v) :: ps => k.nodes ++ (v.nodes ++ Expr.nodesOfPairs ps)

def Expr.nodesOfOption : Option Expr → List Node
  | none => []
  | some e => e.nodes

def Block.nodesOfOption : Option Block → List Node
  | none => []
  | some b => b.nodes

def Block.nodes : Block → List Node
  | .mk _ statements => Stmt.nodesOfAll statements

def Stmt.nodes : Stmt → List Node
  | .expr p literal value => .stmt (.expr p literal value) :: value.nodes
  | .declare p isConst name value => .stmt (.declare p isConst name value) :: value.nodes
  | .return p value => .stmt (.return p value) :: Expr.nodesOfOption value
  | .while p condition body =>
    .stmt (.while p condition body) :: (Expr.nodesOfOption condition ++ body.nodes)
  | .for p init condition update body =>
    .stmt (.for p init condition update body) ::
      (Stmt.nodesOfOption init ++ (Expr.nodesOfOption condition ++
        (Expr.nodesOfOption update ++ body.nodes)))
  | .func p name params body => .stmt (.func p name params body) :: body.nodes

def Stmt.nodesOfAll : List Stmt → List Node
  | [] => []
  | s :: ss => s.nodes ++ Stmt.nodesOfAll ss

def Stmt.nodesOfOption : Option Stmt → List Node
  | none => []
  | some s => s.nodes

end

def Program.nodes (p : Program) : List Node := Stmt.nodesOfAll p.statements

/-! ## Parts -/

/-- The expressions in an expression that are evaluated in the same scope. -/
def Expr.parts : Expr → List Expr
  | .array _ es => es
  | .hash _ ps => ps.flatMap fun p => [p.1, p.2]
  | .unary _ _ e => [e]
  | .binary _ _ l r => [l, r]
  | .cond _ c _ _ => c.toList
  | .call _ f args => f :: args
  | .index _ c k => [c, k]
  | .member _ r _ _ => [r]
  | .method _ r _ _ _ args => r :: args
  | .assign _ _ v => [v]
  | _ => []

/-- The blocks of a conditional. -/
def Expr.branches : Expr → List Block
  | .cond _ _ c a => c :: a.toList
  | _ => []

/-- The expressions in a statement that are evaluated in its own scope. -/
def Stmt.parts : Stmt → List Expr
  | .expr _ _ e => [e]
  | .declare _ _ _ v => [v]
  | .return _ v => v.toList
  | .while _ c _ => c.toList
  | _ => []

/-- An expression whose value may be a signal that arises in it: `break`, `continue`, and a
conditional, which gives what its block gives. -/
def Expr.isControl : Expr → Bool
  | .cond _ _ _ _ | .break _ | .continue _ => true
  | _ => false

/-- An expression as a statement. -/
def Stmt.isExpr : Stmt → Bool
  | .expr _ _ _ => true
  | _ => false

/-- No expression that the node takes a value from is a conditional, a `break` or a `continue`; nor
is the first clause of a `for`. -/
def Node.placed : Node → Bool
  | .expr e => e.parts.all (!·.isControl)
  | .stmt (.expr _ _ _) => true
  | .stmt (.for _ init condition update _) =>
    init.all (·.parts.all (!·.isControl)) && condition.all (!·.isControl) &&
      update.all (!·.isControl)
  | .stmt s => s.parts.all (!·.isControl)

/-- The name that a statement binds in its scope. -/
def Stmt.binds? : Stmt → Option String
  | .declare _ _ name _ | .func _ name _ _ => some name
  | _ => none

theorem Expr.nodesOfAll_eq : ∀ es : List Expr, Expr.nodesOfAll es = es.flatMap Expr.nodes
  | [] => rfl
  | e :: es => by rw [Expr.nodesOfAll, nodesOfAll_eq es, List.flatMap_cons]

theorem Expr.nodesOfPairs_eq : ∀ ps : List (Expr × Expr),
    Expr.nodesOfPairs ps = (ps.flatMap fun p => [p.1, p.2]).flatMap Expr.nodes
  | [] => rfl
  | (k, v) :: ps => by simp [Expr.nodesOfPairs, nodesOfPairs_eq ps]

theorem Expr.nodesOfOption_eq (e : Option Expr) :
    Expr.nodesOfOption e = e.toList.flatMap Expr.nodes := by
  cases e <;> simp [Expr.nodesOfOption]

theorem Block.nodesOfOption_eq (b : Option Block) :
    Block.nodesOfOption b = b.toList.flatMap Block.nodes := by
  cases b <;> simp [Block.nodesOfOption]

/-- The nodes of the parts and branches of an expression are nodes of the expression. -/
theorem Expr.nodes_subset (e : Expr) :
    e.parts.flatMap Expr.nodes ++ e.branches.flatMap Block.nodes ⊆ e.nodes := by
  cases e <;>
    simp [Expr.parts, Expr.branches, Expr.nodes, Expr.nodesOfAll_eq, Expr.nodesOfPairs_eq,
      Expr.nodesOfOption_eq, Block.nodesOfOption_eq]

theorem Stmt.nodes_subset (s : Stmt) : s.parts.flatMap Expr.nodes ⊆ s.nodes := by
  cases s <;> simp [Stmt.parts, Stmt.nodes, Expr.nodesOfOption_eq]

end Vorn
