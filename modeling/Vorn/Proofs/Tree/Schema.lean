import Mathlib
import Vorn.Proofs.Tree.Nodes
import Vorn.Tree.Document

/-!
# What the document of a tree holds

Each kind of node has its fields, and each field a slot that says what belongs there: a name, an
expression, a block, a list of such, or one of these or nothing (`Document.slots`). A document is
complete if all objects in it are nodes of a known kind whose slots are filled.

Two readings of the table differ in the condition of an `if` and of a `while` only. The document of
any tree is complete if these may be missing; it is complete in the strict reading if no node lacks
its condition (`Program.complete_document`).
-/

namespace Vorn

namespace Document

/-! ## Documents inside documents -/

mutual

/-- A document and all that are inside it. -/
def inside : Document → List Document
  | list items => list items :: insideItems items
  | object fields => object fields :: insideFields fields
  | null => [null]
  | bool b => [bool b]
  | int n => [int n]
  | float x => [float x]
  | text s => [text s]

def insideItems : List Document → List Document
  | [] => []
  | d :: ds => d.inside ++ insideItems ds

def insideFields : List (String × Document) → List Document
  | [] => []
  | (_, d) :: fs => d.inside ++ insideFields fs

end

def field? : Document → String → Option Document
  | object fields, name => fields.lookup name
  | _, _ => none

/-- The kind of a node. -/
def kind? (d : Document) : Option String :=
  match d.field? "type" with
  | some (text kind) => some kind
  | _ => none

/-! ## The table -/

def isText : Document → Bool
  | text _ => true
  | _ => false

def isNull : Document → Bool
  | null => true
  | _ => false

/-- A node of one of the kinds. -/
def isOf (kinds : List String) (d : Document) : Bool := d.kind?.any (· ∈ kinds)

def expressionKinds : List String :=
  ["Identifier", "IntegerLiteral", "FloatLiteral", "BooleanLiteral", "NullLiteral",
   "StringLiteral", "ArrayLiteral", "HashLiteral", "FunctionLiteral", "PrefixExpression",
   "InfixExpression", "IfExpression", "CallExpression", "IndexExpression", "ChainingExpression",
   "ReassignmentExpression", "IncrementDecrementExpression", "BreakExpression",
   "ContinueExpression"]

def statementKinds : List String :=
  ["ExpressionStatement", "VariableStatement", "ReturnStatement", "WhileStatement",
   "ForStatement", "FunctionStatement"]

/-- What belongs in a field. -/
inductive Slot where
  /-- Anything but null. -/
  | datum
  | name
  | names
  | expr
  | exprs
  /-- Keys with their values. -/
  | pairs
  | stmt
  | stmts
  | block
  /-- What may follow a dot: a name, or a call of a name. -/
  | access
  | optional (slot : Slot)

/-- The slot is filled by the document. -/
def Slot.holds : Slot → Document → Bool
  | datum, d => !d.isNull
  | name, d => d.isText
  | names, .list items => items.all isText
  | expr, d => d.isOf expressionKinds
  | exprs, .list items => items.all (isOf expressionKinds)
  | pairs, .list items => items.all fun
    | .list [k, v] => k.isOf expressionKinds && v.isOf expressionKinds
    | _ => false
  | stmt, d => d.isOf statementKinds
  | stmts, .list items => items.all (isOf statementKinds)
  | block, d => d.isOf ["BlockStatement"]
  | access, d =>
    d.isOf ["Identifier"] ||
      d.isOf ["CallExpression"] && (d.field? "function").any (isOf ["Identifier"])
  | optional slot, d => d.isNull || slot.holds d
  | _, _ => false

/-- The slot of a condition that the grammar asks for. -/
def Slot.condition (strict : Bool) : Slot := if strict then expr else optional expr

/-- The fields of each kind of node, with what belongs there. -/
def schema (strict : Bool) : List (String × List (String × Slot)) :=
  [("Program", [("statements", .stmts)]),
   ("ExpressionStatement", [("expression", .expr)]),
   ("VariableStatement", [("name", .name), ("is_const", .datum), ("value", .expr)]),
   ("ReturnStatement", [("value", .optional .expr)]),
   ("BlockStatement", [("statements", .stmts)]),
   ("WhileStatement", [("condition", .condition strict), ("body", .block)]),
   ("ForStatement",
     [("init", .optional .stmt), ("condition", .optional .expr),
      ("update", .optional .expr), ("body", .block)]),
   ("FunctionStatement", [("name", .name), ("parameters", .names), ("body", .block)]),
   ("Identifier", [("name", .name)]),
   ("IntegerLiteral", [("value", .datum)]),
   ("FloatLiteral", [("value", .datum)]),
   ("BooleanLiteral", [("value", .datum)]),
   ("NullLiteral", []),
   ("StringLiteral", [("value", .datum)]),
   ("ArrayLiteral", [("elements", .exprs)]),
   ("HashLiteral", [("pairs", .pairs)]),
   ("FunctionLiteral", [("parameters", .names), ("body", .block)]),
   ("PrefixExpression", [("operator", .datum), ("right", .expr)]),
   ("InfixExpression", [("operator", .datum), ("left", .expr), ("right", .expr)]),
   ("IfExpression",
     [("condition", .condition strict), ("consequence", .block),
      ("alternative", .optional .block)]),
   ("CallExpression", [("function", .expr), ("arguments", .exprs)]),
   ("IndexExpression", [("left", .expr), ("index", .expr)]),
   ("ChainingExpression", [("left", .expr), ("right", .access)]),
   ("ReassignmentExpression", [("name", .name), ("value", .expr)]),
   ("IncrementDecrementExpression",
     [("operator", .datum), ("target", .name), ("prefix", .datum)]),
   ("BreakExpression", []),
   ("ContinueExpression", [])]

/-- The fields of a kind of node. -/
def slots (strict : Bool) (kind : String) : Option (List (String × Slot)) :=
  (schema strict).lookup kind

/-- If the document is an object, it is a node whose slots are filled. -/
def isFilled (strict : Bool) : Document → Bool
  | object fields =>
    ((object fields).kind?.bind (slots strict)).any fun ss =>
      ss.all fun s => ((object fields).field? s.1).any s.2.holds
  | _ => true

/-- All nodes in the document have their slots filled. -/
def Complete (strict : Bool) (d : Document) : Prop :=
  ∀ x ∈ d.inside, x.isFilled strict = true

end Document

open Document

/-! ## Slots that are filled -/

theorem Expr.documents_eq : ∀ es : List Expr, Expr.documents es = es.map Expr.document
  | [] => rfl
  | e :: es => by
    change e.document :: Expr.documents es = _
    rw [documents_eq es, List.map_cons]

theorem Expr.pairDocuments_eq : ∀ ps : List (Expr × Expr),
    Expr.pairDocuments ps = ps.map fun p => .list [p.1.document, p.2.document]
  | [] => rfl
  | (k, v) :: ps => by
    change Document.list [k.document, v.document] :: Expr.pairDocuments ps = _
    rw [pairDocuments_eq ps, List.map_cons]

theorem Stmt.documents_eq : ∀ ss : List Stmt, Stmt.documents ss = ss.map Stmt.document
  | [] => rfl
  | s :: ss => by
    change s.document :: Stmt.documents ss = _
    rw [documents_eq ss, List.map_cons]

theorem Expr.isOf_document (e : Expr) : e.document.isOf expressionKinds = true := by
  cases e <;> rfl

theorem Stmt.isOf_document (s : Stmt) : s.document.isOf statementKinds = true := by
  cases s <;> rfl

theorem Block.isOf_document (b : Block) : b.document.isOf ["BlockStatement"] = true := by
  cases b
  rfl

namespace Document.Slot

@[simp] theorem holds_datum (d : Document) : datum.holds d = !d.isNull := rfl

@[simp] theorem holds_name (x : String) : name.holds (.text x) = true := rfl

@[simp] theorem holds_names (xs : List String) : names.holds (.texts xs) = true := by
  simp [texts, holds, isText]

@[simp] theorem holds_expr (e : Expr) : expr.holds e.document = true := e.isOf_document

@[simp] theorem holds_exprs (es : List Expr) : exprs.holds (.list (Expr.documents es)) = true := by
  simp [holds, Expr.documents_eq, Expr.isOf_document]

@[simp] theorem holds_pairs (ps : List (Expr × Expr)) :
    pairs.holds (.list (Expr.pairDocuments ps)) = true := by
  simp [holds, Expr.pairDocuments_eq, Expr.isOf_document]

@[simp] theorem holds_stmts (ss : List Stmt) : stmts.holds (.list (Stmt.documents ss)) = true := by
  simp [holds, Stmt.documents_eq, Stmt.isOf_document]

@[simp] theorem holds_block (b : Block) : block.holds b.document = true := b.isOf_document

@[simp] theorem holds_optional_expr (e : Option Expr) :
    (optional expr).holds (Expr.optionDocument e) = true := by
  cases e with
  | none => rfl
  | some e => simp [Expr.optionDocument, holds, e.isOf_document]

@[simp] theorem holds_optional_block (b : Option Block) :
    (optional block).holds (Block.optionDocument b) = true := by
  cases b with
  | none => rfl
  | some b => simp [Block.optionDocument, holds, b.isOf_document]

@[simp] theorem holds_optional_stmt (s : Option Stmt) :
    (optional stmt).holds (Stmt.optionDocument s) = true := by
  cases s with
  | none => rfl
  | some s => simp [Stmt.optionDocument, holds, s.isOf_document]

@[simp] theorem holds_access_name (pos : Pos) (x : String) :
    access.holds (node "Identifier" pos [("name", .text x)]) = true := rfl

@[simp] theorem holds_access_call (pos callPos : Pos) (x : String) (args : Document) :
    access.holds (node "CallExpression" callPos
      [("function", node "Identifier" pos [("name", .text x)]), ("arguments", args)]) = true := rfl

theorem holds_condition {strict : Bool} {e : Option Expr} (h : strict = true → e.isSome = true) :
    (condition strict).holds (Expr.optionDocument e) = true := by
  cases strict with
  | false => exact holds_optional_expr e
  | true =>
    obtain ⟨e, rfl⟩ := Option.isSome_iff_exists.mp (h rfl)
    exact holds_expr e

end Document.Slot

/-! ## Complete documents -/

namespace Document

variable {strict : Bool} {kind : String} {pos : Pos} {fs : List (String × Document)}

theorem field?_node (name : String) : (node kind pos fs).field? name =
    ([("type", text kind), ("line", int pos.line), ("column", int pos.column)] ++ fs).lookup name :=
  rfl

/-- An object is filled if the slots of its kind are. -/
theorem isFilled_object {ss : List (String × Slot)} (hkind : (object fs).kind? = some kind)
    (hslots : slots strict kind = some ss)
    (h : ∀ s ∈ ss, ((object fs).field? s.1).any s.2.holds = true) :
    (object fs).isFilled strict = true := by
  rw [isFilled, hkind, Option.bind_some, hslots, Option.any_some, List.all_eq_true]
  exact h

theorem isFilled_node {ss : List (String × Slot)} (hslots : slots strict kind = some ss)
    (h : ∀ s ∈ ss, ((node kind pos fs).field? s.1).any s.2.holds = true) :
    (node kind pos fs).isFilled strict = true :=
  isFilled_object rfl hslots h

namespace Complete

/-- A document that holds no other one has only itself to be filled. -/
theorem leaf {d : Document} (hinside : d.inside = [d]) (hfilled : d.isFilled strict = true) :
    Complete strict d := by
  intro x hx
  rw [hinside, List.mem_singleton] at hx
  rw [hx]
  exact hfilled

@[simp] theorem null : Complete strict .null := leaf rfl rfl

@[simp] theorem bool (b : Bool) : Complete strict (.bool b) := leaf rfl rfl

@[simp] theorem int (n : Int) : Complete strict (.int n) := leaf rfl rfl

@[simp] theorem float (x : Float) : Complete strict (.float x) := leaf rfl rfl

@[simp] theorem text (s : String) : Complete strict (.text s) := leaf rfl rfl

theorem items : ∀ {ds : List Document}, (∀ d ∈ ds, d.Complete strict) →
    ∀ x ∈ insideItems ds, x.isFilled strict = true
  | [], _ => fun _ hx => nomatch hx
  | d :: ds, h => by
    rw [List.forall_mem_cons] at h
    exact List.forall_mem_append.mpr ⟨h.1, items h.2⟩

theorem fields : ∀ {fs : List (String × Document)}, (∀ f ∈ fs, f.2.Complete strict) →
    ∀ x ∈ insideFields fs, x.isFilled strict = true
  | [], _ => fun _ hx => nomatch hx
  | (_, d) :: fs, h => by
    rw [List.forall_mem_cons] at h
    exact List.forall_mem_append.mpr ⟨h.1, fields h.2⟩

theorem list {ds : List Document} (h : ∀ d ∈ ds, d.Complete strict) :
    Complete strict (.list ds) :=
  List.forall_mem_cons.mpr ⟨rfl, items h⟩

@[simp] theorem texts (xs : List String) : Complete strict (.texts xs) := by
  refine list fun d hd => ?_
  obtain ⟨x, -, rfl⟩ := List.mem_map.mp hd
  exact text x

theorem node (hself : (Document.node kind pos fs).isFilled strict = true)
    (h : ∀ f ∈ fs, f.2.Complete strict) : Complete strict (.node kind pos fs) := by
  refine List.forall_mem_cons.mpr ⟨hself, fields fun f hf => ?_⟩
  rcases List.mem_append.mp hf with hf | hf
  · simp only [List.mem_cons, List.not_mem_nil, or_false] at hf
    rcases hf with rfl | rfl | rfl
    · exact text kind
    · exact int _
    · exact int _
  · exact h f hf

end Complete

end Document

/-- The condition that the grammar asks for is missing. -/
def Node.lacksCondition : Node → Bool
  | .expr (.cond _ condition _ _) => condition.isNone
  | .stmt (.while _ condition _) => condition.isNone
  | _ => false

section

variable {strict : Bool}

/-- In the strict reading no condition is missing. -/
def Node.Decided (strict : Bool) (n : Node) : Prop := strict = true → n.lacksCondition = false

/-! ### Each node by itself -/

theorem Expr.isFilled_document {e : Expr} (h : (Node.expr e).Decided strict) :
    e.document.isFilled strict = true := by
  cases e with
  | cond pos condition consequence alternative =>
    have hcondition : (Slot.condition strict).holds (Expr.optionDocument condition) = true :=
      Slot.holds_condition fun hs => by simpa [Node.lacksCondition] using h hs
    exact isFilled_node rfl (by simp [field?_node, List.lookup, hcondition])
  | _ => exact isFilled_node rfl (by simp [field?_node, List.lookup, isNull])

theorem Stmt.isFilled_document {s : Stmt} (h : (Node.stmt s).Decided strict) :
    s.document.isFilled strict = true := by
  cases s with
  | «while» pos condition body =>
    have hcondition : (Slot.condition strict).holds (Expr.optionDocument condition) = true :=
      Slot.holds_condition fun hs => by simpa [Node.lacksCondition] using h hs
    exact isFilled_node rfl (by simp [field?_node, List.lookup, hcondition])
  | _ => exact isFilled_node rfl (by simp [field?_node, List.lookup, isNull])

/-! ### Whole trees -/

theorem Expr.complete_of_fields {e : Expr} {kind : String} {pos : Pos}
    {fs : List (String × Document)} (hdoc : e.document = node kind pos fs)
    (h : (Node.expr e).Decided strict) (hfields : ∀ f ∈ fs, f.2.Complete strict) :
    e.document.Complete strict := by
  have hself := Expr.isFilled_document h
  rw [hdoc] at hself ⊢
  exact .node hself hfields

theorem Stmt.complete_of_fields {s : Stmt} {kind : String} {pos : Pos}
    {fs : List (String × Document)} (hdoc : s.document = node kind pos fs)
    (h : (Node.stmt s).Decided strict) (hfields : ∀ f ∈ fs, f.2.Complete strict) :
    s.document.Complete strict := by
  have hself := Stmt.isFilled_document h
  rw [hdoc] at hself ⊢
  exact .node hself hfields

/-- A name as a node of its own. -/
theorem complete_identifier (pos : Pos) (name : String) :
    (node "Identifier" pos [("name", .text name)]).Complete strict :=
  .node (isFilled_node rfl (by simp [field?_node, List.lookup])) (by simp)

/-- A call of a name. -/
theorem complete_nameCall (pos callPos : Pos) (name : String) {args : List Expr}
    (hargs : ∀ d ∈ Expr.documents args, d.Complete strict) :
    (node "CallExpression" callPos
      [("function", node "Identifier" pos [("name", .text name)]),
       ("arguments", .list (Expr.documents args))]).Complete strict := by
  have hname : Slot.expr.holds (node "Identifier" pos [("name", .text name)]) = true := rfl
  refine .node (isFilled_node rfl (by simp [field?_node, List.lookup, hname])) ?_
  simpa using ⟨complete_identifier pos name, .list hargs⟩

mutual

theorem Expr.complete_document : ∀ e : Expr, (∀ n ∈ e.nodes, n.Decided strict) →
    e.document.Complete strict
  | .ident _ _, h | .int _ _ _, h | .float _ _ _, h | .bool _ _, h | .null _, h | .string _ _, h
  | .step _ _ _ _, h | .break _, h | .continue _, h => by
    exact Expr.complete_of_fields rfl (h _ (by simp [Expr.nodes])) (by simp)
  | .array _ es, h => by
    rw [Expr.nodes, List.forall_mem_cons] at h
    refine Expr.complete_of_fields rfl h.1 ?_
    simpa using .list (Expr.complete_documents es h.2)
  | .hash _ ps, h => by
    rw [Expr.nodes, List.forall_mem_cons] at h
    refine Expr.complete_of_fields rfl h.1 ?_
    simpa using .list (Expr.complete_pairDocuments ps h.2)
  | .func _ _ b, h => by
    rw [Expr.nodes, List.forall_mem_cons] at h
    exact Expr.complete_of_fields rfl h.1 (by simp [Block.complete_document b h.2])
  | .unary _ _ e, h => by
    rw [Expr.nodes, List.forall_mem_cons] at h
    exact Expr.complete_of_fields rfl h.1 (by simp [Expr.complete_document e h.2])
  | .binary _ _ l r, h => by
    rw [Expr.nodes, List.forall_mem_cons, List.forall_mem_append] at h
    refine Expr.complete_of_fields rfl h.1 ?_
    simp [Expr.complete_document l h.2.1, Expr.complete_document r h.2.2]
  | .cond _ c b a, h => by
    rw [Expr.nodes, List.forall_mem_cons, List.forall_mem_append, List.forall_mem_append] at h
    refine Expr.complete_of_fields rfl h.1 ?_
    simp [Expr.complete_optionDocument c h.2.1, Block.complete_document b h.2.2.1,
      Block.complete_optionDocument a h.2.2.2]
  | .call _ f args, h => by
    rw [Expr.nodes, List.forall_mem_cons, List.forall_mem_append] at h
    refine Expr.complete_of_fields rfl h.1 ?_
    simpa using ⟨Expr.complete_document f h.2.1, .list (Expr.complete_documents args h.2.2)⟩
  | .index _ c k, h => by
    rw [Expr.nodes, List.forall_mem_cons, List.forall_mem_append] at h
    refine Expr.complete_of_fields rfl h.1 ?_
    simp [Expr.complete_document c h.2.1, Expr.complete_document k h.2.2]
  | .member _ r _ _, h => by
    rw [Expr.nodes, List.forall_mem_cons] at h
    refine Expr.complete_of_fields rfl h.1 ?_
    simp [Expr.complete_document r h.2, complete_identifier]
  | .method _ r _ _ _ args, h => by
    rw [Expr.nodes, List.forall_mem_cons, List.forall_mem_append] at h
    refine Expr.complete_of_fields rfl h.1 ?_
    simpa using ⟨Expr.complete_document r h.2.1,
      complete_nameCall _ _ _ (Expr.complete_documents args h.2.2)⟩
  | .assign _ _ v, h => by
    rw [Expr.nodes, List.forall_mem_cons] at h
    exact Expr.complete_of_fields rfl h.1 (by simp [Expr.complete_document v h.2])

theorem Expr.complete_documents : ∀ es : List Expr,
    (∀ n ∈ Expr.nodesOfAll es, n.Decided strict) → ∀ d ∈ Expr.documents es, d.Complete strict
  | [], _ => fun _ hd => nomatch hd
  | e :: es, h => by
    rw [Expr.nodesOfAll, List.forall_mem_append] at h
    exact List.forall_mem_cons.mpr ⟨Expr.complete_document e h.1, Expr.complete_documents es h.2⟩

theorem Expr.complete_pairDocuments : ∀ ps : List (Expr × Expr),
    (∀ n ∈ Expr.nodesOfPairs ps, n.Decided strict) →
    ∀ d ∈ Expr.pairDocuments ps, d.Complete strict
  | [], _ => fun _ hd => nomatch hd
  | (k, v) :: ps, h => by
    rw [Expr.nodesOfPairs, List.forall_mem_append, List.forall_mem_append] at h
    refine List.forall_mem_cons.mpr ⟨.list ?_, Expr.complete_pairDocuments ps h.2.2⟩
    simp [Expr.complete_document k h.1, Expr.complete_document v h.2.1]

theorem Expr.complete_optionDocument : ∀ e : Option Expr,
    (∀ n ∈ Expr.nodesOfOption e, n.Decided strict) → (Expr.optionDocument e).Complete strict
  | none, _ => .null
  | some e, h => Expr.complete_document e h

theorem Block.complete_optionDocument : ∀ b : Option Block,
    (∀ n ∈ Block.nodesOfOption b, n.Decided strict) → (Block.optionDocument b).Complete strict
  | none, _ => .null
  | some b, h => Block.complete_document b h

theorem Block.complete_document : ∀ b : Block, (∀ n ∈ b.nodes, n.Decided strict) →
    b.document.Complete strict
  | .mk _ ss, h => by
    refine .node (isFilled_node rfl (by simp [field?_node, List.lookup])) ?_
    simpa using .list (Stmt.complete_documents ss h)

theorem Stmt.complete_document : ∀ s : Stmt, (∀ n ∈ s.nodes, n.Decided strict) →
    s.document.Complete strict
  | .expr _ _ e, h => by
    rw [Stmt.nodes, List.forall_mem_cons] at h
    exact Stmt.complete_of_fields rfl h.1 (by simp [Expr.complete_document e h.2])
  | .declare _ _ _ v, h => by
    rw [Stmt.nodes, List.forall_mem_cons] at h
    exact Stmt.complete_of_fields rfl h.1 (by simp [Expr.complete_document v h.2])
  | .return _ v, h => by
    rw [Stmt.nodes, List.forall_mem_cons] at h
    exact Stmt.complete_of_fields rfl h.1 (by simp [Expr.complete_optionDocument v h.2])
  | .while _ c b, h => by
    rw [Stmt.nodes, List.forall_mem_cons, List.forall_mem_append] at h
    refine Stmt.complete_of_fields rfl h.1 ?_
    simp [Expr.complete_optionDocument c h.2.1, Block.complete_document b h.2.2]
  | .for _ i c u b, h => by
    rw [Stmt.nodes, List.forall_mem_cons, List.forall_mem_append, List.forall_mem_append,
      List.forall_mem_append] at h
    refine Stmt.complete_of_fields rfl h.1 ?_
    simp [Stmt.complete_optionDocument i h.2.1, Expr.complete_optionDocument c h.2.2.1,
      Expr.complete_optionDocument u h.2.2.2.1, Block.complete_document b h.2.2.2.2]
  | .func _ _ _ b, h => by
    rw [Stmt.nodes, List.forall_mem_cons] at h
    exact Stmt.complete_of_fields rfl h.1 (by simp [Block.complete_document b h.2])

theorem Stmt.complete_documents : ∀ ss : List Stmt,
    (∀ n ∈ Stmt.nodesOfAll ss, n.Decided strict) → ∀ d ∈ Stmt.documents ss, d.Complete strict
  | [], _ => fun _ hd => nomatch hd
  | s :: ss, h => by
    rw [Stmt.nodesOfAll, List.forall_mem_append] at h
    exact List.forall_mem_cons.mpr ⟨Stmt.complete_document s h.1, Stmt.complete_documents ss h.2⟩

theorem Stmt.complete_optionDocument : ∀ s : Option Stmt,
    (∀ n ∈ Stmt.nodesOfOption s, n.Decided strict) → (Stmt.optionDocument s).Complete strict
  | none, _ => .null
  | some s, h => Stmt.complete_document s h

end

end

/-- **The document of a program is complete**, but for conditions that its nodes lack. -/
theorem Program.complete_document {strict : Bool} {p : Program}
    (h : ∀ n ∈ p.nodes, n.Decided strict) : p.document.Complete strict := by
  have hstatements := Stmt.complete_documents p.statements h
  rw [Complete, Program.document, inside, List.forall_mem_cons]
  refine ⟨isFilled_object rfl rfl ?_, Complete.fields ?_⟩
  · simp [field?, List.lookup]
  · simpa using Complete.list hstatements

end Vorn
