import Vorn.Proofs.Tree.Schema

/-!
# Documents are read back

A document keeps all of a tree but the texts of its tokens: how a number was spelled, and the
literal of the first token of an expression statement (`Program.unspelled`).

* `Program.ofDocument?` reads a tree from a document, by the kind and the parts of every node.
* `Program.ofDocument?_document`: from the document of a program it reads the program, without
  these texts. So no two trees that differ elsewhere have one document.
* `Program.document_unspelled`: the texts are not in the document.
* `document_faithful` puts both together.
-/

namespace Vorn

/-! ## What a document leaves out -/

mutual

/-- The expression without the texts of its tokens. -/
def Expr.unspelled : Expr → Expr
  | .ident p name => .ident p name
  | .int p _ value => .int p "" value
  | .float p _ value => .float p "" value
  | .bool p value => .bool p value
  | .null p => .null p
  | .string p value => .string p value
  | .array p elements => .array p (Expr.unspellAll elements)
  | .hash p pairs => .hash p (Expr.unspellPairs pairs)
  | .func p params body => .func p params body.unspelled
  | .unary p op operand => .unary p op operand.unspelled
  | .binary p op left right => .binary p op left.unspelled right.unspelled
  | .cond p condition consequence alternative =>
    .cond p (Expr.unspellOption condition) consequence.unspelled (Block.unspellOption alternative)
  | .call p callee args => .call p callee.unspelled (Expr.unspellAll args)
  | .index p collection key => .index p collection.unspelled key.unspelled
  | .member p receiver namePos name => .member p receiver.unspelled namePos name
  | .method p receiver namePos name callPos args =>
    .method p receiver.unspelled namePos name callPos (Expr.unspellAll args)
  | .assign p name value => .assign p name value.unspelled
  | .step p op name before => .step p op name before
  | .break p => .break p
  | .continue p => .continue p

def Expr.unspellAll : List Expr → List Expr
  | [] => []
  | e :: es => e.unspelled :: Expr.unspellAll es

def Expr.unspellPairs : List (Expr × Expr) → List (Expr × Expr)
  | [] => []
  | (k, v) :: ps => (k.unspelled, v.unspelled) :: Expr.unspellPairs ps

def Expr.unspellOption : Option Expr → Option Expr
  | none => none
  | some e => some e.unspelled

def Block.unspellOption : Option Block → Option Block
  | none => none
  | some b => some b.unspelled

def Block.unspelled : Block → Block
  | .mk p statements => .mk p (Stmt.unspellAll statements)

def Stmt.unspelled : Stmt → Stmt
  | .expr p _ value => .expr p "" value.unspelled
  | .declare p isConst name value => .declare p isConst name value.unspelled
  | .return p value => .return p (Expr.unspellOption value)
  | .while p condition body => .while p (Expr.unspellOption condition) body.unspelled
  | .for p init condition update body =>
    .for p (Stmt.unspellOption init) (Expr.unspellOption condition) (Expr.unspellOption update)
      body.unspelled
  | .func p name params body => .func p name params body.unspelled

def Stmt.unspellAll : List Stmt → List Stmt
  | [] => []
  | s :: ss => s.unspelled :: Stmt.unspellAll ss

def Stmt.unspellOption : Option Stmt → Option Stmt
  | none => none
  | some s => some s.unspelled

end

/-- A program without the texts of its tokens. Kinds, names, operators, values, clauses and places
are kept. -/
def Program.unspelled (p : Program) : Program := ⟨Stmt.unspellAll p.statements⟩

/-! ## Reading operators and parts -/

/-- The operator that is written as the text. -/
def UnaryOp.ofText? (text : String) : Option UnaryOp :=
  [not, negate, complement].find? (·.text = text)

/-- The operator that is written as the text. -/
def BinaryOp.ofText? (text : String) : Option BinaryOp :=
  [or, and, bitOr, bitXor, bitAnd, eq, ne, lt, gt, le, ge, shiftLeft, shiftRight, add, sub, mul,
   div, mod].find? (·.text = text)

/-- The operator that is written as the text. -/
def StepOp.ofText? (text : String) : Option StepOp :=
  [increment, decrement].find? (·.text = text)

theorem UnaryOp.ofText?_text (op : UnaryOp) : ofText? op.text = some op := by cases op <;> decide

theorem BinaryOp.ofText?_text (op : BinaryOp) : ofText? op.text = some op := by cases op <;> decide

theorem StepOp.ofText?_text (op : StepOp) : ofText? op.text = some op := by cases op <;> decide

namespace Document

def text? : Document → Option String
  | text s => some s
  | _ => none

/-- Null stands for a part that is missing; anything else is read. -/
def orNull {α : Type} (read : Option α) : Document → Option (Option α)
  | null => some none
  | _ => read.map some

theorem mapM_text? (names : List String) : (names.map text).mapM text? = some names := by
  induction names with
  | nil => rfl
  | cons name names ih => simp [text?, ih]

end Document

/-- An expression with a dot behind it, and a name or a call of a name behind the dot. -/
def Expr.chained? (pos : Pos) (receiver : Expr) : Expr → Option Expr
  | ident namePos name => some (member pos receiver namePos name)
  | call callPos (ident namePos name) args =>
    some (method pos receiver namePos name callPos args)
  | _ => none

/-! ## Reading trees -/

mutual

/-- The expression that the document describes. -/
def Expr.ofDocument? : Document → Option Expr
  | .object ((_, .text kind) :: (_, .int line) :: (_, .int column) :: fields) =>
    Expr.ofFields? ⟨line.toNat, column.toNat⟩ kind fields
  | _ => none

/-- The expression at `pos` of a kind and with the given parts. -/
def Expr.ofFields? (pos : Pos) : String → List (String × Document) → Option Expr
  | "Identifier", [(_, .text name)] => some (.ident pos name)
  | "IntegerLiteral", [(_, .int value)] => some (.int pos "" value)
  | "FloatLiteral", [(_, .float value)] => some (.float pos "" value)
  | "BooleanLiteral", [(_, .bool value)] => some (.bool pos value)
  | "NullLiteral", [] => some (.null pos)
  | "StringLiteral", [(_, .text value)] => some (.string pos value)
  | "ArrayLiteral", [(_, .list elements)] => return .array pos (← Expr.allOfDocuments? elements)
  | "HashLiteral", [(_, .list pairs)] => return .hash pos (← Expr.pairsOfDocuments? pairs)
  | "FunctionLiteral", [(_, .list params), (_, body)] =>
    return .func pos (← params.mapM Document.text?) (← Block.ofDocument? body)
  | "PrefixExpression", [(_, .text op), (_, operand)] =>
    return .unary pos (← UnaryOp.ofText? op) (← Expr.ofDocument? operand)
  | "InfixExpression", [(_, .text op), (_, left), (_, right)] =>
    return .binary pos (← BinaryOp.ofText? op) (← Expr.ofDocument? left) (← Expr.ofDocument? right)
  | "IfExpression", [(_, condition), (_, consequence), (_, alternative)] =>
    return .cond pos (← condition.orNull (Expr.ofDocument? condition))
      (← Block.ofDocument? consequence) (← alternative.orNull (Block.ofDocument? alternative))
  | "CallExpression", [(_, callee), (_, .list args)] =>
    return .call pos (← Expr.ofDocument? callee) (← Expr.allOfDocuments? args)
  | "IndexExpression", [(_, collection), (_, key)] =>
    return .index pos (← Expr.ofDocument? collection) (← Expr.ofDocument? key)
  | "ChainingExpression", [(_, receiver), (_, access)] => do
    Expr.chained? pos (← Expr.ofDocument? receiver) (← Expr.ofDocument? access)
  | "ReassignmentExpression", [(_, .text name), (_, value)] =>
    return .assign pos name (← Expr.ofDocument? value)
  | "IncrementDecrementExpression", [(_, .text op), (_, .text name), (_, .bool before)] =>
    return .step pos (← StepOp.ofText? op) name before
  | "BreakExpression", [] => some (.break pos)
  | "ContinueExpression", [] => some (.continue pos)
  | _, _ => none

def Expr.allOfDocuments? : List Document → Option (List Expr)
  | [] => some []
  | d :: ds => return (← Expr.ofDocument? d) :: (← Expr.allOfDocuments? ds)

def Expr.pairsOfDocuments? : List Document → Option (List (Expr × Expr))
  | [] => some []
  | .list [k, v] :: ds =>
    return (← Expr.ofDocument? k, ← Expr.ofDocument? v) :: (← Expr.pairsOfDocuments? ds)
  | _ :: _ => none

def Block.ofDocument? : Document → Option Block
  | .object
      [(_, .text "BlockStatement"), (_, .int line), (_, .int column), (_, .list statements)] =>
    return .mk ⟨line.toNat, column.toNat⟩ (← Stmt.allOfDocuments? statements)
  | _ => none

def Stmt.ofDocument? : Document → Option Stmt
  | .object ((_, .text kind) :: (_, .int line) :: (_, .int column) :: fields) =>
    Stmt.ofFields? ⟨line.toNat, column.toNat⟩ kind fields
  | _ => none

/-- The statement at `pos` of a kind and with the given parts. -/
def Stmt.ofFields? (pos : Pos) : String → List (String × Document) → Option Stmt
  | "ExpressionStatement", [(_, value)] => return .expr pos "" (← Expr.ofDocument? value)
  | "VariableStatement", [(_, .text name), (_, .bool isConst), (_, value)] =>
    return .declare pos isConst name (← Expr.ofDocument? value)
  | "ReturnStatement", [(_, value)] => return .return pos (← value.orNull (Expr.ofDocument? value))
  | "WhileStatement", [(_, condition), (_, body)] =>
    return .while pos (← condition.orNull (Expr.ofDocument? condition)) (← Block.ofDocument? body)
  | "ForStatement", [(_, init), (_, condition), (_, update), (_, body)] =>
    return .for pos (← init.orNull (Stmt.ofDocument? init))
      (← condition.orNull (Expr.ofDocument? condition))
      (← update.orNull (Expr.ofDocument? update)) (← Block.ofDocument? body)
  | "FunctionStatement", [(_, .text name), (_, .list params), (_, body)] =>
    return .func pos name (← params.mapM Document.text?) (← Block.ofDocument? body)
  | _, _ => none

def Stmt.allOfDocuments? : List Document → Option (List Stmt)
  | [] => some []
  | d :: ds => return (← Stmt.ofDocument? d) :: (← Stmt.allOfDocuments? ds)

end

/-- The expression that the document describes; null describes that there is none. -/
def Expr.optionOfDocument? (d : Document) : Option (Option Expr) := d.orNull (Expr.ofDocument? d)

/-- The block that the document describes; null describes that there is none. -/
def Block.optionOfDocument? (d : Document) : Option (Option Block) := d.orNull (Block.ofDocument? d)

/-- The statement that the document describes; null describes that there is none. -/
def Stmt.optionOfDocument? (d : Document) : Option (Option Stmt) := d.orNull (Stmt.ofDocument? d)

/-- The program that a document describes. -/
def Program.ofDocument? : Document → Option Program
  | .object [_, (_, .list statements)] => return ⟨← Stmt.allOfDocuments? statements⟩
  | _ => none

/-! ## Reading what was written -/

theorem Expr.orNull_document {α : Type} (read : Option α) (e : Expr) :
    e.document.orNull read = read.map some := by
  cases e <;> rfl

theorem Stmt.orNull_document {α : Type} (read : Option α) (s : Stmt) :
    s.document.orNull read = read.map some := by
  cases s <;> rfl

mutual

theorem Expr.ofDocument?_document : ∀ e : Expr, Expr.ofDocument? e.document = some e.unspelled
  | .ident _ _ | .int _ _ _ | .float _ _ _ | .bool _ _ | .null _ | .string _ _ | .break _
  | .continue _ => rfl
  | .array pos es => by
    change (do return Expr.array pos (← Expr.allOfDocuments? (Expr.documents es))) = _
    rw [Expr.allOfDocuments?_documents es]
    rfl
  | .hash pos ps => by
    change (do return Expr.hash pos (← Expr.pairsOfDocuments? (Expr.pairDocuments ps))) = _
    rw [Expr.pairsOfDocuments?_pairDocuments ps]
    rfl
  | .func pos params body => by
    change (do
      return Expr.func pos (← (params.map Document.text).mapM Document.text?)
        (← Block.ofDocument? body.document)) = _
    rw [Document.mapM_text?, Block.ofDocument?_document body]
    rfl
  | .unary pos op e => by
    change (do
      return Expr.unary pos (← UnaryOp.ofText? op.text) (← Expr.ofDocument? e.document)) = _
    rw [UnaryOp.ofText?_text, Expr.ofDocument?_document e]
    rfl
  | .binary pos op l r => by
    change (do
      return Expr.binary pos (← BinaryOp.ofText? op.text) (← Expr.ofDocument? l.document)
        (← Expr.ofDocument? r.document)) = _
    rw [BinaryOp.ofText?_text, Expr.ofDocument?_document l, Expr.ofDocument?_document r]
    rfl
  | .cond pos condition consequence alternative => by
    change (do
      return Expr.cond pos
        (← Expr.optionOfDocument? (Expr.optionDocument condition))
        (← Block.ofDocument? consequence.document)
        (← Block.optionOfDocument? (Block.optionDocument alternative))) = _
    rw [Expr.optionOfDocument?_optionDocument condition, Block.ofDocument?_document consequence,
      Block.optionOfDocument?_optionDocument alternative]
    rfl
  | .call pos callee args => by
    change (do
      return Expr.call pos (← Expr.ofDocument? callee.document)
        (← Expr.allOfDocuments? (Expr.documents args))) = _
    rw [Expr.ofDocument?_document callee, Expr.allOfDocuments?_documents args]
    rfl
  | .index pos collection key => by
    change (do
      return Expr.index pos (← Expr.ofDocument? collection.document)
        (← Expr.ofDocument? key.document)) = _
    rw [Expr.ofDocument?_document collection, Expr.ofDocument?_document key]
    rfl
  | .member pos receiver namePos name => by
    change (do
      return Expr.member pos (← Expr.ofDocument? receiver.document) namePos name) = _
    rw [Expr.ofDocument?_document receiver]
    rfl
  | .method pos receiver namePos name callPos args => by
    change (do
      let receiver ← Expr.ofDocument? receiver.document
      let access ← (do
        return Expr.call callPos (.ident namePos name)
          (← Expr.allOfDocuments? (Expr.documents args)))
      Expr.chained? pos receiver access) = _
    rw [Expr.ofDocument?_document receiver, Expr.allOfDocuments?_documents args]
    rfl
  | .assign pos name value => by
    change (do return Expr.assign pos name (← Expr.ofDocument? value.document)) = _
    rw [Expr.ofDocument?_document value]
    rfl
  | .step pos op name before => by
    change (do return Expr.step pos (← StepOp.ofText? op.text) name before) = _
    rw [StepOp.ofText?_text]
    rfl

theorem Expr.allOfDocuments?_documents : ∀ es : List Expr,
    Expr.allOfDocuments? (Expr.documents es) = some (Expr.unspellAll es)
  | [] => rfl
  | e :: es => by
    change (do
      return (← Expr.ofDocument? e.document) :: (← Expr.allOfDocuments? (Expr.documents es))) = _
    rw [Expr.ofDocument?_document e, Expr.allOfDocuments?_documents es]
    rfl

theorem Expr.pairsOfDocuments?_pairDocuments : ∀ ps : List (Expr × Expr),
    Expr.pairsOfDocuments? (Expr.pairDocuments ps) = some (Expr.unspellPairs ps)
  | [] => rfl
  | (k, v) :: ps => by
    change (do
      return (← Expr.ofDocument? k.document, ← Expr.ofDocument? v.document) ::
        (← Expr.pairsOfDocuments? (Expr.pairDocuments ps))) = _
    rw [Expr.ofDocument?_document k, Expr.ofDocument?_document v,
      Expr.pairsOfDocuments?_pairDocuments ps]
    rfl

theorem Expr.optionOfDocument?_optionDocument : ∀ e : Option Expr,
    Expr.optionOfDocument? (Expr.optionDocument e) = some (Expr.unspellOption e)
  | none => rfl
  | some e => by
    change e.document.orNull (Expr.ofDocument? e.document) = _
    rw [Expr.ofDocument?_document e, Expr.orNull_document]
    rfl

theorem Block.optionOfDocument?_optionDocument : ∀ b : Option Block,
    Block.optionOfDocument? (Block.optionDocument b) = some (Block.unspellOption b)
  | none => rfl
  | some (.mk pos statements) => by
    change (Block.ofDocument? (Block.mk pos statements).document).map some = _
    rw [Block.ofDocument?_document (.mk pos statements)]
    rfl

theorem Block.ofDocument?_document : ∀ b : Block, Block.ofDocument? b.document = some b.unspelled
  | .mk pos statements => by
    change (do return Block.mk pos (← Stmt.allOfDocuments? (Stmt.documents statements))) = _
    rw [Stmt.allOfDocuments?_documents statements]
    rfl

theorem Stmt.ofDocument?_document : ∀ s : Stmt, Stmt.ofDocument? s.document = some s.unspelled
  | .expr pos _ value => by
    change (do return Stmt.expr pos "" (← Expr.ofDocument? value.document)) = _
    rw [Expr.ofDocument?_document value]
    rfl
  | .declare pos isConst name value => by
    change (do return Stmt.declare pos isConst name (← Expr.ofDocument? value.document)) = _
    rw [Expr.ofDocument?_document value]
    rfl
  | .return pos value => by
    change (do
      return Stmt.return pos
        (← Expr.optionOfDocument? (Expr.optionDocument value))) = _
    rw [Expr.optionOfDocument?_optionDocument value]
    rfl
  | .while pos condition body => by
    change (do
      return Stmt.while pos
        (← Expr.optionOfDocument? (Expr.optionDocument condition))
        (← Block.ofDocument? body.document)) = _
    rw [Expr.optionOfDocument?_optionDocument condition, Block.ofDocument?_document body]
    rfl
  | .for pos init condition update body => by
    change (do
      return Stmt.for pos
        (← Stmt.optionOfDocument? (Stmt.optionDocument init))
        (← Expr.optionOfDocument? (Expr.optionDocument condition))
        (← Expr.optionOfDocument? (Expr.optionDocument update))
        (← Block.ofDocument? body.document)) = _
    rw [Stmt.optionOfDocument?_optionDocument init, Expr.optionOfDocument?_optionDocument condition,
      Expr.optionOfDocument?_optionDocument update, Block.ofDocument?_document body]
    rfl
  | .func pos name params body => by
    change (do
      return Stmt.func pos name (← (params.map Document.text).mapM Document.text?)
        (← Block.ofDocument? body.document)) = _
    rw [Document.mapM_text?, Block.ofDocument?_document body]
    rfl

theorem Stmt.allOfDocuments?_documents : ∀ ss : List Stmt,
    Stmt.allOfDocuments? (Stmt.documents ss) = some (Stmt.unspellAll ss)
  | [] => rfl
  | s :: ss => by
    change (do
      return (← Stmt.ofDocument? s.document) :: (← Stmt.allOfDocuments? (Stmt.documents ss))) = _
    rw [Stmt.ofDocument?_document s, Stmt.allOfDocuments?_documents ss]
    rfl

theorem Stmt.optionOfDocument?_optionDocument : ∀ s : Option Stmt,
    Stmt.optionOfDocument? (Stmt.optionDocument s) = some (Stmt.unspellOption s)
  | none => rfl
  | some s => by
    change s.document.orNull (Stmt.ofDocument? s.document) = _
    rw [Stmt.ofDocument?_document s, Stmt.orNull_document]
    rfl

end

/-- **From the document of a program the program is read**, without the texts of its tokens. -/
theorem Program.ofDocument?_document (p : Program) : ofDocument? p.document = some p.unspelled := by
  change (do return Program.mk (← Stmt.allOfDocuments? (Stmt.documents p.statements))) = _
  rw [Stmt.allOfDocuments?_documents]
  rfl

/-! ## The texts of tokens are not in the document -/

mutual

theorem Expr.document_unspelled : ∀ e : Expr, e.unspelled.document = e.document
  | .ident _ _ | .int _ _ _ | .float _ _ _ | .bool _ _ | .null _ | .string _ _ | .step _ _ _ _
  | .break _ | .continue _ => rfl
  | .array _ es => by simp only [Expr.unspelled, Expr.document, Expr.documents_unspellAll es]
  | .hash _ ps => by simp only [Expr.unspelled, Expr.document, Expr.pairDocuments_unspellPairs ps]
  | .func _ _ body => by simp only [Expr.unspelled, Expr.document, Block.document_unspelled body]
  | .unary _ _ e => by simp only [Expr.unspelled, Expr.document, Expr.document_unspelled e]
  | .binary _ _ l r => by
    simp only [Expr.unspelled, Expr.document, Expr.document_unspelled l, Expr.document_unspelled r]
  | .cond _ c b a => by
    simp only [Expr.unspelled, Expr.document, Expr.optionDocument_unspellOption c,
      Block.document_unspelled b, Block.optionDocument_unspellOption a]
  | .call _ f es => by
    simp only [Expr.unspelled, Expr.document, Expr.document_unspelled f,
      Expr.documents_unspellAll es]
  | .index _ c k => by
    simp only [Expr.unspelled, Expr.document, Expr.document_unspelled c, Expr.document_unspelled k]
  | .member _ r _ _ => by simp only [Expr.unspelled, Expr.document, Expr.document_unspelled r]
  | .method _ r _ _ _ es => by
    simp only [Expr.unspelled, Expr.document, Expr.document_unspelled r,
      Expr.documents_unspellAll es]
  | .assign _ _ e => by simp only [Expr.unspelled, Expr.document, Expr.document_unspelled e]

theorem Expr.documents_unspellAll : ∀ es : List Expr,
    Expr.documents (Expr.unspellAll es) = Expr.documents es
  | [] => rfl
  | e :: es => by
    simp only [Expr.unspellAll, Expr.documents, Expr.document_unspelled e,
      Expr.documents_unspellAll es]

theorem Expr.pairDocuments_unspellPairs : ∀ ps : List (Expr × Expr),
    Expr.pairDocuments (Expr.unspellPairs ps) = Expr.pairDocuments ps
  | [] => rfl
  | (k, v) :: ps => by
    simp only [Expr.unspellPairs, Expr.pairDocuments, Expr.document_unspelled k,
      Expr.document_unspelled v, Expr.pairDocuments_unspellPairs ps]

theorem Expr.optionDocument_unspellOption : ∀ e : Option Expr,
    Expr.optionDocument (Expr.unspellOption e) = Expr.optionDocument e
  | none => rfl
  | some e => Expr.document_unspelled e

theorem Block.optionDocument_unspellOption : ∀ b : Option Block,
    Block.optionDocument (Block.unspellOption b) = Block.optionDocument b
  | none => rfl
  | some b => Block.document_unspelled b

theorem Block.document_unspelled : ∀ b : Block, b.unspelled.document = b.document
  | .mk _ ss => by simp only [Block.unspelled, Block.document, Stmt.documents_unspellAll ss]

theorem Stmt.document_unspelled : ∀ s : Stmt, s.unspelled.document = s.document
  | .expr _ _ e => by simp only [Stmt.unspelled, Stmt.document, Expr.document_unspelled e]
  | .declare _ _ _ e => by simp only [Stmt.unspelled, Stmt.document, Expr.document_unspelled e]
  | .return _ e => by
    simp only [Stmt.unspelled, Stmt.document, Expr.optionDocument_unspellOption e]
  | .while _ c b => by
    simp only [Stmt.unspelled, Stmt.document, Expr.optionDocument_unspellOption c,
      Block.document_unspelled b]
  | .for _ i c u b => by
    simp only [Stmt.unspelled, Stmt.document, Stmt.optionDocument_unspellOption i,
      Expr.optionDocument_unspellOption c, Expr.optionDocument_unspellOption u,
      Block.document_unspelled b]
  | .func _ _ _ b => by simp only [Stmt.unspelled, Stmt.document, Block.document_unspelled b]

theorem Stmt.documents_unspellAll : ∀ ss : List Stmt,
    Stmt.documents (Stmt.unspellAll ss) = Stmt.documents ss
  | [] => rfl
  | s :: ss => by
    simp only [Stmt.unspellAll, Stmt.documents, Stmt.document_unspelled s,
      Stmt.documents_unspellAll ss]

theorem Stmt.optionDocument_unspellOption : ∀ s : Option Stmt,
    Stmt.optionDocument (Stmt.unspellOption s) = Stmt.optionDocument s
  | none => rfl
  | some s => Stmt.document_unspelled s

end

/-- The document of a program says nothing about the texts of its tokens. -/
theorem Program.document_unspelled (p : Program) : p.unspelled.document = p.document := by
  simp only [document, unspelled, Stmt.documents_unspellAll]

/-- **The document is faithful.** Two programs have one document if and only if they are the same
tree with the same places but for the texts of their tokens: the spelling of numbers, and the
literal of the first token of an expression statement. -/
theorem document_faithful (p q : Program) :
    p.document = q.document ↔ p.unspelled = q.unspelled := by
  constructor
  · intro h
    have hread := Program.ofDocument?_document p
    rw [h, Program.ofDocument?_document q] at hread
    exact (Option.some.inj hread).symm
  · intro h
    rw [← p.document_unspelled, h, q.document_unspelled]

end Vorn
