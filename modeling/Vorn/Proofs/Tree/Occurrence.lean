import Vorn.Proofs.Tree.Schema
import Vorn.Tree.Render

/-!
# Every node is shown

Nothing of a tree is lost when it is written: the source form of each node is a part of the text of
the program, and the document of each node stands inside the document of the program, whatever the
tree (`Program.shown`).
-/

namespace Vorn

open Document

def Node.text : Node → String
  | .expr e => e.text
  | .stmt s => s.text

def Node.document : Node → Document
  | .expr e => e.document
  | .stmt s => s.document

/-- The nodes are parts of a text and of a document. -/
def Shown (t : String) (d : Document) (ns : List Node) : Prop :=
  ∀ n ∈ ns, n.text.toList <:+: t.toList ∧ n.document ∈ d.inside

/-! ## Parts -/

/-- A text between two others. -/
theorem infix_between {s t : String} (a b : String) (h : t = a ++ s ++ b) :
    s.toList <:+: t.toList :=
  ⟨a.toList, b.toList, by rw [h, String.toList_append, String.toList_append]⟩

theorem infix_intercalate (sep : String) {x : String} : ∀ {xs : List String}, x ∈ xs →
    x.toList <:+: (String.intercalate sep xs).toList
  | [y], h => by
    have hy : x = y := List.mem_singleton.mp h
    exact infix_between "" "" (by simp [hy])
  | y :: z :: ys, h => by
    rw [String.intercalate_cons_cons]
    rcases List.mem_cons.mp h with rfl | h
    · exact infix_between "" (sep ++ String.intercalate sep (z :: ys)) (by simp [String.append_assoc])
    · exact (infix_intercalate sep h).trans (infix_between (y ++ sep) "" (by simp))

theorem infix_parenthesized {x : String} {xs : List String} (h : x ∈ xs) :
    x.toList <:+: (parenthesized xs).toList :=
  (infix_intercalate _ h).trans (infix_between "(" ")" rfl)

theorem infix_braced {x : String} : ∀ {xs : List String}, x ∈ xs →
    x.toList <:+: (braced xs).toList
  | _ :: _, h => (infix_intercalate _ h).trans (infix_between "\x7b " " \x7d" rfl)

namespace Document

theorem inside_self (d : Document) : d ∈ d.inside := by
  cases d <;> exact List.mem_cons_self

theorem inside_item {d : Document} : ∀ {ds : List Document}, d ∈ ds →
    d.inside ⊆ (list ds).inside := by
  intro ds h
  suffices hitems : d.inside ⊆ insideItems ds from
    List.subset_cons_of_subset _ hitems
  induction ds with
  | nil => cases h
  | cons e ds ih =>
    rcases List.mem_cons.mp h with rfl | h
    · exact List.subset_append_left _ _
    · exact List.subset_append_of_subset_right _ (ih h)

theorem inside_field {d : Document} {name : String} : ∀ {fs : List (String × Document)},
    (name, d) ∈ fs → d.inside ⊆ (object fs).inside := by
  intro fs h
  suffices hfields : d.inside ⊆ insideFields fs from
    List.subset_cons_of_subset _ hfields
  induction fs with
  | nil => cases h
  | cons f fs ih =>
    rcases List.mem_cons.mp h with rfl | h
    · exact List.subset_append_left _ _
    · exact List.subset_append_of_subset_right _ (ih h)

theorem inside_node {d : Document} {kind : String} {pos : Pos} {fs : List (String × Document)}
    (name : String) (h : (name, d) ∈ fs) :
    d.inside ⊆ (node kind pos fs).inside :=
  inside_field (List.mem_append_right _ h)

end Document

namespace Shown

variable {t t' : String} {d d' : Document} {n : Node} {ms ns : List Node}

theorem nil : Shown t d [] := fun _ hn => nomatch hn

theorem mono (h : Shown t d ns) (ht : t.toList <:+: t'.toList) (hd : d.inside ⊆ d'.inside) :
    Shown t' d' ns :=
  fun n hn => ⟨(h n hn).1.trans ht, hd (h n hn).2⟩

theorem append (hm : Shown t d ms) (hn : Shown t d ns) : Shown t d (ms ++ ns) :=
  List.forall_mem_append.mpr ⟨hm, hn⟩

/-- A node is shown as itself. -/
theorem node (h : Shown n.text n.document ns) : Shown n.text n.document (n :: ns) :=
  List.forall_mem_cons.mpr ⟨⟨List.infix_refl _, inside_self _⟩, h⟩

theorem expr {e : Expr} (h : Shown e.text e.document ns) :
    Shown e.text e.document (.expr e :: ns) :=
  node (n := .expr e) h

theorem stmt {s : Stmt} (h : Shown s.text s.document ns) :
    Shown s.text s.document (.stmt s :: ns) :=
  node (n := .stmt s) h

end Shown

/-! ## Trees -/

theorem Expr.texts_eq (es : List Expr) : Expr.texts es = es.map Expr.text := by
  induction es with
  | nil => rfl
  | cons e es ih =>
    change e.text :: Expr.texts es = _
    rw [ih, List.map_cons]

theorem Expr.pairTexts_eq (ps : List (Expr × Expr)) :
    Expr.pairTexts ps = ps.map fun p => p.1.text ++ ": " ++ p.2.text := by
  induction ps with
  | nil => rfl
  | cons p ps ih =>
    change (p.1.text ++ ": " ++ p.2.text) :: Expr.pairTexts ps = _
    rw [ih, List.map_cons]

theorem Stmt.texts_eq (ss : List Stmt) : Stmt.texts ss = ss.map Stmt.text := by
  induction ss with
  | nil => rfl
  | cons s ss ih =>
    change s.text :: Stmt.texts ss = _
    rw [ih, List.map_cons]

theorem Stmt.nodesOfAll_eq (ss : List Stmt) : Stmt.nodesOfAll ss = ss.flatMap Stmt.nodes := by
  induction ss with
  | nil => rfl
  | cons s ss ih =>
    change s.nodes ++ Stmt.nodesOfAll ss = _
    rw [ih, List.flatMap_cons]

namespace Shown

variable {t : String} {d : Document}

/-- Items that are shown where they stand are shown in the whole. -/
theorem flatMap {α : Type} {xs : List α} {text : α → String} {document : α → Document}
    {nodes : α → List Node} (h : ∀ x ∈ xs, Shown (text x) (document x) (nodes x))
    (ht : ∀ x ∈ xs.map text, x.toList <:+: t.toList)
    (hd : (list (xs.map document)).inside ⊆ d.inside) : Shown t d (xs.flatMap nodes) := by
  intro n hn
  obtain ⟨x, hx, hn⟩ := List.mem_flatMap.mp hn
  have hinside : (document x).inside ⊆ (list (xs.map document)).inside :=
    inside_item (List.mem_map_of_mem hx)
  exact (h x hx).mono (ht _ (List.mem_map_of_mem hx)) (List.Subset.trans hinside hd) n hn

theorem exprs {es : List Expr} (h : ∀ e ∈ es, Shown e.text e.document e.nodes)
    (ht : ∀ x ∈ Expr.texts es, x.toList <:+: t.toList)
    (hd : (list (Expr.documents es)).inside ⊆ d.inside) : Shown t d (Expr.nodesOfAll es) := by
  rw [Expr.texts_eq] at ht
  rw [Expr.documents_eq] at hd
  rw [Expr.nodesOfAll_eq]
  exact flatMap h ht hd

theorem pairs {ps : List (Expr × Expr)}
    (h : ∀ p ∈ ps, Shown (p.1.text ++ ": " ++ p.2.text) (list [p.1.document, p.2.document])
      (p.1.nodes ++ p.2.nodes))
    (ht : ∀ x ∈ Expr.pairTexts ps, x.toList <:+: t.toList)
    (hd : (list (Expr.pairDocuments ps)).inside ⊆ d.inside) :
    Shown t d (Expr.nodesOfPairs ps) := by
  have hnodes : Expr.nodesOfPairs ps = ps.flatMap fun p => p.1.nodes ++ p.2.nodes := by
    rw [Expr.nodesOfPairs_eq, List.flatMap_assoc]
    simp
  rw [Expr.pairTexts_eq] at ht
  rw [Expr.pairDocuments_eq] at hd
  rw [hnodes]
  exact flatMap h ht hd

theorem stmts {ss : List Stmt} (h : ∀ s ∈ ss, Shown s.text s.document s.nodes)
    (ht : ∀ x ∈ Stmt.texts ss, x.toList <:+: t.toList)
    (hd : (list (Stmt.documents ss)).inside ⊆ d.inside) : Shown t d (Stmt.nodesOfAll ss) := by
  rw [Stmt.texts_eq] at ht
  rw [Stmt.documents_eq] at hd
  rw [Stmt.nodesOfAll_eq]
  exact flatMap h ht hd

end Shown

mutual

theorem Expr.shown : ∀ e : Expr, Shown e.text e.document e.nodes
  | .ident _ _ | .int _ _ _ | .float _ _ _ | .bool _ _ | .null _ | .string _ _
  | .step _ _ _ _ | .break _ | .continue _ => .expr .nil
  | .array _ es => .expr <| .exprs (Expr.shownAll es)
      (fun _ hx => (infix_intercalate _ hx).trans (infix_between "[" "]" rfl))
      (inside_node "elements" (by simp))
  | .hash _ ps => .expr <| .pairs (Expr.shownPairs ps)
      (fun _ hx => (infix_intercalate _ hx).trans (infix_between "\x7b" "\x7d" rfl))
      (inside_node "pairs" (by simp))
  | .func _ ps b => .expr <| (Block.shown b).mono
      (infix_between ("func" ++ parenthesized ps ++ " ") "" (by simp [Expr.text]))
      (inside_node "body" (by simp))
  | .unary _ op e => .expr <| (Expr.shown e).mono
      (infix_between ("(" ++ op.text) ")" rfl) (inside_node "right" (by simp))
  | .binary _ op l r => .expr <| .append
      ((Expr.shown l).mono
        (infix_between "(" (" " ++ op.text ++ " " ++ r.text ++ ")")
          (by simp [Expr.text, String.append_assoc]))
        (inside_node "left" (by simp)))
      ((Expr.shown r).mono
        (infix_between ("(" ++ l.text ++ " " ++ op.text ++ " ") ")" rfl)
        (inside_node "right" (by simp)))
  | .cond _ c b a => .expr <| .append
      ((Expr.shownOption c).mono
        (infix_between "if (" (") " ++ b.text ++ Block.alternativeText a)
          (by simp [Expr.text, String.append_assoc]))
        (inside_node "condition" (by simp))) <| .append
      ((Block.shown b).mono
        (infix_between ("if (" ++ Expr.optionText c ++ ") ") (Block.alternativeText a) rfl)
        (inside_node "consequence" (by simp)))
      ((Block.shownOption a).mono
        (infix_between ("if (" ++ Expr.optionText c ++ ") " ++ b.text) "" (by simp [Expr.text]))
        (inside_node "alternative" (by simp)))
  | .call _ f args => .expr <| .append
      ((Expr.shown f).mono
        (infix_between "" (parenthesized (Expr.texts args)) (by simp [Expr.text]))
        (inside_node "function" (by simp)))
      (.exprs (Expr.shownAll args)
        (fun _ hx => (infix_parenthesized hx).trans
          (infix_between f.text "" (by simp [Expr.text])))
        (inside_node "arguments" (by simp)))
  | .index _ c k => .expr <| .append
      ((Expr.shown c).mono
        (infix_between "(" ("[" ++ k.text ++ "])") (by simp [Expr.text, String.append_assoc]))
        (inside_node "left" (by simp)))
      ((Expr.shown k).mono (infix_between ("(" ++ c.text ++ "[") "])" rfl)
        (inside_node "index" (by simp)))
  | .member _ r _ name => .expr <| (Expr.shown r).mono
      (infix_between "(" ("." ++ name ++ ")") (by simp [Expr.text, String.append_assoc]))
      (inside_node "left" (by simp))
  | .method _ r _ name _ args => .expr <| .append
      ((Expr.shown r).mono
        (infix_between "(" ("." ++ name ++ parenthesized (Expr.texts args) ++ ")")
          (by simp [Expr.text, String.append_assoc]))
        (inside_node "left" (by simp)))
      (.exprs (Expr.shownAll args)
        (fun _ hx => (infix_parenthesized hx).trans
          (infix_between ("(" ++ r.text ++ "." ++ name) ")" rfl))
        (List.Subset.trans (inside_node "arguments" (List.mem_cons_of_mem _ List.mem_cons_self))
          (inside_node "right" (List.mem_cons_of_mem _ List.mem_cons_self))))
  | .assign _ name v => .expr <| (Expr.shown v).mono
      (infix_between (name ++ " = ") "" (by simp [Expr.text])) (inside_node "value" (by simp))

theorem Expr.shownAll : ∀ es : List Expr, ∀ e ∈ es, Shown e.text e.document e.nodes
  | [] => fun _ he => nomatch he
  | e :: es => List.forall_mem_cons.mpr ⟨Expr.shown e, Expr.shownAll es⟩

theorem Expr.shownPairs : ∀ ps : List (Expr × Expr), ∀ p ∈ ps,
    Shown (p.1.text ++ ": " ++ p.2.text) (list [p.1.document, p.2.document])
      (p.1.nodes ++ p.2.nodes)
  | [] => fun _ hp => nomatch hp
  | (k, v) :: ps => List.forall_mem_cons.mpr ⟨.append
      ((Expr.shown k).mono (infix_between "" (": " ++ v.text) (by simp [String.append_assoc]))
        (inside_item (by simp)))
      ((Expr.shown v).mono (infix_between (k.text ++ ": ") "" (by simp)) (inside_item (by simp))),
    Expr.shownPairs ps⟩

theorem Expr.shownOption : ∀ e : Option Expr,
    Shown (Expr.optionText e) (Expr.optionDocument e) (Expr.nodesOfOption e)
  | none => .nil
  | some e => Expr.shown e

theorem Block.shownOption : ∀ b : Option Block,
    Shown (Block.alternativeText b) (Block.optionDocument b) (Block.nodesOfOption b)
  | none => .nil
  | some b => (Block.shown b).mono
      (infix_between " else " "" (by simp [Block.alternativeText])) (List.Subset.refl _)

theorem Block.shown : ∀ b : Block, Shown b.text b.document b.nodes
  | .mk _ ss => .stmts (Stmt.shownAll ss) (fun _ hx => infix_braced hx)
      (inside_node "statements" (by simp))

theorem Stmt.shown : ∀ s : Stmt, Shown s.text s.document s.nodes
  | .expr _ _ e => .stmt <| (Expr.shown e).mono
      (infix_between "" ";" (by simp [Stmt.text])) (inside_node "expression" (by simp))
  | .declare _ isConst name v => .stmt <| (Expr.shown v).mono
      (infix_between ((if isConst then "const" else "let") ++ " " ++ name ++ " = ") ";" rfl)
      (inside_node "value" (by simp))
  | .return _ none => .stmt .nil
  | .return _ (some v) => .stmt <| (Expr.shown v).mono
      (infix_between "return " ";" rfl) (inside_node "value" (by simp [Expr.optionDocument]))
  | .while _ c b => .stmt <| .append
      ((Expr.shownOption c).mono
        (infix_between "while (" (") " ++ b.text) (by simp [Stmt.text, String.append_assoc]))
        (inside_node "condition" (by simp)))
      ((Block.shown b).mono
        (infix_between ("while (" ++ Expr.optionText c ++ ") ") "" (by simp [Stmt.text]))
        (inside_node "body" (by simp)))
  | .for _ i c u b => .stmt <| .append
      ((Stmt.shownInit i).mono
        (infix_between "for ("
          (" " ++ Expr.optionText c ++ "; " ++ Expr.optionText u ++ ") " ++ b.text)
          (by simp [Stmt.text, String.append_assoc]))
        (inside_node "init" (by simp))) <| .append
      ((Expr.shownOption c).mono
        (infix_between ("for (" ++ Stmt.initText i ++ " ")
          ("; " ++ Expr.optionText u ++ ") " ++ b.text) (by simp [Stmt.text, String.append_assoc]))
        (inside_node "condition" (by simp))) <| .append
      ((Expr.shownOption u).mono
        (infix_between ("for (" ++ Stmt.initText i ++ " " ++ Expr.optionText c ++ "; ")
          (") " ++ b.text) (by simp [Stmt.text, String.append_assoc]))
        (inside_node "update" (by simp)))
      ((Block.shown b).mono
        (infix_between
          ("for (" ++ Stmt.initText i ++ " " ++ Expr.optionText c ++ "; " ++ Expr.optionText u
            ++ ") ") "" (by simp [Stmt.text]))
        (inside_node "body" (by simp)))
  | .func _ name ps b => .stmt <| (Block.shown b).mono
      (infix_between ("func " ++ name ++ parenthesized ps ++ " ") "" (by simp [Stmt.text]))
      (inside_node "body" (by simp))

theorem Stmt.shownAll : ∀ ss : List Stmt, ∀ s ∈ ss, Shown s.text s.document s.nodes
  | [] => fun _ hs => nomatch hs
  | s :: ss => List.forall_mem_cons.mpr ⟨Stmt.shown s, Stmt.shownAll ss⟩

theorem Stmt.shownInit : ∀ s : Option Stmt,
    Shown (Stmt.initText s) (Stmt.optionDocument s) (Stmt.nodesOfOption s)
  | none => .nil
  | some s => Stmt.shown s

end

/-- **The text and the document of a program show all its nodes.** -/
theorem Program.shown (p : Program) : Shown p.text p.document p.nodes :=
  .stmts (Stmt.shownAll p.statements) (fun _ hx => infix_intercalate _ hx)
    (inside_field (List.mem_cons_of_mem _ List.mem_cons_self))

end Vorn
