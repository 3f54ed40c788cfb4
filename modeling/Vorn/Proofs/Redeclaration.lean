import Vorn.Proofs.BoundNames
import Vorn.Proofs.Eval.BlockRule
import Vorn.Proofs.FirstFault
import Vorn.Proofs.Grammar.Accepted

/-!
# What the parser lets pass is never declared twice

The parser refuses a second `let` or `const` of a name in one statement list; it does not look at
functions. The run refuses a declaration whose name its own scope binds. If functions keep apart from
the other declarations of their list (`Program.FunctionsApart`), the two agree: an accepted program
never runs into a name that is taken (`Eval.never_redeclares`), because each run of a list has a
scope of its own, whose names are those of the statements of the list that are done.
-/

namespace Vorn

/-! ## Trees -/

namespace Stmt

/-- The name of a `let` or `const`. -/
def lets? : Stmt → Option String
  | .declare _ _ name _ => some name
  | _ => none

/-- The statement defines a function. -/
def isFunction : Stmt → Bool
  | .func _ _ _ _ => true
  | _ => false

/-- Two statements bind one name, and one of them defines a function. -/
def clash (s s' : Stmt) : Bool :=
  (s.isFunction || s'.isFunction) && (s.binds?.isSome && s.binds? == s'.binds?)

/-- No function of a statement list has the name of another declaration of the list. -/
def FunctionsApart (ss : List Stmt) : Prop := ss.Pairwise fun s s' => s.clash s' = false

instance (ss : List Stmt) : Decidable (FunctionsApart ss) :=
  inferInstanceAs (Decidable (ss.Pairwise fun s s' => s.clash s' = false))

/-- No name is declared twice, if no two `let`s have one name and functions keep apart. -/
theorem nodup_bindings {ss : List Stmt} (hlets : (ss.filterMap lets?).Nodup)
    (hfunctions : FunctionsApart ss) : (bindings ss).Nodup := by
  rw [bindings, List.Nodup, List.pairwise_filterMap] at *
  refine (hlets.and hfunctions).imp ?_
  rintro s s' ⟨hlet, hclash⟩ x hx x' hx' rfl
  simp only [clash, hx, hx', Option.isSome_some, beq_self_eq_true, Bool.and_true,
    Bool.or_eq_false_iff] at hclash
  cases s with
  | declare =>
    cases s' with
    | declare => exact hlet x hx x hx' rfl
    | func => cases hclash.2
    | _ => cases hx'
  | func => cases hclash.1
  | _ => cases hx

/-- A list that passes the check declares no name twice, and none that was declared before. -/
theorem nodup_lets_of_scopeErrors {fs : Frames} {ss : List Stmt} : ∀ {own : Frame},
    scopeErrorsOfAll fs own ss = [] →
      (∀ x ∈ ss.filterMap lets?, own.declared.lookup x = none) ∧ (ss.filterMap lets?).Nodup := by
  induction ss with
  | nil => simp
  | cons s ss ih =>
    intro own h
    simp only [scopeErrorsOfAll, Frames.check, List.append_eq_nil_iff] at h
    obtain ⟨-, ⟨-, hfresh⟩, hrest⟩ := h
    obtain ⟨hfree, hnodup⟩ := ih hrest
    cases s with
    | declare pos isConst name value =>
      have hname : own.declared.lookup name = none := by
        rw [Frame.checkFresh] at hfresh
        split at hfresh
        · cases hfresh
        · exact Option.not_isSome_iff_eq_none.mp ‹_›
      have hfree' : ∀ x ∈ ss.filterMap lets?, own.declared.lookup x = none ∧ x ≠ name := by
        intro x hx
        have hlookup := hfree x hx
        simp only [Frame.add, List.lookup_append, Option.or_eq_none_iff, Scope.lookup_cons] at hlookup
        refine ⟨hlookup.1, ?_⟩
        rintro rfl
        simp at hlookup
      have hcons : (declare pos isConst name value :: ss).filterMap lets? =
          name :: ss.filterMap lets? := rfl
      rw [hcons]
      refine ⟨List.forall_mem_cons.mpr ⟨hname, fun x hx => (hfree' x hx).1⟩,
        List.nodup_cons.mpr ⟨fun hmem => (hfree' name hmem).2 rfl, hnodup⟩⟩
    | _ =>
      rw [List.filterMap_cons_none rfl]
      exact ⟨hfree, hnodup⟩

end Stmt

/-- No statement list in the node declares a name twice, functions apart. -/
def Node.LetsApart (n : Node) : Prop := ∀ b ∈ n.blocks, (b.statements.filterMap Stmt.lets?).Nodup

theorem Node.letsApart_of_blocks_eq_nil {n : Node} (h : n.blocks = []) : n.LetsApart := by
  intro b hb
  rw [h] at hb
  cases hb

mutual

theorem Expr.letsApart : ∀ (e : Expr) {fs : Frames}, e.scopeErrors fs = [] →
    ∀ n ∈ e.nodes, n.LetsApart
  | .ident _ _, _, _ | .int _ _ _, _, _ | .float _ _ _, _, _ | .bool _ _, _, _ | .null _, _, _
  | .string _ _, _, _ | .step _ _ _ _, _, _ | .break _, _, _ | .continue _, _, _ => by
    simp only [Expr.nodes, List.mem_singleton, forall_eq]
    exact Node.letsApart_of_blocks_eq_nil rfl
  | .array _ es, _, h => List.forall_mem_cons.mpr
    ⟨Node.letsApart_of_blocks_eq_nil rfl, Expr.letsApartOfAll es h⟩
  | .hash _ ps, _, h => List.forall_mem_cons.mpr
    ⟨Node.letsApart_of_blocks_eq_nil rfl, Expr.letsApartOfPairs ps h⟩
  | .func _ _ b, _, h => List.forall_mem_cons.mpr
    ⟨List.forall_mem_singleton.mpr (Block.letsApart b h).1, (Block.letsApart b h).2⟩
  | .unary _ _ e, _, h => List.forall_mem_cons.mpr
    ⟨Node.letsApart_of_blocks_eq_nil rfl, Expr.letsApart e h⟩
  | .binary _ _ l r, _, h => by
    obtain ⟨hl, hr⟩ := List.append_eq_nil_iff.mp h
    exact List.forall_mem_cons.mpr ⟨Node.letsApart_of_blocks_eq_nil rfl,
      List.forall_mem_append.mpr ⟨Expr.letsApart l hl, Expr.letsApart r hr⟩⟩
  | .cond _ c b a, _, h => by
    rw [Expr.scopeErrors, List.append_eq_nil_iff, List.append_eq_nil_iff] at h
    obtain ⟨hc, hb, ha⟩ := h
    have hconsequence := Block.letsApart b hb
    have halternative := Block.letsApartOfOption a ha
    rw [Expr.nodes, List.forall_mem_cons, List.forall_mem_append, List.forall_mem_append]
    refine ⟨List.forall_mem_cons.mpr ⟨hconsequence.1, fun b' hb' => ?_⟩,
      Expr.letsApartOfOption c hc, hconsequence.2, halternative.2⟩
    exact halternative.1 b' (Option.mem_toList.mp hb')
  | .call _ f es, _, h => by
    obtain ⟨hf, hes⟩ := List.append_eq_nil_iff.mp h
    exact List.forall_mem_cons.mpr ⟨Node.letsApart_of_blocks_eq_nil rfl,
      List.forall_mem_append.mpr ⟨Expr.letsApart f hf, Expr.letsApartOfAll es hes⟩⟩
  | .index _ c k, _, h => by
    obtain ⟨hc, hk⟩ := List.append_eq_nil_iff.mp h
    exact List.forall_mem_cons.mpr ⟨Node.letsApart_of_blocks_eq_nil rfl,
      List.forall_mem_append.mpr ⟨Expr.letsApart c hc, Expr.letsApart k hk⟩⟩
  | .member _ r _ _, _, h => List.forall_mem_cons.mpr
    ⟨Node.letsApart_of_blocks_eq_nil rfl, Expr.letsApart r h⟩
  | .method _ r _ _ _ es, _, h => by
    obtain ⟨hr, hes⟩ := List.append_eq_nil_iff.mp h
    exact List.forall_mem_cons.mpr ⟨Node.letsApart_of_blocks_eq_nil rfl,
      List.forall_mem_append.mpr ⟨Expr.letsApart r hr, Expr.letsApartOfAll es hes⟩⟩
  | .assign _ _ e, _, h => List.forall_mem_cons.mpr
    ⟨Node.letsApart_of_blocks_eq_nil rfl, Expr.letsApart e h⟩

theorem Expr.letsApartOfAll : ∀ (es : List Expr) {fs : Frames}, Expr.scopeErrorsOfAll fs es = [] →
    ∀ n ∈ Expr.nodesOfAll es, n.LetsApart
  | [], _, _ => fun _ hn => nomatch hn
  | e :: es, _, h => by
    obtain ⟨he, hes⟩ := List.append_eq_nil_iff.mp h
    exact List.forall_mem_append.mpr ⟨Expr.letsApart e he, Expr.letsApartOfAll es hes⟩

theorem Expr.letsApartOfPairs : ∀ (ps : List (Expr × Expr)) {fs : Frames},
    Expr.scopeErrorsOfPairs fs ps = [] → ∀ n ∈ Expr.nodesOfPairs ps, n.LetsApart
  | [], _, _ => fun _ hn => nomatch hn
  | (k, v) :: ps, _, h => by
    rw [Expr.scopeErrorsOfPairs, List.append_eq_nil_iff, List.append_eq_nil_iff] at h
    rw [Expr.nodesOfPairs, List.forall_mem_append, List.forall_mem_append]
    exact ⟨Expr.letsApart k h.1, Expr.letsApart v h.2.1, Expr.letsApartOfPairs ps h.2.2⟩

theorem Expr.letsApartOfOption : ∀ (e : Option Expr) {fs : Frames},
    Expr.scopeErrorsOfOption fs e = [] → ∀ n ∈ Expr.nodesOfOption e, n.LetsApart
  | none, _, _ => fun _ hn => nomatch hn
  | some e, _, h => Expr.letsApart e h

theorem Block.letsApartOfOption : ∀ (b : Option Block) {fs : Frames},
    Block.scopeErrorsOfOption fs b = [] →
      (∀ b' ∈ b, (b'.statements.filterMap Stmt.lets?).Nodup) ∧
        ∀ n ∈ Block.nodesOfOption b, n.LetsApart
  | none, _, _ => ⟨fun _ hb => (nomatch hb), fun _ hn => (nomatch hn)⟩
  | some b, _, h => by
    refine ⟨fun b' hb' => ?_, (Block.letsApart b h).2⟩
    cases hb'
    exact (Block.letsApart b h).1

theorem Block.letsApart : ∀ (b : Block) {fs : Frames} {params : List String},
    b.scopeErrors fs params = [] →
      (b.statements.filterMap Stmt.lets?).Nodup ∧ ∀ n ∈ b.nodes, n.LetsApart
  | .mk _ ss, _, _, h => ⟨(Stmt.nodup_lets_of_scopeErrors h).2, Stmt.letsApartOfAll ss h⟩

theorem Stmt.letsApart : ∀ (s : Stmt) {fs : Frames}, s.scopeErrors fs = [] →
    ∀ n ∈ s.nodes, n.LetsApart
  | .expr _ _ e, _, h | .declare _ _ _ e, _, h => List.forall_mem_cons.mpr
    ⟨Node.letsApart_of_blocks_eq_nil rfl, Expr.letsApart e h⟩
  | .return _ e, _, h => List.forall_mem_cons.mpr
    ⟨Node.letsApart_of_blocks_eq_nil rfl, Expr.letsApartOfOption e h⟩
  | .while _ c b, _, h => by
    obtain ⟨hc, hb⟩ := List.append_eq_nil_iff.mp h
    exact List.forall_mem_cons.mpr ⟨List.forall_mem_singleton.mpr (Block.letsApart b hb).1,
      List.forall_mem_append.mpr ⟨Expr.letsApartOfOption c hc, (Block.letsApart b hb).2⟩⟩
  | .for _ i c u b, _, h => by
    rw [Stmt.scopeErrors] at h
    simp only [List.append_eq_nil_iff] at h
    obtain ⟨hi, hc, hu, -, hb⟩ := h
    rw [Stmt.nodes, List.forall_mem_cons, List.forall_mem_append, List.forall_mem_append,
      List.forall_mem_append]
    exact ⟨List.forall_mem_singleton.mpr (Block.letsApart b hb).1, Stmt.letsApartOfInit i hi,
      Expr.letsApartOfOption c hc, Expr.letsApartOfOption u hu, (Block.letsApart b hb).2⟩
  | .func _ _ _ b, _, h => List.forall_mem_cons.mpr
    ⟨List.forall_mem_singleton.mpr (Block.letsApart b h).1, (Block.letsApart b h).2⟩

theorem Stmt.letsApartOfAll : ∀ (ss : List Stmt) {fs : Frames} {own : Frame},
    Stmt.scopeErrorsOfAll fs own ss = [] → ∀ n ∈ Stmt.nodesOfAll ss, n.LetsApart
  | [], _, _, _ => fun _ hn => nomatch hn
  | s :: ss, _, _, h => by
    rw [Stmt.scopeErrorsOfAll, List.append_eq_nil_iff, List.append_eq_nil_iff] at h
    exact List.forall_mem_append.mpr ⟨Stmt.letsApart s h.1, Stmt.letsApartOfAll ss h.2.2⟩

theorem Stmt.letsApartOfInit : ∀ (s : Option Stmt) {fs : Frames},
    Stmt.scopeErrorsOfInit fs s = [] → ∀ n ∈ Stmt.nodesOfOption s, n.LetsApart
  | none, _, _ => fun _ hn => nomatch hn
  | some s, _, h => Stmt.letsApart s (List.append_eq_nil_iff.mp h).1

end

/-- No function has the name of another declaration that stands directly in the same statement
list, in the whole program. -/
structure Program.FunctionsApart (p : Program) : Prop where
  statements : Stmt.FunctionsApart p.statements
  blocks : ∀ n ∈ p.nodes, ∀ b ∈ n.blocks, Stmt.FunctionsApart b.statements

instance (p : Program) : Decidable p.FunctionsApart :=
  decidable_of_iff (Stmt.FunctionsApart p.statements ∧
      ∀ n ∈ p.nodes, ∀ b ∈ n.blocks, Stmt.FunctionsApart b.statements)
    ⟨fun ⟨h₁, h₂⟩ => ⟨h₁, h₂⟩, fun ⟨h₁, h₂⟩ => ⟨h₁, h₂⟩⟩

/-- In every statement list of an accepted program whose functions keep apart, all names differ. -/
theorem nodup_bindings_of_accepted {source : String} {p : Program} (hparse : parse? source = .ok p)
    (hapart : p.FunctionsApart) :
    (Stmt.bindings p.statements).Nodup ∧
      ∀ n ∈ p.nodes, ∀ b ∈ n.blocks, (Stmt.bindings b.statements).Nodup := by
  have herrors := scopeErrors_of_accepted hparse
  refine ⟨Stmt.nodup_bindings (Stmt.nodup_lets_of_scopeErrors herrors).2 hapart.statements,
    fun n hn b hb => ?_⟩
  exact Stmt.nodup_bindings (Stmt.letsApartOfAll p.statements herrors n hn b hb)
    (hapart.blocks n hn b hb)

/-! ## Runs -/

/-- All names in each block differ. -/
def BlockRule.distinct : BlockRule where
  ints := .all
  Signals := True
  Keeps n := ∀ b ∈ n.blocks, (Stmt.bindings b.statements).Nodup
  literal _ := trivial
  placed h := absurd trivial h
  Assumed _ := True
  sizes _ := Ints.sizes_all _
  Fit b := (Stmt.bindings b.statements).Nodup
  fit h hb := h _ hb

/-- Every reason to stop but a name that is taken. -/
def Reasons.undeclared : Reasons where
  Allows
    | .fault f => f.cause.isRedeclaration = false
    | _ => True
  common {stop} h := by
    cases stop with
    | fault f => simpa [Stop.isCommon] using h
    | _ => trivial

namespace Eval

/-- Every block that is run in the program binds different names. -/
theorem fit_of_distinct {settings : Settings} {p : Program}
    (hdistinct : ∀ n ∈ p.nodes, ∀ b ∈ n.blocks, (Stmt.bindings b.statements).Nodup) :
    ∀ m ∈ programHistory settings p Session.start, m.Starts (Task.Fit .undeclared) := by
  have hstart : BlockRule.distinct.contract.Holds () Session.start.store :=
    ⟨Law.admitsStore_start, trivial⟩
  obtain ⟨⟨⟩, halong, -⟩ := @Contract.Discipline.program BlockRule.distinct.contract
    settings () _ BlockRule.discipline p hstart (BlockRule.seq hdistinct) fun _ _ => trivial
  intro m hm
  obtain ⟨⟨⟩, -, -, hat⟩ := halong.at_of_mem hm
  match m, hat with
  | .finished _ _, _ => trivial
  | .started (.block b r) s, hat => exact ⟨fun _ => trivial, .inl hat.2.1⟩
  | .started (.expr e r) s, _ | .started (.stmt st r) s, _ | .started (.apply pos f args) s, _ =>
    exact ⟨fun _ => trivial, .inl .nil⟩

/-- **No name is declared twice.** An accepted program whose functions keep apart from the other
declarations of their statement lists never fails because a name is taken, whatever loops, calls
and callbacks it runs: no task in it does, and neither does the program. -/
theorem never_redeclares {source : String} {p : Program} (settings : Settings)
    (hparse : parse? source = .ok p) (hapart : p.FunctionsApart) :
    (∀ m ∈ programHistory settings p Session.start, ∀ f, m.fault? = some f →
        ∀ name, f.cause ≠ .alreadyDefined name) ∧
      ∀ f, (Session.run settings p Session.start).1 = .fault f →
        ∀ name, f.cause ≠ .alreadyDefined name := by
  obtain ⟨hstatements, hblocks⟩ := nodup_bindings_of_accepted hparse hapart
  have hfree : FreeFor .undeclared Scopes.root p.statements (opened settings p Session.start) := by
    refine .inl ⟨hstatements, fun x _ => ?_⟩
    rw [opened, Run.traced_store]
    rfl
  have hroot : Scopes.root.index < (opened settings p Session.start).store.scopes.size := by
    rw [opened, Run.traced_store]
    decide
  obtain ⟨hend, hmoments⟩ := sound_names.program (ensures_runTopLevel hroot hfree)
    (fit_of_distinct hblocks)
  have hcause : ∀ {f : Fault}, f.cause.isRedeclaration = false → ∀ name,
      f.cause ≠ .alreadyDefined name := by
    intro f h name hname
    rw [hname] at h
    cases h
  refine ⟨fun m hm f hf => ?_, fun f hf => ?_⟩
  · obtain ⟨s, t, rfl⟩ := Moment.exists_failsWith hf
    obtain ⟨_, _, _, hstops⟩ := hmoments _ hm
    exact hcause hstops
  · obtain ⟨s', hended⟩ := ended_of_fault hf
    rw [hended] at hend
    exact hcause hend

/-- A function that calls itself is called back, and each run declares the same names. -/
def redeclaringText : String :=
  "func f(x) \x7b let y = x; if (y) \x7b let y = f(0); \x7d return y; \x7d let y = [0, 1].map(f);"

theorem never_redeclares_redeclaringText :
    ∃ p, parse? redeclaringText = .ok p ∧ p.FunctionsApart ∧
      ∀ m ∈ programHistory {} p Session.start, ∀ f, m.fault? = some f →
        ∀ name, f.cause ≠ .alreadyDefined name := by
  have hfacts : (parse redeclaringText).2 = [] ∧ (parse redeclaringText).1.FunctionsApart := by
    decide +kernel
  have hparse := parse?_eq_ok.mpr (Prod.ext rfl hfacts.1)
  exact ⟨_, hparse, hfacts.2, (never_redeclares {} hparse hfacts.2).1⟩

/-- Without the condition on functions the two checks differ: the parser accepts two functions of one
name, and the second definition fails. -/
example : (match (Session.step {} "func f() \x7b\x7d func f() \x7b\x7d" Session.start).1 with
      | .ran (.fault f) => f.message
      | _ => "") = "[1:14] variable already defined: f" := by
  decide +kernel

end Eval

end Vorn
