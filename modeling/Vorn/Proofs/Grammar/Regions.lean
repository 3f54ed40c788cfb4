import Vorn.Proofs.Grammar.ScopePass

/-!
# The rules on names, told with statements

A name is looked up in the statements themselves. A `Region` is a statement list as far as it is
finished; around a node there is a list of regions, from the nearest outward. The pass `nameErrors`
walks over a finished tree and applies the two rules wherever a statement, the first clause or the
last clause of a `for` is complete.

* `Program.nameErrors_eq`: the pass with frames, which keeps the declared names only, finds the same.
-/

namespace Vorn

/-- The finished statements of a list, with the parameters if it is the body of a function. -/
structure Region where
  finished : List Stmt := []
  params : List String := []

/-- Regions from the nearest outward. -/
abbrev Regions := List Region

/-- Whether the statement declares the name as a constant, if it declares the name. Only `let` and
`const` count. -/
def Stmt.declares? (name : String) : Stmt → Option Bool
  | .declare _ isConst declared _ => if declared = name then some isConst else none
  | _ => none

namespace Region

/-- The first declaration of the name in the list. -/
def declares? (name : String) (r : Region) : Option Bool :=
  r.finished.findSome? (Stmt.declares? name)

def finish (r : Region) (s : Stmt) : Region := { r with finished := r.finished ++ [s] }

/-- A finished declaration against the declarations before it in its own list. -/
def checkFresh (own : Region) : Stmt → List ParseError
  | .declare pos _ name _ => if (own.declares? name).isSome then [.redefined pos name] else []
  | _ => []

end Region

namespace Regions

/-- The nearest region that declares the name declares a constant. Parameters declare variables. -/
def isConst (name : String) : Regions → Bool
  | [] => false
  | r :: rs =>
    match r.declares? name with
    | some constant => constant
    | none => if name ∈ r.params then false else isConst name rs

/-- A finished assignment against the declaration of its name. -/
def checkTarget (rs : Regions) : Option (Pos × String) → List ParseError
  | some (pos, name) => if rs.isConst name then [.constAssigned pos name] else []
  | none => []

/-- A finished statement of the list `own` inside `outer`. -/
def check (own : Region) (outer : Regions) (s : Stmt) : List ParseError :=
  checkTarget (own :: outer) s.target? ++ own.checkFresh s

end Regions

/-! ## The pass -/

mutual

def Expr.nameErrors (rs : Regions) : Expr → List ParseError
  | .ident _ _ | .int _ _ _ | .float _ _ _ | .bool _ _ | .null _ | .string _ _ | .step _ _ _ _
  | .break _ | .continue _ => []
  | .array _ elements => Expr.nameErrorsOfAll rs elements
  | .hash _ pairs => Expr.nameErrorsOfPairs rs pairs
  | .func _ params body => body.nameErrors rs params
  | .unary _ _ operand => operand.nameErrors rs
  | .binary _ _ left right => left.nameErrors rs ++ right.nameErrors rs
  | .cond _ condition consequence alternative =>
    Expr.nameErrorsOfOption rs condition ++ (consequence.nameErrors rs [] ++
      Block.nameErrorsOfOption rs alternative)
  | .call _ callee args => callee.nameErrors rs ++ Expr.nameErrorsOfAll rs args
  | .index _ collection key => collection.nameErrors rs ++ key.nameErrors rs
  | .member _ receiver _ _ => receiver.nameErrors rs
  | .method _ receiver _ _ _ args => receiver.nameErrors rs ++ Expr.nameErrorsOfAll rs args
  | .assign _ _ value => value.nameErrors rs

def Expr.nameErrorsOfAll (rs : Regions) : List Expr → List ParseError
  | [] => []
  | e :: es => e.nameErrors rs ++ Expr.nameErrorsOfAll rs es

def Expr.nameErrorsOfPairs (rs : Regions) : List (Expr × Expr) → List ParseError
  | [] => []
  | (k, v) :: ps => k.nameErrors rs ++ (v.nameErrors rs ++ Expr.nameErrorsOfPairs rs ps)

def Expr.nameErrorsOfOption (rs : Regions) : Option Expr → List ParseError
  | none => []
  | some e => e.nameErrors rs

def Block.nameErrorsOfOption (rs : Regions) : Option Block → List ParseError
  | none => []
  | some b => b.nameErrors rs []

def Block.nameErrors (rs : Regions) (params : List String) : Block → List ParseError
  | .mk _ statements => Stmt.nameErrorsOfAll rs { params } statements

/-- The last clause of a `for` and the body stand inside the loop, whose region holds the first
clause. -/
def Stmt.nameErrors (rs : Regions) : Stmt → List ParseError
  | .expr _ _ value => value.nameErrors rs
  | .declare _ _ _ value => value.nameErrors rs
  | .return _ value => Expr.nameErrorsOfOption rs value
  | .while _ condition body => Expr.nameErrorsOfOption rs condition ++ body.nameErrors rs []
  | .for _ init condition update body =>
    let inner : Regions := { finished := init.toList } :: rs
    Stmt.nameErrorsOfInit rs init ++ (Expr.nameErrorsOfOption inner condition ++
      (Expr.nameErrorsOfOption inner update ++
        (inner.checkTarget (update.bind Expr.target?) ++ body.nameErrors inner [])))
  | .func _ _ params body => body.nameErrors rs params

/-- The statements behind those of `own`. -/
def Stmt.nameErrorsOfAll (rs : Regions) (own : Region) : List Stmt → List ParseError
  | [] => []
  | s :: ss =>
    s.nameErrors (own :: rs) ++ (Regions.check own rs s ++
      Stmt.nameErrorsOfAll rs (own.finish s) ss)

/-- The first clause of a `for`, while nothing in the region of the loop is finished. -/
def Stmt.nameErrorsOfInit (rs : Regions) : Option Stmt → List ParseError
  | none => []
  | some s => s.nameErrors ({} :: rs) ++ Regions.checkTarget ({} :: rs) s.target?

end

/-- What breaks the rules on names in a program, in the order in which statements are complete. -/
def Program.nameErrors (p : Program) : List ParseError := Stmt.nameErrorsOfAll [] {} p.statements

/-! ## Frames of regions -/

/-- What a frame keeps of a region. -/
def Region.frame (r : Region) : Frame := r.finished.foldl Frame.add { params := r.params }

@[simp] theorem Region.frame_params (params : List String) :
    Region.frame { params := params } = { params := params } := rfl

@[simp] theorem Region.frame_empty : Region.frame {} = {} := rfl

@[simp] theorem Region.frame_finish (r : Region) (s : Stmt) : (r.finish s).frame = r.frame.add s := by
  simp [frame, finish]

theorem Frame.params_add (f : Frame) (s : Stmt) : (f.add s).params = f.params := by
  cases s <;> rfl

theorem Frame.lookup_add (f : Frame) (s : Stmt) (name : String) :
    (f.add s).declared.lookup name = (f.declared.lookup name).or (s.declares? name) := by
  cases s with
  | declare pos isConst declared value =>
    simp only [Frame.add, Stmt.declares?, List.lookup_append]
    congr 1
    by_cases h : name = declared
    · simp [h]
    · simp [List.lookup_cons, beq_false_of_ne h, Ne.symm h]
  | _ => simp [Frame.add, Stmt.declares?]

theorem Frame.params_foldl_add (ss : List Stmt) (f : Frame) :
    (ss.foldl Frame.add f).params = f.params := by
  induction ss generalizing f with
  | nil => rfl
  | cons s ss ih => rw [List.foldl_cons, ih, params_add]

theorem Frame.lookup_foldl_add (ss : List Stmt) (f : Frame) (name : String) :
    (ss.foldl Frame.add f).declared.lookup name =
      (f.declared.lookup name).or (ss.findSome? (Stmt.declares? name)) := by
  induction ss generalizing f with
  | nil => simp
  | cons s ss ih =>
    rw [List.foldl_cons, ih, lookup_add, List.findSome?_cons]
    cases f.declared.lookup name <;> cases s.declares? name <;> rfl

@[simp] theorem Region.params_frame (r : Region) : r.frame.params = r.params :=
  Frame.params_foldl_add r.finished { params := r.params }

@[simp] theorem Region.lookup_frame (r : Region) (name : String) :
    r.frame.declared.lookup name = r.declares? name := by
  rw [frame, Frame.lookup_foldl_add]
  rfl

/-- The frames around a node whose regions are given. -/
def Regions.frames (rs : Regions) : Frames := rs.map Region.frame

@[simp] theorem Regions.frames_cons (r : Region) (rs : Regions) :
    Regions.frames (r :: rs) = r.frame :: rs.frames := rfl

namespace Regions

theorem resolvesToConst_frames (name : String) : ∀ rs : Regions,
    rs.frames.resolvesToConst name = rs.isConst name
  | [] => rfl
  | r :: rs => by
    rw [frames_cons, Frames.resolvesToConst, isConst, Region.lookup_frame, Region.params_frame,
      resolvesToConst_frames name rs]
    cases r.declares? name with
    | some constant => rfl
    | none => by_cases h : name ∈ r.params <;> simp [h]

theorem checkTarget_frames (rs : Regions) (target : Option (Pos × String)) :
    rs.frames.checkTarget target = rs.checkTarget target := by
  cases target with
  | none => rfl
  | some t => rw [Frames.checkTarget, checkTarget, resolvesToConst_frames]

theorem checkFresh_frame (own : Region) (s : Stmt) :
    own.frame.checkFresh s = own.checkFresh s := by
  cases s <;> simp [Frame.checkFresh, Region.checkFresh]

theorem check_frames (own : Region) (outer : Regions) (s : Stmt) :
    Frames.check own.frame outer.frames s = check own outer s := by
  rw [Frames.check, check, ← frames_cons, checkTarget_frames, checkFresh_frame]

end Regions

mutual

theorem Expr.scopeErrors_frames : ∀ (e : Expr) (rs : Regions),
    e.scopeErrors rs.frames = e.nameErrors rs
  | .ident _ _, _ | .int _ _ _, _ | .float _ _ _, _ | .bool _ _, _ | .null _, _ | .string _ _, _
  | .step _ _ _ _, _ | .break _, _ | .continue _, _ => rfl
  | .array _ es, rs => Expr.scopeErrorsOfAll_frames es rs
  | .hash _ ps, rs => Expr.scopeErrorsOfPairs_frames ps rs
  | .func _ params b, rs => Block.scopeErrors_frames b rs params
  | .unary _ _ e, rs => Expr.scopeErrors_frames e rs
  | .binary _ _ l r, rs => by
    rw [Expr.scopeErrors, Expr.nameErrors, Expr.scopeErrors_frames l, Expr.scopeErrors_frames r]
  | .cond _ c b a, rs => by
    rw [Expr.scopeErrors, Expr.nameErrors, Expr.scopeErrorsOfOption_frames c,
      Block.scopeErrors_frames b, Block.scopeErrorsOfOption_frames a]
  | .call _ f es, rs => by
    rw [Expr.scopeErrors, Expr.nameErrors, Expr.scopeErrors_frames f,
      Expr.scopeErrorsOfAll_frames es]
  | .index _ c k, rs => by
    rw [Expr.scopeErrors, Expr.nameErrors, Expr.scopeErrors_frames c, Expr.scopeErrors_frames k]
  | .member _ r _ _, rs => Expr.scopeErrors_frames r rs
  | .method _ r _ _ _ es, rs => by
    rw [Expr.scopeErrors, Expr.nameErrors, Expr.scopeErrors_frames r,
      Expr.scopeErrorsOfAll_frames es]
  | .assign _ _ e, rs => Expr.scopeErrors_frames e rs

theorem Expr.scopeErrorsOfAll_frames : ∀ (es : List Expr) (rs : Regions),
    Expr.scopeErrorsOfAll rs.frames es = Expr.nameErrorsOfAll rs es
  | [], _ => rfl
  | e :: es, rs => by
    rw [Expr.scopeErrorsOfAll, Expr.nameErrorsOfAll, Expr.scopeErrors_frames e,
      Expr.scopeErrorsOfAll_frames es]

theorem Expr.scopeErrorsOfPairs_frames : ∀ (ps : List (Expr × Expr)) (rs : Regions),
    Expr.scopeErrorsOfPairs rs.frames ps = Expr.nameErrorsOfPairs rs ps
  | [], _ => rfl
  | (k, v) :: ps, rs => by
    rw [Expr.scopeErrorsOfPairs, Expr.nameErrorsOfPairs, Expr.scopeErrors_frames k,
      Expr.scopeErrors_frames v, Expr.scopeErrorsOfPairs_frames ps]

theorem Expr.scopeErrorsOfOption_frames : ∀ (e : Option Expr) (rs : Regions),
    Expr.scopeErrorsOfOption rs.frames e = Expr.nameErrorsOfOption rs e
  | none, _ => rfl
  | some e, rs => Expr.scopeErrors_frames e rs

theorem Block.scopeErrorsOfOption_frames : ∀ (b : Option Block) (rs : Regions),
    Block.scopeErrorsOfOption rs.frames b = Block.nameErrorsOfOption rs b
  | none, _ => rfl
  | some b, rs => Block.scopeErrors_frames b rs []

theorem Block.scopeErrors_frames : ∀ (b : Block) (rs : Regions) (params : List String),
    b.scopeErrors rs.frames params = b.nameErrors rs params
  | .mk _ ss, rs, params => Stmt.scopeErrorsOfAll_frames ss rs { params }

theorem Stmt.scopeErrors_frames : ∀ (s : Stmt) (rs : Regions),
    s.scopeErrors rs.frames = s.nameErrors rs
  | .expr _ _ e, rs => Expr.scopeErrors_frames e rs
  | .declare _ _ _ e, rs => Expr.scopeErrors_frames e rs
  | .return _ e, rs => Expr.scopeErrorsOfOption_frames e rs
  | .while _ c b, rs => by
    rw [Stmt.scopeErrors, Stmt.nameErrors, Expr.scopeErrorsOfOption_frames c,
      Block.scopeErrors_frames b]
  | .for _ i c u b, rs => by
    have hinner : (i.map (Frame.add {})).getD {} :: rs.frames =
        Regions.frames ({ finished := i.toList } :: rs) := by
      cases i <;> rfl
    rw [Stmt.scopeErrors, Stmt.nameErrors, hinner, Stmt.scopeErrorsOfInit_frames i,
      Expr.scopeErrorsOfOption_frames c, Expr.scopeErrorsOfOption_frames u,
      Regions.checkTarget_frames, Block.scopeErrors_frames b]
  | .func _ _ params b, rs => Block.scopeErrors_frames b rs params

theorem Stmt.scopeErrorsOfAll_frames : ∀ (ss : List Stmt) (rs : Regions) (own : Region),
    Stmt.scopeErrorsOfAll rs.frames own.frame ss = Stmt.nameErrorsOfAll rs own ss
  | [], _, _ => rfl
  | s :: ss, rs, own => by
    rw [Stmt.scopeErrorsOfAll, Stmt.nameErrorsOfAll, ← Regions.frames_cons,
      Stmt.scopeErrors_frames s, Regions.check_frames, ← Region.frame_finish,
      Stmt.scopeErrorsOfAll_frames ss]

theorem Stmt.scopeErrorsOfInit_frames : ∀ (s : Option Stmt) (rs : Regions),
    Stmt.scopeErrorsOfInit rs.frames s = Stmt.nameErrorsOfInit rs s
  | none, _ => rfl
  | some s, rs => by
    have hinner : {} :: rs.frames = Regions.frames ({} :: rs) := rfl
    rw [Stmt.scopeErrorsOfInit, Stmt.nameErrorsOfInit, hinner, Stmt.scopeErrors_frames s,
      Regions.checkTarget_frames]

end

/-- Frames keep enough of the statements: the two passes find the same. -/
theorem Program.nameErrors_eq (p : Program) : p.nameErrors = p.scopeErrors :=
  (Stmt.scopeErrorsOfAll_frames p.statements [] {}).symm

end Vorn
