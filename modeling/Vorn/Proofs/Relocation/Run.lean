import Vorn.Proofs.Eval.Run
import Vorn.Proofs.Relocation.Store

/-!
# Runs and scripts at other places

`Run.Moves f g r r'` says that `r'` does in a moved state what `r` does in the state as it was: it
ends in the moved state, with the result that `g` makes of the other one or with the moved stop
(`Ending.Moved`). What was printed and traced is the same. `Script.Moves` says so of scripts, whose
tasks are moved too. Both are closed under the ways to put runs and scripts together, and the
machine, the walk over an array and the sort are such runs and scripts.

A built-in function has no place that could be moved, so a fault that is reported at one
(`Fault.ReportedAt`) stays what it is. If the place of built-in functions stays where it is, that is
no exception (`Ending.Moved.eq`).
-/

namespace Vorn

variable (f : Relocation)

/-! ## Faults -/

/-- The faults that are reported at the place of a value, whatever its type is. -/
inductive Fault.ReportedAt (v : Value) : Fault → Prop
  /-- The value is the operand of a minus. -/
  | negated : ReportedAt v ⟨v.pos, .unknownUnary .negate v.ty⟩
  /-- The value is the key of a hash. -/
  | key : ReportedAt v ⟨v.pos, .notHashable v.ty⟩
  /-- The value is the index of a value of that type. -/
  | index (collection : Ty) : ReportedAt v ⟨v.pos, .notIndexable collection⟩
  /-- The value is a predicate. -/
  | predicate (callee : Callee) (answer : Ty) : ReportedAt v ⟨v.pos, .callbackResult callee answer⟩
  /-- The value is the comparison of a sort. -/
  | comparison (answer : Ty) : ReportedAt v ⟨v.pos, .comparatorResult answer⟩
  /-- The value is an element that is sorted. -/
  | element (other : Ty) : ReportedAt v ⟨v.pos, .incomparable v.ty other⟩

theorem Fault.ReportedAt.pos_eq {v : Value} {x : Fault} (h : x.ReportedAt v) : x.pos = v.pos := by
  cases h <;> rfl

def Fault.move (x : Fault) : Fault := { x with pos := f.place x.pos }

def Stop.move : Stop → Stop
  | .fault x => .fault (x.move f)
  | .exhausted => .exhausted
  | .outOfFuel => .outOfFuel
  | .incomplete => .incomplete

/-- The state with a moved store; what was printed and traced has no place. -/
def State.move (s : State) : State := { s with store := s.store.move f }

def Ending.move {α : Type} (g : α → α) : Ending α → Ending α
  | .ok a s => .ok (g a) (s.move f)
  | .error stop s => .error (stop.move f) (s.move f)

def Task.move : Task → Task
  | .expr e r => .expr (e.mark (.moved f.place)) r
  | .stmt s r => .stmt (s.mark (.moved f.place)) r
  | .block b r => .block (b.mark (.moved f.place)) r
  | .apply pos v args => .apply (f.place pos) (v.move f) (args.map (Value.move f))

variable {f}

/-- The second stop is the first one at the new place, or both are one fault at a built-in
function. -/
inductive Stop.Moved (f : Relocation) : Stop → Stop → Prop
  | moved (stop : Stop) : Moved f stop (stop.move f)
  | builtin {x : Fault} {b : Builtin} (h : x.ReportedAt (.builtin b)) :
      Moved f (.fault x) (.fault x)

/-- The second ending is the first one at the new place. -/
inductive Ending.Moved {α : Type} (f : Relocation) (g : α → α) : Ending α → Ending α → Prop
  | ok (a : α) (s : State) : Moved f g (.ok a s) (.ok (g a) (s.move f))
  | error {stop stop' : Stop} (s : State) (h : stop.Moved f stop') :
      Moved f g (.error stop s) (.error stop' (s.move f))

/-- If the place of built-in functions stays where it is, then every stop is moved. -/
theorem Stop.Moved.eq {stop stop' : Stop} (hf : f.place .unknown = .unknown)
    (h : stop.Moved f stop') : stop' = stop.move f := by
  cases h with
  | moved => rfl
  | @builtin x b h =>
    have hpos : f.place x.pos = x.pos := by
      rw [h.pos_eq]
      exact hf
    rw [Stop.move, Fault.move, hpos]

theorem Ending.Moved.eq {α : Type} {g : α → α} {ending ending' : Ending α}
    (hf : f.place .unknown = .unknown) (h : ending.Moved f g ending') :
    ending' = ending.move f g := by
  cases h with
  | ok => rfl
  | error s h => rw [Ending.move, h.eq hf]

/-! ## Runs -/

namespace Run

variable {α β : Type}

/-- `r'` does in a moved state what `r` does in the state as it was, and `g` moves the result. -/
def Moves (f : Relocation) (g : α → α) (r r' : Run α) : Prop :=
  ∀ s, Ending.Moved f g (r s) (r' (s.move f))

namespace Moves

variable {g : α → α} {h : β → β} {r r' : Run α} {k k' : α → Run β}

theorem bind (hr : Moves f g r r') (hk : ∀ a, Moves f h (k a) (k' (g a))) :
    Moves f h (r >>= k) (r' >>= k') := by
  intro s
  have hs := hr s
  rw [run_bind, run_bind]
  generalize r s = ending, r' (s.move f) = ending' at hs ⊢
  cases hs with
  | ok a s' => exact hk a s'
  | error s' h => exact .error s' h

theorem pure (a : α) : Moves f g (Pure.pure a) (Pure.pure (g a)) := fun s => .ok a s

theorem throw (stop : Stop) :
    Moves f g (MonadExcept.throw stop) (MonadExcept.throw (stop.move f)) :=
  fun s => .error s (.moved stop)

theorem fault (pos : Pos) (cause : Cause) :
    Moves f g (Run.fault pos cause) (Run.fault (f.place pos) cause) := throw (.fault ⟨pos, cause⟩)

/-- If the place of built-in functions stays where it is, the ending is the moved one. -/
theorem eq (hf : f.place .unknown = .unknown) (hr : Moves f g r r') (s : State) :
    r' (s.move f) = Ending.move f g (r s) :=
  (hr s).eq hf

theorem ite {c : Prop} [Decidable c] {m m' : Run α} (ht : Moves f g r r') (he : Moves f g m m') :
    Moves f g (if c then r else m) (if c then r' else m') := by
  split
  · exact ht
  · exact he

/-- A check in front of the rest. -/
theorem check {c : Prop} [Decidable c] {m m' : Run Unit} {k k' : Unit → Run α}
    (hm : Moves f id m m') (hk : ∀ u, Moves f g (k u) (k' u)) :
    Moves f g (if c then m >>= k else k ()) (if c then m' >>= k' else k' ()) :=
  ite (bind hm hk) (hk ())

theorem mapM {γ : Type} (l : γ → γ) {k k' : γ → Run α} (hk : ∀ c, Moves f g (k c) (k' (l c))) :
    ∀ cs : List γ, Moves f (List.map g) (cs.mapM k) ((cs.map l).mapM k')
  | [] => by
    rw [List.map_nil, List.mapM_nil, List.mapM_nil]
    exact pure []
  | c :: cs => by
    rw [List.map_cons, List.mapM_cons, List.mapM_cons]
    exact bind (hk c) fun a => bind (mapM l hk cs) fun as => pure (a :: as)

end Moves

/-! ## The machine -/

theorem moves_store : Moves f (Store.move f) store store := fun s => .ok s.store s

/-- A fault at the place of a value. -/
theorem moves_fault_at {g : α → α} {v : Value} {cause : Cause}
    (h : Fault.ReportedAt v ⟨v.pos, cause⟩) :
    Moves f g (fault v.pos cause) (fault (v.move f).pos cause) := by
  by_cases hv : v.ty = .builtin
  · cases v <;> cases hv
    exact fun s => .error s (.builtin h)
  · rw [Value.pos_move f hv]
    exact .fault _ _

theorem moves_elements (r : ArrayRef) :
    Moves f (Array.map (Value.move f)) (elements r) (elements r) := fun s => by
  change Ending.Moved f _ (.ok (s.store.array r) s) (.ok ((s.store.move f).array r) (s.move f))
  rw [Store.array_move]
  exact .ok _ s

theorem moves_orExhausted {g : α → α} (o : Option α) :
    Moves f g (orExhausted o) (orExhausted (o.map g)) := by
  cases o with
  | none => exact .throw .exhausted
  | some a => exact .pure a

theorem moves_inspect (v : Value) : Moves f id (inspect v) (inspect (v.move f)) := fun s => by
  change Ending.Moved f _ (orExhausted (s.store.inspect? v) s)
    (orExhausted ((s.store.move f).inspect? (v.move f)) (s.move f))
  rw [Store.inspect?_move]
  have h := @moves_orExhausted f _ id (s.store.inspect? v) s
  rw [Option.map_id] at h
  exact h

theorem moves_modifyStore {l l' : Store → Store} (h : ∀ s, l' (s.move f) = (l s).move f) :
    Moves f id (modifyStore l) (modifyStore l') := fun s => by
  change Ending.Moved f _ _ (EStateM.Result.ok () { s with store := l' (s.store.move f) })
  rw [h]
  exact .ok () { s with store := l s.store }

theorem moves_updateStore {g : α → α} {l l' : Store → α × Store}
    (h : ∀ s, l' (s.move f) = (g (l s).1, (l s).2.move f)) :
    Moves f g (updateStore l) (updateStore l') := fun s => by
  change Ending.Moved f _ _
    (EStateM.Result.ok (l' (s.store.move f)).1 { s with store := (l' (s.store.move f)).2 })
  rw [h]
  exact .ok (l s.store).1 { s with store := (l s.store).2 }

theorem moves_newArray (vs : Array Value) (pos : Pos) :
    Moves f (Value.move f) (newArray vs pos) (newArray (vs.map (Value.move f)) (f.place pos)) :=
  .bind (moves_updateStore (g := id) fun s => s.newArray_move f vs) fun r =>
    .pure (Value.array r pos)

theorem moves_newArray_toArray (vs : List Value) (pos : Pos) :
    Moves f (Value.move f) (newArray vs.toArray pos)
      (newArray (vs.map (Value.move f)).toArray (f.place pos)) := by
  rw [← List.map_toArray]
  exact moves_newArray vs.toArray pos

theorem moves_newTable (t : Table) (pos : Pos) :
    Moves f (Value.move f) (newTable t pos) (newTable (t.move f) (f.place pos)) :=
  .bind (moves_updateStore (g := id) fun s => s.newTable_move f t) fun r =>
    .pure (Value.hash r pos)

theorem moves_newId : Moves f id newId newId := moves_updateStore fun _ => rfl

theorem moves_enclose (r : ScopeRef) : Moves f id (enclose r) (enclose r) :=
  moves_updateStore fun s => s.enclose_move f r

theorem moves_bind (r : ScopeRef) (name : String) (v : Value) :
    Moves f id (Run.bind r name v) (Run.bind r name (v.move f)) :=
  moves_modifyStore fun s => s.bind_move f r name v

theorem moves_printLine (text : String) : Moves f id (printLine text) (printLine text) :=
  fun s => .ok () { s with output := s.output ++ text ++ "\n" }

theorem moves_trace {settings : Settings} {level : Nat} {line line' : Run String}
    (h : Moves f id line line') :
    Moves f id (trace settings level line) (trace settings level line') :=
  .ite (.bind h fun text s => .ok () { s with trace := s.trace.push ⟨level, text⟩ }) (.pure ())

theorem moves_toBool? (v : Value) : Moves f id (toBool? v) (toBool? (v.move f)) := by
  cases v with
  | array r pos =>
    refine .bind (moves_elements r) fun vs => ?_
    rw [Array.size_map]
    exact .pure (some (decide (vs.size ≠ 0)))
  | hash r pos =>
    refine .bind moves_store fun st => ?_
    rw [Store.table_move, Table.size_move]
    exact .pure (some (decide ((st.table r).size ≠ 0)))
  | _ => exact .pure _

end Run

/-! ## Copies -/

namespace Store.Copy

variable {α β : Type}

/-- What `Run.Moves` says, of a copy. -/
def Moves (f : Relocation) (g : α → α) (m m' : Copy α) : Prop :=
  ∀ s : Store, m'.run (s.move f) = ((m.run s).1.map g, (m.run s).2.move f)

namespace Moves

variable {g : α → α} {h : β → β} {m m' : Copy α} {k k' : α → Copy β}

theorem bind (hm : Moves f g m m') (hk : ∀ a, Moves f h (k a) (k' (g a))) :
    Moves f h (m >>= k) (m' >>= k') := by
  intro s
  have hrun := hm s
  rw [run_bind, run_bind, hrun]
  cases (m.run s : Option α × Store) with
  | mk o s' =>
    cases o with
    | none => rfl
    | some a => exact hk a s'

theorem pure (a : α) : Moves f g (Pure.pure a) (Pure.pure (g a)) := fun _ => rfl

theorem failure : Moves f g failure failure := fun _ => rfl

theorem get : Moves f (Store.move f) get get := fun _ => rfl

theorem modifyGet {l l' : Store → α × Store}
    (h : ∀ s, l' (s.move f) = (g (l s).1, (l s).2.move f)) :
    Moves f g (modifyGet l) (modifyGet l') := fun s => by
  change (some (l' (s.move f)).1, (l' (s.move f)).2) = _
  rw [h]
  rfl

theorem mapM {γ : Type} (l : γ → γ) {k k' : γ → Copy α} (hk : ∀ c, Moves f g (k c) (k' (l c))) :
    ∀ cs : List γ, Moves f (List.map g) (cs.mapM k) ((cs.map l).mapM k')
  | [] => by
    rw [List.map_nil, List.mapM_nil, List.mapM_nil]
    exact pure []
  | c :: cs => by
    rw [List.map_cons, List.mapM_cons, List.mapM_cons]
    exact bind (hk c) fun a => bind (mapM l hk cs) fun as => pure (a :: as)

end Moves

theorem moves_copyEntry {inner inner' : Value → Copy Value} (pos : Pos)
    (hinner : ∀ v, Moves f (Value.move f) (inner v) (inner' (v.move f))) (e : Entry) :
    Moves f (Entry.move f) (copyEntry inner pos e) (copyEntry inner' (f.place pos) (e.move f)) :=
  .bind (hinner e.value) fun v => .pure (Entry.mk e.key pos v)

/-- Entries that are put into a hash one after the other. -/
theorem foldl_insert_move (es : List Entry) : ∀ t : Table,
    (es.map (Entry.move f)).foldl (fun t e => t.insert e.key e.pos e.value) (t.move f) =
      (es.foldl (fun t e => t.insert e.key e.pos e.value) t).move f := by
  induction es with
  | nil => exact fun _ => rfl
  | cons e es ih =>
    intro t
    rw [List.map_cons, List.foldl_cons, List.foldl_cons, ← ih, ← Table.insert_move]
    rfl

theorem moves_copyOf {inner inner' : Value → Copy Value} (pos : Pos)
    (hinner : ∀ v, Moves f (Value.move f) (inner v) (inner' (v.move f))) (v : Value) :
    Moves f (Value.move f) (copyOf inner pos v) (copyOf inner' (f.place pos) (v.move f)) := by
  cases v with
  | array r p =>
    refine .bind .get fun s => ?_
    rw [array_move, Array.toList_map]
    refine .bind (.mapM (Value.move f) hinner _) fun vs => ?_
    rw [← List.map_toArray]
    exact .bind (.modifyGet (g := id) fun s => s.newArray_move f vs.toArray) fun r =>
      .pure (Value.array r pos)
  | hash r p =>
    refine .bind .get fun s => ?_
    rw [table_move, Table.entries_move]
    refine .bind (.mapM (Entry.move f) (moves_copyEntry pos hinner) _) fun es => ?_
    have hfold := @foldl_insert_move f es .empty
    rw [Table.move_empty] at hfold
    rw [hfold]
    exact .bind (.modifyGet (g := id) fun s => s.newTable_move f _) fun r =>
      .pure (Value.hash r pos)
  | int n => exact .pure (Value.int n pos)
  | float x => exact .pure (Value.float x pos)
  | string s => exact .pure (Value.string s pos)
  | _ => exact .pure _

theorem moves_copyWithin (pos : Pos) : ∀ depth v,
    Moves f (Value.move f) (copyWithin pos depth v) (copyWithin (f.place pos) depth (v.move f))
  | 0, v => moves_copyOf pos (fun _ => .failure) v
  | depth + 1, v => moves_copyOf pos (moves_copyWithin pos depth) v

end Store.Copy

theorem Run.moves_clone (v : Value) (pos : Pos) :
    Moves f (Value.move f) (clone v pos) (clone (v.move f) (f.place pos)) := by
  have hcopy : Moves f (Option.map (Value.move f)) (updateStore (·.clone v pos))
      (updateStore (·.clone (v.move f) (f.place pos))) :=
    moves_updateStore fun s => by
      simp only [Store.clone, Store.collections_move]
      exact Store.Copy.moves_copyWithin pos s.collections v s
  exact .bind hcopy fun o => moves_orExhausted o

/-! ## Scripts -/

/-- The steps of `m'` are those of `m` with moved tasks, states and results. -/
def Step.Moves {α : Type} (f : Relocation) (g : α → α) : Step α → Step α → Prop
  | done ending, m' => ∃ ending', m' = done ending' ∧ ending.Moved f g ending'
  | ask t s resume, m' => ∃ resume', m' = ask (t.move f) (s.move f) resume' ∧
    ∀ ending ending', ending.Moved f (Value.move f) ending' →
      (resume ending).Moves f g (resume' ending')

theorem Step.Moves.bind {α β : Type} {g : α → α} {h : β → β} {k k' : α → State → Step β}
    (hk : ∀ a s, (k a s).Moves f h (k' (g a) (s.move f))) :
    ∀ {m m' : Step α}, m.Moves f g m' → (m.bind k).Moves f h (m'.bind k')
  | .done _, _, ⟨_, hm, h⟩ => by
    subst hm
    cases h with
    | ok a s => exact hk a s
    | error s h => exact ⟨_, rfl, .error s h⟩
  | .ask t s resume, _, ⟨resume', hm, hresume⟩ => by
    subst hm
    exact ⟨_, rfl, fun ending ending' h => (hresume ending ending' h).bind hk⟩

/-- Playing moved steps, if tasks that are moved end as they did. -/
theorem Step.Moves.play {α : Type} {g : α → α} {go : Task → Run Value}
    (hgo : ∀ t, Run.Moves f (Value.move f) (go t) (go (t.move f))) :
    ∀ {m m' : Step α}, m.Moves f g m' → (m.play go).Moved f g (m'.play go)
  | .done _, _, ⟨_, hm, h⟩ => by
    subst hm
    exact h
  | .ask t s resume, _, ⟨resume', hm, hresume⟩ => by
    subst hm
    exact (hresume _ _ (hgo t s)).play hgo

namespace Script

variable {α β : Type}

/-- `m'` does in a moved state, with moved tasks, what `m` does in the state as it was. -/
def Moves (f : Relocation) (g : α → α) (m m' : Script α) : Prop :=
  ∀ s, (m s).Moves f g (m' (s.move f))

namespace Moves

variable {g : α → α} {h : β → β} {m m' : Script α} {k k' : α → Script β}

theorem bind (hm : Moves f g m m') (hk : ∀ a, Moves f h (k a) (k' (g a))) :
    Moves f h (m >>= k) (m' >>= k') := fun s => (hm s).bind fun a s => hk a s

theorem pure (a : α) : Moves f g (Pure.pure a) (Pure.pure (g a)) := fun s => ⟨_, rfl, .ok a s⟩

theorem lift {r r' : Run α} (hr : Run.Moves f g r r') :
    Moves f g (liftM r : Script α) (liftM r' : Script α) := fun s => ⟨_, rfl, hr s⟩

/-- Behind a fault nothing is done. -/
theorem fault_bind (pos : Pos) (cause : Cause) :
    Moves f h ((liftM (Run.fault pos cause : Run α) : Script α) >>= k)
      ((liftM (Run.fault (f.place pos) cause : Run α) : Script α) >>= k') :=
  fun s => ⟨_, rfl, .error s (.moved (.fault ⟨pos, cause⟩))⟩

theorem ask (t : Task) : Moves f (Value.move f) (Script.ask t) (Script.ask (t.move f)) :=
  fun _ => ⟨_, rfl, fun _ _ h => ⟨_, rfl, h⟩⟩

theorem ite {c : Prop} [Decidable c] {l l' : Script α} (ht : Moves f g m m')
    (he : Moves f g l l') : Moves f g (if c then m else l) (if c then m' else l') := by
  split
  · exact ht
  · exact he

/-- A check in front of the rest. -/
theorem check {c : Prop} [Decidable c] {l l' : Script Unit} {k k' : Unit → Script α}
    (hl : Moves f id l l') (hk : ∀ u, Moves f g (k u) (k' u)) :
    Moves f g (if c then l >>= k else k ()) (if c then l' >>= k' else k' ()) :=
  ite (bind hl hk) (hk ())

/-- A check in front of the rest, the other way round. -/
theorem demand {c : Prop} [Decidable c] {l l' : Script Unit} {k k' : Unit → Script α}
    (hl : Moves f id l l') (hk : ∀ u, Moves f g (k u) (k' u)) :
    Moves f g (if c then k () else l >>= k) (if c then k' () else l' >>= k') :=
  ite (hk ()) (bind hl hk)

theorem perform {go : Task → Run Value}
    (hgo : ∀ t, Run.Moves f (Value.move f) (go t) (go (t.move f))) (hm : Moves f g m m') :
    Run.Moves f g (m.perform go) (m'.perform go) := fun s => (hm s).play hgo

end Moves

/-- What a visit of a walk says, with a moved result. -/
def moveStep (g : β → β) : ForInStep β → ForInStep β
  | .done b => .done (g b)
  | .yield b => .yield (g b)

theorem moves_walk {g : β → β} {r : ArrayRef}
    {visit visit' : β → Nat → Value → Script (ForInStep β)}
    (hvisit : ∀ b i v, Moves f (moveStep g) (visit b i v) (visit' (g b) i (v.move f))) :
    ∀ fuel i b, Moves f g (walk r visit fuel i b) (walk r visit' fuel i (g b))
  | 0, _, _ => .lift (.throw .outOfFuel)
  | fuel + 1, i, b => by
    rw [walk, walk]
    refine .bind (.lift (Run.moves_elements r)) fun vs => ?_
    rw [Array.getElem?_map]
    cases vs[i]? with
    | none => exact .pure b
    | some v =>
      refine .bind (hvisit b i v) fun step => ?_
      cases step with
      | done b => exact .pure b
      | yield b => exact moves_walk hvisit fuel (i + 1) b

/-- A walk that collects values. -/
theorem moves_collect {r : ArrayRef}
    {visit visit' : Array Value → Nat → Value → Script (ForInStep (Array Value))}
    (hvisit : ∀ vs i v, Moves f (moveStep (Array.map (Value.move f))) (visit vs i v)
      (visit' (vs.map (Value.move f)) i (v.move f))) (fuel i : Nat) :
    Moves f (Array.map (Value.move f)) (walk r visit fuel i #[]) (walk r visit' fuel i #[]) := by
  have h := @moves_walk f _ _ r visit visit' hvisit fuel i #[]
  rwa [Array.map_empty] at h

/-- What a filter keeps. -/
theorem push_if_move (keep : Bool) (vs : Array Value) (v : Value) :
    (if keep then (vs.map (Value.move f)).push (v.move f) else vs.map (Value.move f)) =
      (if keep then vs.push v else vs).map (Value.move f) := by
  cases keep <;> simp

theorem isEmpty_map (g : α → β) (vs : Array α) : (vs.map g).isEmpty = vs.isEmpty := by
  simp [Array.isEmpty]

/-! ## Sorting -/

theorem insertIdxIfInBounds_map (g : α → β) (xs : Array α) (i : Nat) (x : α) :
    (xs.map g).insertIdxIfInBounds i (g x) = (xs.insertIdxIfInBounds i x).map g := by
  simp only [Array.insertIdxIfInBounds, Array.size_map]
  split
  · refine Array.ext (by simp) fun k h₁ h₂ => ?_
    simp only [Array.getElem_insertIdx, Array.getElem_map]
    split
    · rfl
    · split <;> rfl
  · rfl

theorem moves_pure_toArray (vs : List Value) :
    Moves f (Array.map (Value.move f)) (pure vs.toArray)
      (pure (vs.map (Value.move f)).toArray) := by
  rw [← List.map_toArray]
  exact .pure vs.toArray

section Order

variable {less less' : Value → Value → Script Bool}
  (hless : ∀ x y, Moves f id (less x y) (less' (x.move f) (y.move f)))
include hless

theorem moves_run (done : List Value) (last : Value) (rest : List Value) :
    Moves f (fun p => (p.1.map (Value.move f), p.2.map (Value.move f)))
      (Order.run less done last rest)
      (Order.run less' (done.map (Value.move f)) (last.move f) (rest.map (Value.move f))) := by
  induction rest generalizing done last with
  | nil => exact .pure (last :: done, [])
  | cons x rest ih =>
    rw [List.map_cons, Order.run, Order.run]
    exact .bind (hless x last) fun _ => .ite (ih (last :: done) x) (.pure (last :: done, x :: rest))

theorem moves_place (sorted : Array Value) (x : Value) (low high : Nat) :
    Moves f id (Order.place less sorted x low high)
      (Order.place less' (sorted.map (Value.move f)) (x.move f) low high) := by
  fun_induction Order.place less sorted x low high with
  | case1 low high hlt middle hmiddle =>
    rw [Order.place, if_pos hlt]
    simp only [Array.getElem?_map, middle, hmiddle, Option.map_none]
    exact .pure low
  | case2 low high hlt middle y hmiddle ihLow ihHigh =>
    rw [Order.place.eq_def less', if_pos hlt]
    simp only [Array.getElem?_map, middle, hmiddle, Option.map_some]
    exact .bind (hless x y) fun _ => .ite ihLow ihHigh
  | case3 low high hlt =>
    rw [Order.place, if_neg hlt]
    exact .pure low

theorem moves_insertAll (sorted : Array Value) (xs : List Value) :
    Moves f (Array.map (Value.move f)) (Order.insertAll less sorted xs)
      (Order.insertAll less' (sorted.map (Value.move f)) (xs.map (Value.move f))) := by
  induction xs generalizing sorted with
  | nil => exact .pure sorted
  | cons x xs ih =>
    rw [List.map_cons, Order.insertAll, Order.insertAll, Array.size_map]
    refine .bind (moves_place hless sorted x 0 sorted.size) fun i => ?_
    have h := ih (sorted.insertIdxIfInBounds i x)
    rw [← insertIdxIfInBounds_map] at h
    exact h

theorem moves_sort : ∀ xs : List Value, Moves f (Array.map (Value.move f)) (Order.sort less xs)
    (Order.sort less' (xs.map (Value.move f)))
  | [] => moves_pure_toArray []
  | [x] => moves_pure_toArray [x]
  | x :: y :: rest => by
    rw [List.map_cons, List.map_cons, Order.sort, Order.sort]
    have hnot : ∀ a b, Moves f id (do return !(← less a b))
        (do return !(← less' (a.move f) (b.move f))) :=
      fun a b => .bind (hless a b) fun _ => .pure _
    refine .bind (hless y x) fun _ => .ite ?_ ?_
    · refine .bind (moves_run hless [x] y rest) fun ⟨sorted, rest⟩ => ?_
      dsimp only
      rw [← List.map_toArray]
      exact moves_insertAll hless _ _
    · refine .bind (moves_run hnot [x] y rest) fun ⟨sorted, rest⟩ => ?_
      dsimp only
      rw [← List.map_reverse, ← List.map_toArray]
      exact moves_insertAll hless _ _

theorem moves_sortDescending (xs : List Value) :
    Moves f (Array.map (Value.move f)) (Order.sortDescending less xs)
      (Order.sortDescending less' (xs.map (Value.move f))) := by
  unfold Order.sortDescending
  rw [← List.map_reverse]
  refine .bind (moves_sort hless xs.reverse) fun vs => ?_
  rw [← Array.map_reverse]
  exact .pure vs.reverse

end Order

end Script

end Vorn
