import Vorn.Proofs.CyclicValues
import Vorn.Proofs.Mutation
import Vorn.Proofs.Store.Alike
import Vorn.Proofs.Store.Apart

/-!
# Copies are separate

A copy of a value looks like the value, and all its arrays and hashes are new. So are those of what
`first`, `last`, `rest`, `push` and `pop` give, which are made of copies (`Builtin.extract?`). What
is new shares nothing with what was there, and the two stay so while the program goes on, as long as
nothing of the one is put into the other (`Later`, `Later.split`). A call that changes an array of
one of them is not seen by the other. The main statement is `copies_are_separate`.
-/

namespace Vorn

open Run Script

/-! ## Calls that change an array -/

namespace ArrayMethod

/-- What an edit leaves was in the array or is an argument. -/
theorem mem_of_edit? {m : ArrayMethod} {array v : Value} {args : List Value} {vs vs' : Array Value}
    (h : m.edit? array args vs = some (v, vs')) : ∀ u ∈ vs', u ∈ vs ∨ u ∈ args := by
  have htaken : ∀ i, taken? vs i = some (v, vs') → ∀ u ∈ vs', u ∈ vs := by
    intro i htaken u hu
    obtain ⟨_, -, heq⟩ := Option.map_eq_some_iff.mp htaken
    cases heq
    rw [Array.eraseIdxIfInBounds_eq] at hu
    split at hu
    · exact Array.mem_of_mem_eraseIdx hu
    · exact hu
  intro u hu
  unfold edit? at h
  split at h
  case h_1 | h_2 =>
    cases h
    rcases Array.mem_push.mp hu with hu | rfl
    · exact .inl hu
    · exact .inr (by simp)
  case h_3 =>
    cases h
    rcases Array.mem_append.mp hu with hu | hu
    · exact .inr (by simpa using hu)
    · exact .inl hu
  case h_4 | h_5 => exact .inl (htaken _ h u hu)
  case h_6 =>
    split at h
    · exact .inl (htaken _ h u hu)
    · cases h
  case h_7 => cases h

end ArrayMethod

variable {settings : Settings} {s t u : State} {v w : Value} {r : ArrayRef} {args : List Value}

/-- From `s`, a call of one of the five methods that change their array, here the array `r`, ends in
`t`. -/
def Edited (settings : Settings) (r : ArrayRef) (args : List Value) (s t : State) : Prop :=
  ∃ m ∈ ArrayMethod.mutators, ∃ p pos ending,
    Eval.callMethod settings (.array r p) pos m.name args s = .done ending ∧ ending.state = t

/-- The call leaves all as it is or gives its array other contents. -/
theorem Edited.cases (h : Edited settings r args s t) :
    t = s ∨ ∃ vs, (∀ u ∈ vs, u ∈ s.store.array r ∨ u ∈ args) ∧
      t = { s with store := s.store.modifyArray r fun _ => vs } := by
  obtain ⟨m, hm, p, pos, ending, hcall, rfl⟩ := h
  have hname : ArrayMethod.ofName? m.name = some m := by cases m <;> decide
  have hrun : Eval.callMethod settings (.array r p) pos m.name args s =
      m.run settings r (.array r p) args s := by
    rw [Eval.callMethod, hname]
  have hedits : ∃ ending, m.run settings r (.array r p) args s = .done ending ∧
      ArrayMethod.Edits r (m.edit? (.array r p) args (s.store.array r)) s ending :=
    ArrayMethod.edits_run hm
  obtain ⟨ending', hend, hedits⟩ := hedits
  obtain rfl : ending = ending' := by
    rw [hrun, hend] at hcall
    exact (Step.done.inj hcall).symm
  cases hedit : m.edit? (.array r p) args (s.store.array r) with
  | none =>
    rw [hedit] at hedits
    obtain ⟨f, rfl⟩ := hedits
    exact .inl rfl
  | some edit =>
    obtain ⟨x, vs⟩ := edit
    rw [hedit] at hedits
    cases hedits
    exact .inr ⟨vs, ArrayMethod.mem_of_edit? hedit, rfl⟩

/-- What does not reach the array looks as before. -/
theorem Edited.inspect?_eq (h : Edited settings r args s t)
    (hw : ¬ s.store.Reaches .showing w (.array r)) : t.store.inspect? w = s.store.inspect? w := by
  rcases h.cases with rfl | ⟨vs, -, rfl⟩
  · rfl
  · exact (Store.agrees_modifyArray _ hw).inspect?_eq

/-! ## Values that stay separate -/

/-- How the program may go on without bringing two values together: the store grows, and arrays
anywhere are changed, but nothing that reaches a part of the one value is put into an array of the
other. -/
inductive Later (settings : Settings) (v w : Value) (s : State) : State → Prop
  | refl : Later settings v w s s
  | grows {t u : State} (h : Later settings v w s t) (hgrows : t.store.Grows u.store) :
      Later settings v w s u
  | edited {t u : State} {r : ArrayRef} {args : List Value} (h : Later settings v w s t)
      (hedited : Edited settings r args t u) (hargs : ∀ a ∈ args, t.store.Belongs a)
      (hleft : t.store.Reaches .showing v (.array r) → ∀ a ∈ args, t.store.Apart a w)
      (hright : t.store.Reaches .showing w (.array r) → ∀ a ∈ args, t.store.Apart a v) :
      Later settings v w s u

/-- **Values that share nothing go on sharing nothing.** -/
theorem Later.split (h : Later settings v w s t) (hsplit : s.store.Split v w) :
    t.store.Split v w := by
  induction h with
  | refl => exact hsplit
  | grows _ hgrows ih => exact ih.grows hgrows
  | edited _ hedited hargs hleft hright ih =>
    rcases hedited.cases with rfl | ⟨vs, hvs, rfl⟩
    · exact ih
    · exact ih.modifyArray hvs hargs hleft hright

/-- From `s` on the two values share nothing, and a call that changes an array of one of them, with
whatever arguments, does not change how the other is shown. -/
def Separate (settings : Settings) (s : State) (v w : Value) : Prop :=
  ∀ t, Later settings v w s t → t.store.Apart v w ∧ ∀ r args u, Edited settings r args t u →
    (t.store.Reaches .showing v (.array r) → u.store.inspect? w = t.store.inspect? w) ∧
      (t.store.Reaches .showing w (.array r) → u.store.inspect? v = t.store.inspect? v)

theorem separate_of_split (h : s.store.Split v w) : Separate settings s v w := by
  intro t hlater
  have hapart := (hlater.split h).apart
  refine ⟨hapart, fun r args u hedited => ⟨fun hr => ?_, fun hr => ?_⟩⟩
  · exact hedited.inspect?_eq (hapart _ hr)
  · exact hedited.inspect?_eq (hapart.symm _ hr)

/-! ## Fresh values -/

namespace Store

variable {s t : Store} {u v v' : Value} {c : Collection}

/-- A value of the store that has a copy and no `return` signal in it. -/
structure Copyable (s : Store) (v : Value) : Prop where
  belongs : s.Belongs v
  acyclic : s.Acyclic .copying v
  plain : s.Plain v

theorem Copyable.of_inner (h : s.Copyable v) (hu : u ∈ s.inner .copying v) : s.Copyable u :=
  ⟨h.belongs.of_inner hu, h.acyclic.of_inner hu, h.plain.of_inner hu⟩

theorem Copyable.grows (h : s.Copyable v) (hst : s.Grows t) : t.Copyable v :=
  ⟨h.belongs.grows hst, (h.belongs.agrees hst).acyclic_iff.mpr h.acyclic,
    h.plain.of_agrees (h.belongs.agrees hst)⟩

/-- A value of `t` all of whose arrays and hashes have come since `s`. -/
structure Fresh (s t : Store) (v : Value) : Prop where
  belongs : t.Belongs v
  new : ∀ c, t.Reaches .showing v c → s.New t c

namespace Fresh

theorem of_none (h : v.collection? .showing = none) : s.Fresh t v :=
  ⟨.of_none h, fun _ hc => absurd hc (not_reaches_of_none h)⟩

theorem of_copied (h : s.Copied v t v') (hv : s.Plain v) : s.Fresh t v' :=
  ⟨h.belongs, fun _ hc => h.reaches_new hv hc⟩

/-- A new array of fresh values. -/
theorem of_array {r : ArrayRef} {p : Pos} (hr : s.New t (.array r))
    (h : ∀ u ∈ t.array r, s.Fresh t u) : s.Fresh t (.array r p) := by
  have hcases : ∀ {c}, t.Reaches .showing (.array r p) c →
      c = .array r ∨ ∃ u, s.Fresh t u ∧ t.Reaches .showing u c := by
    intro c hc
    rcases reaches_iff.mp hc with hself | ⟨u, hu, hrest⟩
    · exact .inl (Option.some.inj hself).symm
    · exact .inr ⟨u, h u (Array.mem_toList_iff.mp hu), hrest⟩
  refine ⟨⟨fun c hc => ?_, fun r' hr' => ?_⟩, fun c hc => ?_⟩
  · rcases hcases hc with rfl | ⟨u, hu, hrest⟩
    · exact hr.has
    · exact hu.belongs.has c hrest
  · rcases hcases hr' with heq | ⟨u, hu, hrest⟩
    · cases heq
    · exact hu.belongs.wellFormed r' hrest
  · rcases hcases hc with rfl | ⟨u, hu, hrest⟩
    · exact hr
    · exact hu.new c hrest

/-- What is fresh shares nothing with what was there. -/
theorem split (h : s.Fresh t v) (hst : s.Grows t) (hu : s.Belongs u) : t.Split u v := by
  refine ⟨hu.grows hst, h.belongs, fun c hc hc' => ?_⟩
  have hagrees : s.Agrees .showing t u := hu.agrees hst
  exact (h.new c hc').old (hu.has c (hagrees.reaches_iff.mp hc))

end Fresh

end Store

/-- Copies of several values, one after the other, in a state that has grown from `s₀`. -/
theorem Run.mapM_clone {us : List Value} {s₀ s : State} (hus : ∀ u ∈ us, s₀.store.Copyable u)
    (h₀ : s₀.store.Grows s.store) (pos : Pos) :
    ∃ us' t, us.mapM (clone · pos) s = .ok us' t ∧ s.Adds t ∧
      List.Forall₂ (fun u u' => s₀.store.Copied u t.store u') us us' := by
  induction us generalizing s with
  | nil => exact ⟨[], s, rfl, .refl s, .nil⟩
  | cons u us ih =>
    obtain ⟨hu, hus⟩ := List.forall_mem_cons.mp hus
    have hu' : s.store.Copyable u := hu.grows h₀
    obtain ⟨t₁, hadds, ⟨-, u', hclone, hcopied⟩ | ⟨hcyclic, -⟩⟩ := Run.clone_cases hu'.belongs pos
    · obtain ⟨us', t, hmapM, hadds', hall⟩ := ih hus (h₀.trans hadds.store)
      refine ⟨u' :: us', t, ?_, hadds.trans hadds', .cons ?_ hall⟩
      · rw [List.mapM_cons, Run.run_bind, hclone]
        simp only [Run.run_bind, hmapM, run_pure]
      · exact (hcopied.before hu.belongs h₀).behind hadds'.store
    · exact absurd hu'.acyclic hcyclic

/-! ## The functions that copy -/

namespace Builtin

variable {b : Builtin} {pos p : Pos} {more : List Value}

/-- What a function takes out of an array. -/
inductive Extract where
  | nothing
  | one (u : Value)
  | several (us : List Value)

/-- What a function takes out of an array with the elements `us`, given the other arguments. -/
def extract? (b : Builtin) (us : List Value) (more : List Value) : Option Extract :=
  match b, more with
  | first, [] => some (us.head?.elim .nothing .one)
  | last, [] => some (us.getLast?.elim .nothing .one)
  | rest, [] => some (if us = [] then .nothing else .several us.tail)
  | pop, [] => some (if us = [] then .nothing else .several us.dropLast)
  | push, [u] => some (.several (us ++ [u]))
  | _, _ => none

/-- In `t`, the value is a copy of what was taken out in `s`, if anything was. -/
def Extract.Given (s t : Store) (v : Value) : Extract → Prop
  | nothing => v = .null
  | one u => s.Copied u t v
  | several us => ∃ r p, v = .array r p ∧
    List.Forall₂ (fun u u' => s.Copied u t u') us (t.array r).toList

/-- From `s` on only additions are made, and they end with a fresh copy of what was taken out. -/
def Gives (s : State) (x : Extract) (ending : Ending Value) : Prop :=
  ∃ v t, ending = .ok v t ∧ s.Adds t ∧ s.store.Fresh t.store v ∧ x.Given s.store t.store v

theorem gives_copies {us : List Value} (hus : ∀ u ∈ us, s.store.Copyable u) :
    Gives s (.several us) (copies pos us s) := by
  obtain ⟨us', t, hmapM, hadds, hall⟩ := mapM_clone hus (.refl s.store) pos
  have hadded : t.Adds { t with store := (t.store.newArray us'.toArray).2 } :=
    ⟨.newArray t.store _, rfl, rfl⟩
  have hcopied := hall.imp fun u u' h => h.behind hadded.store
  have helements : (t.store.newArray us'.toArray).2.array ⟨t.store.arrays.size⟩ = us'.toArray := by
    simp [Store.newArray, Store.array]
  refine ⟨.array ⟨t.store.arrays.size⟩ pos,
    { t with store := (t.store.newArray us'.toArray).2 }, ?_, hadds.trans hadded, ?_, _, _, rfl, ?_⟩
  · rw [copies, Run.run_bind, hmapM]
    rfl
  · refine .of_array ⟨by simp [Store.Has, Store.newArray], ?_⟩ fun u' hu' => ?_
    · exact Nat.not_lt.mpr hadds.store.arrays.length_le
    · rw [helements] at hu'
      obtain ⟨u, hu, hcopy⟩ := Store.exists_left_of_mem hcopied (List.mem_toArray.mp hu')
      exact .of_copied hcopy (hus u hu).plain
  · rw [helements]
    exact hcopied

theorem gives_clone {u : Value} (hu : s.store.Copyable u) :
    Gives s (.one u) (clone u pos s) := by
  obtain ⟨t, hadds, ⟨-, u', hclone, hcopied⟩ | ⟨hcyclic, -⟩⟩ := Run.clone_cases hu.belongs pos
  · exact ⟨u', t, hclone, hadds, .of_copied hcopied hu.plain, hcopied⟩
  · exact absurd hu.acyclic hcyclic

theorem gives_null : Gives s .nothing (.ok .null s) :=
  ⟨.null, s, rfl, .refl s, .of_none rfl, rfl⟩

theorem gives_pickOf {element? : Array Value → Option Value} {char? : String → Option Char}
    (hus : ∀ u ∈ s.store.array r, s.store.Copyable u)
    (hmem : ∀ u, element? (s.store.array r) = some u → u ∈ s.store.array r) :
    Gives s ((element? (s.store.array r)).elim .nothing .one)
      (pickOf b element? char? pos (.array r p) s) := by
  rw [pickOf, Run.run_bind, show elements r s = .ok (s.store.array r) s from rfl]
  dsimp only
  cases hfound : element? (s.store.array r) with
  | none => exact gives_null
  | some u => exact gives_clone (hus u (hmem u hfound))

variable {x : Extract}

/-- A function gives a copy of what it takes out of its array. -/
theorem run_extract (hx : b.extract? (s.store.array r).toList more = some x)
    (hargs : ∀ a ∈ .array r p :: more, s.store.Copyable a) :
    ∃ ending, b.run settings pos (.array r p :: more) s = .done ending ∧ Gives s x ending := by
  obtain ⟨harray, hmore⟩ := List.forall_mem_cons.mp hargs
  have hus : ∀ u ∈ (s.store.array r).toList, s.store.Copyable u := fun u hu => harray.of_inner hu
  have hus' : ∀ u ∈ s.store.array r, s.store.Copyable u :=
    fun u hu => hus u (Array.mem_toList_iff.mpr hu)
  unfold extract? at hx
  split at hx
  all_goals cases hx
  case h_1 =>
    refine ⟨_, rfl, ?_⟩
    rw [List.head?_eq_getElem?, Array.getElem?_toList]
    exact gives_pickOf hus' fun u hu => Array.mem_of_getElem? hu
  case h_2 =>
    refine ⟨_, rfl, ?_⟩
    rw [Array.getLast?_toList]
    exact gives_pickOf hus' fun u hu => Array.mem_of_back? hu
  case h_3 =>
    refine ⟨restOf pos (.array r p) s, rfl, ?_⟩
    rw [restOf, Run.run_bind, show elements r s = .ok (s.store.array r) s from rfl]
    dsimp only
    cases hfound : (s.store.array r).toList with
    | nil => exact gives_null
    | cons u us =>
      rw [hfound] at hus
      exact gives_copies (List.forall_mem_cons.mp hus).2
  case h_4 =>
    refine ⟨popOf pos (.array r p) s, rfl, ?_⟩
    rw [popOf, Run.run_bind, show elements r s = .ok (s.store.array r) s from rfl]
    dsimp only
    cases hfound : (s.store.array r).toList with
    | nil => exact gives_null
    | cons u us =>
      rw [hfound] at hus
      exact gives_copies fun u' hu' => hus u' (List.mem_of_mem_dropLast hu')
  case h_5 w =>
    refine ⟨pushOnto pos w (.array r p) s, rfl, ?_⟩
    rw [pushOnto, Run.run_bind, show elements r s = .ok (s.store.array r) s from rfl]
    refine gives_copies fun u hu => ?_
    rcases List.mem_append.mp hu with hu | hu
    · exact hus u hu
    · exact hmore u hu

/-- The functions that copy. -/
def copiers : List Builtin := [first, last, rest, push, pop]

/-- What comes of a function that copies: a fault, or a fresh value. -/
def Copying (s : State) (ending : Ending Value) : Prop :=
  (∃ f t, ending = .error (.fault f) t ∧ s.Adds t) ∨
    ∃ v t, ending = .ok v t ∧ s.Adds t ∧ s.store.Fresh t.store v

theorem Gives.copying {ending : Ending Value} (h : Gives s x ending) : Copying s ending := by
  obtain ⟨v, t, hend, hadds, hfresh, -⟩ := h
  exact .inr ⟨v, t, hend, hadds, hfresh⟩

theorem Copying.fault (f : Fault) : Copying s (.error (.fault f) s) := .inl ⟨f, s, rfl, .refl s⟩

theorem copying_pickOf {element? : Array Value → Option Value} {char? : String → Option Char}
    (hv : ∀ r p, v ≠ .array r p) : Copying s (pickOf b element? char? pos v s) := by
  cases v with
  | array r p => exact absurd rfl (hv r p)
  | string text p =>
    rw [pickOf]
    cases char? text with
    | some c => exact .inr ⟨_, s, rfl, .refl s, .of_none rfl⟩
    | none => exact gives_null.copying
  | _ => exact .fault _

/-- Whether something is taken out depends on the number of arguments alone. -/
theorem run_of_extract?_eq_none {us : List Value} (hb : b ∈ copiers)
    (hx : b.extract? us more = none) :
    b.run settings pos (v :: more) s = .done (.error (.fault
      ⟨pos, .builtinCount (v :: more).length (b.arity.getD 0).repr⟩) s) := by
  cases b with
  | first | last | rest | pop =>
    cases more with
    | nil => cases hx
    | cons _ _ => rfl
  | push =>
    match more with
    | [_] => cases hx
    | [] | _ :: _ :: _ => rfl
  | _ => exact absurd hb (by decide)

/-- Without an array there is nothing to be copied. -/
theorem run_of_not_array (hb : b ∈ copiers) (hv : ∀ r p, v ≠ .array r p) :
    ∃ ending, b.run settings pos (v :: more) s = .done ending ∧ Copying s ending := by
  cases b with
  | first | last =>
    cases more with
    | nil => exact ⟨_, rfl, copying_pickOf hv⟩
    | cons _ _ => exact ⟨_, rfl, .fault _⟩
  | rest | pop =>
    cases more with
    | nil =>
      cases v with
      | array r p => exact absurd rfl (hv r p)
      | _ => exact ⟨_, rfl, .fault _⟩
    | cons _ _ => exact ⟨_, rfl, .fault _⟩
  | push =>
    match more with
    | [_] =>
      cases v with
      | array r p => exact absurd rfl (hv r p)
      | _ => exact ⟨_, rfl, .fault _⟩
    | [] | _ :: _ :: _ => exact ⟨_, rfl, .fault _⟩
  | _ => exact absurd hb (by decide)

theorem run_copier (hb : b ∈ copiers) (hargs : ∀ a ∈ args, s.store.Copyable a) :
    ∃ ending, b.run settings pos args s = .done ending ∧ Copying s ending := by
  match args with
  | [] =>
    cases b with
    | first | last | rest | push | pop => exact ⟨_, rfl, .fault _⟩
    | _ => exact absurd hb (by decide)
  | v :: more =>
    by_cases hv : ∃ r p, v = .array r p
    · obtain ⟨r, p, rfl⟩ := hv
      cases hx : b.extract? (s.store.array r).toList more with
      | some x =>
        obtain ⟨ending, hrun, hgives⟩ := run_extract hx hargs
        exact ⟨ending, hrun, hgives.copying⟩
      | none => exact ⟨_, run_of_extract?_eq_none hb hx, .fault _⟩
    · exact run_of_not_array hb fun r p heq => hv ⟨r, p, heq⟩

theorem Gives.of_adds {s₁ : State} {ending : Ending Value} (h : Gives s₁ x ending)
    (hadds : s.Adds s₁) (hstore : s₁.store = s.store) : Gives s x ending := by
  obtain ⟨v, t, hend, hadds', hfresh, hgiven⟩ := h
  rw [hstore] at hfresh hgiven
  exact ⟨v, t, hend, hadds.trans hadds', hfresh, hgiven⟩

theorem Copying.of_adds {s₁ : State} {ending : Ending Value} (h : Copying s₁ ending)
    (hadds : s.Adds s₁) (hstore : s₁.store = s.store) : Copying s ending := by
  rcases h with ⟨f, t, hend, hadds'⟩ | ⟨v, t, hend, hadds', hfresh⟩
  · exact .inl ⟨f, t, hend, hadds.trans hadds'⟩
  · rw [hstore] at hfresh
    exact .inr ⟨v, t, hend, hadds.trans hadds', hfresh⟩

theorem apply_extract (settings : Settings) (pos : Pos)
    (hx : b.extract? (s.store.array r).toList more = some x)
    (hargs : ∀ a ∈ .array r p :: more, s.store.Copyable a) :
    ∃ ending, Eval.apply settings pos (.builtin b) (.array r p :: more) s = .done ending ∧
      Gives s x ending := by
  have hstore : (traced settings 2 ("call builtin " ++ b.name) s).store = s.store := traced_store ..
  rcases apply_cases settings pos b (.array r p :: more) s with ⟨n, harity, hn, -⟩ | happly
  · have hcount : b.arity = some (more.length + 1) := by
      unfold extract? at hx
      split at hx
      all_goals first | rfl | cases hx
    rw [hcount] at harity
    exact absurd (Option.some.inj harity) hn
  · rw [happly]
    rw [← hstore] at hx hargs
    obtain ⟨ending, hrun, hgives⟩ := run_extract hx hargs
    exact ⟨ending, hrun, hgives.of_adds (.traced settings 2 _ s) hstore⟩

theorem apply_copier (settings : Settings) (pos : Pos) (hb : b ∈ copiers)
    (hargs : ∀ a ∈ args, s.store.Copyable a) :
    ∃ ending, Eval.apply settings pos (.builtin b) args s = .done ending ∧ Copying s ending := by
  have hstore : (traced settings 2 ("call builtin " ++ b.name) s).store = s.store := traced_store ..
  rcases apply_cases settings pos b args s with ⟨n, -, -, happly⟩ | happly
  · exact ⟨_, happly, .fault _⟩
  · rw [happly]
    rw [← hstore] at hargs
    obtain ⟨ending, hrun, hcopying⟩ := run_copier hb hargs
    exact ⟨ending, hrun, hcopying.of_adds (.traced settings 2 _ s) hstore⟩

end Builtin

/-! ## The main statement -/

/-- **Copies are separate.** An acyclic value of the store without `return` signals has a copy; all
values that a session has at hand are values of its store (`Session.belongs_of_mem_values`). Copying
adds to the store and changes nothing; the copy is shown by the same text, has the length and the
look-ups of the value, and all arrays and hashes that it reaches are new. From then on the two share
nothing, and a call that changes an array of one of them does not change how the other is shown. For
such arguments the functions `first`, `last`, `rest`, `push` and `pop` end in a fault or with a
value of which all arrays and hashes are new, and which is in the same way separate from every
argument. Given an array and the arguments that they ask for they do not fail, and what they give is
a copy of what they take out. At any moment whatsoever, a call that changes an array which a value
does not reach does not change how the value is shown. -/
theorem copies_are_separate (settings : Settings) (s : State) :
    (∀ v, s.store.Copyable v → ∀ pos, ∃ v' t, clone v pos s = .ok v' t ∧ s.Adds t ∧
      (∃ text, s.store.inspect? v = some text ∧ t.store.inspect? v' = some text) ∧
      s.store.Alike v t.store v' ∧
      (∀ c, t.store.Reaches .showing v' c → s.store.New t.store c) ∧ Separate settings t v v') ∧
    (∀ b ∈ Builtin.copiers, ∀ pos args, (∀ a ∈ args, s.store.Copyable a) →
      ∃ ending, Eval.apply settings pos (.builtin b) args s = .done ending ∧
        ((∃ f t, ending = .error (.fault f) t ∧ s.Adds t) ∨
          ∃ v t, ending = .ok v t ∧ s.Adds t ∧
            (∀ c, t.store.Reaches .showing v c → s.store.New t.store c) ∧
            ∀ a ∈ args, Separate settings t a v)) ∧
    (∀ (b : Builtin) pos r p more x, b.extract? (s.store.array r).toList more = some x →
      (∀ a ∈ .array r p :: more, s.store.Copyable a) →
      ∃ v t, Eval.apply settings pos (.builtin b) (.array r p :: more) s = .done (.ok v t) ∧
        x.Given s.store t.store v) ∧
    ∀ t r args u w, Edited settings r args t u → ¬ t.store.Reaches .showing w (.array r) →
      u.store.inspect? w = t.store.inspect? w := by
  refine ⟨fun v hv pos => ?_, fun b hb pos args hargs => ?_, fun b pos r p more x hx hargs => ?_,
    fun t r args u w hedited hw => hedited.inspect?_eq hw⟩
  · obtain ⟨t, hadds, ⟨-, v', hclone, hcopied⟩ | ⟨hcyclic, -⟩⟩ := Run.clone_cases hv.belongs pos
    · have hfresh : s.store.Fresh t.store v' := .of_copied hcopied hv.plain
      obtain ⟨x, hx⟩ := Option.isSome_iff_exists.mp
        (Store.isSome_snapshot?_iff.mpr (hv.plain.acyclic hv.acyclic))
      have hx' : t.store.snapshot? v' = some x := hcopied.snapshot.trans hx
      refine ⟨v', t, hclone, hadds, ⟨x.text, ?_, ?_⟩, ?_, hfresh.new, ?_⟩
      · rw [Store.inspect?, hx]
        rfl
      · rw [Store.inspect?, hx']
        rfl
      · exact Store.alike_of_snapshot? hv.belongs hcopied.belongs hx hx'
      · exact separate_of_split (hfresh.split hadds.store hv.belongs)
    · exact absurd hv.acyclic hcyclic
  · obtain ⟨ending, happly, hfault | ⟨v, t, hend, hadds, hfresh⟩⟩ :=
      Builtin.apply_copier settings pos hb hargs
    · exact ⟨ending, happly, .inl hfault⟩
    · refine ⟨ending, happly, .inr ⟨v, t, hend, hadds, hfresh.new, fun a ha => ?_⟩⟩
      exact separate_of_split (hfresh.split hadds.store (hargs a ha).belongs)
  · obtain ⟨ending, happly, v, t, rfl, -, -, hgiven⟩ :=
      Builtin.apply_extract settings pos hx hargs
    exact ⟨v, t, happly, hgiven⟩

theorem copyable_sharedAndCyclic : sharedAndCyclic.store.Copyable (.array ⟨1⟩ .start) := by
  refine ⟨?_, by decide, nofun, ?_⟩
  · refine sound_sharedAndCyclic.belongs fun c hc => ?_
    cases hc
    exact Nat.lt_of_lt_of_le Nat.one_lt_two (Nat.le_succ 2)
  · rintro (⟨⟨i⟩⟩ | ⟨⟨i⟩⟩) - u hu
    · have hi : i < 3 := Store.has_of_mem_items hu
      obtain rfl | rfl | rfl : i = 0 ∨ i = 1 ∨ i = 2 := by omega
      · obtain rfl := List.mem_singleton.mp hu
        nofun
      · obtain rfl | rfl := List.mem_pair.mp hu <;> nofun
      · obtain rfl := List.mem_singleton.mp hu
        nofun
    · exact absurd (Store.has_of_mem_items hu) (Nat.not_lt_zero i)

theorem not_reaches_sharedAndCyclic :
    ¬ sharedAndCyclic.store.Reaches .showing (.array ⟨1⟩ .start) (.array ⟨2⟩) := by
  intro hreaches
  rcases Store.reaches_iff.mp hreaches with hself | ⟨u, hu, hrest⟩
  · cases hself
  · obtain rfl : u = .array ⟨0⟩ .start := by
      rcases List.mem_pair.mp hu with rfl | rfl <;> rfl
    rcases Store.reaches_iff.mp hrest with hself | ⟨u', hu', hlast⟩
    · cases hself
    · obtain rfl := List.mem_singleton.mp hu'
      exact Store.not_reaches_of_none rfl hlast

theorem copies_are_separate_shared :
    let s := sharedAndCyclic
    let shared : Value := .array ⟨1⟩ .start
    s.store.Copyable shared ∧
      (∃ v' t, clone shared .start s = .ok v' t ∧ Separate {} t shared v') ∧
      (∃ v t, Eval.apply {} .start (.builtin .rest) [shared] s = .done (.ok v t) ∧
        (Builtin.Extract.several [.array ⟨0⟩ .start]).Given s.store t.store v) ∧
      ∃ u, Edited {} ⟨2⟩ [.null] s u ∧ u.store.inspect? shared = s.store.inspect? shared := by
  intro s shared
  have hshared : s.store.Copyable shared := copyable_sharedAndCyclic
  obtain ⟨hclone, -, hextract, hedited⟩ := copies_are_separate {} s
  obtain ⟨v', t, hv', -, -, -, -, hseparate⟩ := hclone shared hshared .start
  have hpush : Edited {} ⟨2⟩ [.null] s _ := ⟨.push, by decide, .start, .start, _, rfl, rfl⟩
  exact ⟨hshared, ⟨v', t, hv', hseparate⟩, hextract .rest .start ⟨1⟩ .start [] _ rfl
    (List.forall_mem_singleton.mpr hshared), _, hpush,
    hedited s ⟨2⟩ _ _ _ hpush not_reaches_sharedAndCyclic⟩

end Vorn
