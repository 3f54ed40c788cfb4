import Vorn.Proofs.Eval.Calls
import Vorn.Proofs.Eval.Drift

/-!
# What calls change

Five methods of arrays change something that was there, namely their array, and by one insertion or
removal (`ArrayMethod.edit?`). All other methods and the built-in functions only add collections to
the store (`State.Adds`), and only `print` prints; those with a callback do no more than that
between its calls. A call that ends in a fault changes nothing. And nothing at all changes a hash.
The headline is `calls_change_little`.
-/

namespace Vorn

open Run Script

/-! ## Two drifts -/

namespace Drift

/-- Nothing but new collections. -/
def adding : Drift := ⟨State.Adds, .refl, .trans⟩

/-- The hashes stay as they are, and others may come. -/
def hashes : Drift where
  Leads s t := s.store.tables.toList <+: t.store.tables.toList
  refl _ := List.prefix_rfl
  trans h h' := h.trans h'

theorem natural_hashes : hashes.Natural where
  basic h s := (h.stays s).tables
  scopes _ _ := List.prefix_rfl
  trace _ _ := List.prefix_rfl

end Drift

/-! ## The methods that change their array -/

/-- Changing an array makes its contents what the change makes of them. -/
theorem Store.modifyArray_eq (s : Store) (r : ArrayRef) (f : Array Value → Array Value) :
    s.modifyArray r f = s.modifyArray r fun _ => f (s.array r) := by
  have harrays : s.arrays.modify r.index f = s.arrays.modify r.index fun _ => f (s.array r) := by
    refine Array.ext (by simp) fun i hi _ => ?_
    have hi : i < s.arrays.size := by simpa using hi
    rw [Array.getElem_modify, Array.getElem_modify]
    split
    · rename_i heq
      subst heq
      simp [array, Array.getD_eq_getD_getElem?, hi]
    · rfl
  simp only [modifyArray, harrays]

namespace ArrayMethod

variable {settings : Settings} {r : ArrayRef} {array : Value} {args : List Value} {s : State}

/-- The element at an index, and the others. -/
def taken? (vs : Array Value) (i : Nat) : Option (Value × Array Value) :=
  vs[i]?.map fun v => (v, vs.eraseIdxIfInBounds i)

/-- What a method makes of an array with the contents `vs`: its result and the new contents. The
result of an insertion is the array itself. -/
def edit? (m : ArrayMethod) (array : Value) (args : List Value) (vs : Array Value) :
    Option (Value × Array Value) :=
  match m, args with
  | push, [v] | append, [v] => some (array, vs.push v)
  | prepend, [v] => some (array, #[v] ++ vs)
  | shift, [] => taken? vs 0
  | pop, [] => taken? vs (vs.size - 1)
  | pop, [.int i _] => if 0 ≤ i then taken? vs i.toNat else none
  | _, _ => none

/-- The array is changed as the edit says, and nothing else is; where there is no edit, the call is
a fault and changes nothing. -/
def Edits (r : ArrayRef) (edit : Option (Value × Array Value)) (s : State)
    (ending : Ending Value) : Prop :=
  match edit with
  | some (v, vs) => ending = .ok v { s with store := s.store.modifyArray r fun _ => vs }
  | none => ∃ f, ending = .error (.fault f) s

/-- The methods that change their array. -/
def mutators : List ArrayMethod := [push, append, prepend, shift, pop]

theorem mem_mutators_iff {m : ArrayMethod} : m ∈ mutators ↔ m.reach = .changing := by
  cases m <;> decide

theorem edits_addElement {m : ArrayMethod} {add : Value → Array Value → Array Value} (v : Value) :
    Edits r (some (array, add v (s.store.array r))) s (addElement m r array add [v] s) := by
  change _ = _
  rw [← Store.modifyArray_eq]
  rfl

theorem edits_removeAt {i : Nat} (hi : i < (s.store.array r).size) :
    Edits r (taken? (s.store.array r) i) s (removeAt r i s) := by
  rw [taken?, Array.getElem?_eq_getElem hi]
  change _ = _
  rw [← Store.modifyArray_eq s.store r (·.eraseIdxIfInBounds i)]
  change EStateM.Result.ok ((s.store.array r)[i]?.getD .null) _ = _
  rw [Array.getElem?_eq_getElem hi]
  rfl

theorem edits_shiftFirst {pos : Pos} :
    Edits r (taken? (s.store.array r) 0) s (shiftFirst r pos s) := by
  rw [shiftFirst, Run.run_bind, show elements r s = .ok (s.store.array r) s from rfl]
  dsimp only
  split
  · rename_i hempty
    rw [Array.isEmpty_iff.mp hempty]
    exact ⟨_, rfl⟩
  · rename_i hsome
    exact edits_removeAt (by simpa [Array.size_pos_iff] using hsome)

theorem taken?_eq_none {vs : Array Value} {i : Nat} (h : vs.size ≤ i) : taken? vs i = none := by
  rw [taken?, Array.getElem?_eq_none h]
  rfl

/-- `pop` looks at the number of its arguments first, and then at the array. -/
theorem run_popElement (pos : Pos) : args.length ≤ 1 → popElement r pos args s =
    if (s.store.array r).size = 0 then .error (.fault ⟨pos, .emptyArray (callee .pop)⟩) s
    else (match args with
      | [] => removeAt r ((s.store.array r).size - 1)
      | .int i _ :: _ =>
        if i < 0 ∨ ((s.store.array r).size : Int) ≤ i then fault pos .popOutOfRange
        else removeAt r i.toNat
      | _ => fault pos .popNotInteger : Run Value) s := by
  intro hargs
  rw [popElement, if_neg (by omega)]
  dsimp only
  rw [Run.run_bind, show elements r s = .ok (s.store.array r) s from rfl]
  dsimp only
  split <;> rfl

theorem edits_popElement {pos : Pos} :
    Edits r (edit? .pop array args (s.store.array r)) s (popElement r pos args s) := by
  match args with
  | [] =>
    rw [run_popElement pos (by simp)]
    split
    · rename_i hempty
      rw [edit?, taken?_eq_none (by omega)]
      exact ⟨_, rfl⟩
    · exact edits_removeAt (by omega)
  | [.int i p] =>
    rw [run_popElement pos (by simp), edit?]
    by_cases hempty : (s.store.array r).size = 0
    · rw [if_pos hempty, taken?_eq_none (by omega), ite_self]
      exact ⟨_, rfl⟩
    · rw [if_neg hempty]
      dsimp only
      by_cases hi : 0 ≤ i
      · rw [if_pos hi]
        split
        · rw [taken?_eq_none (by omega)]
          exact ⟨_, rfl⟩
        · exact edits_removeAt (by omega)
      · rw [if_neg hi, if_pos (.inl (by omega))]
        exact ⟨_, rfl⟩
  | [.null] | [.bool _] | [.float _ _] | [.string _ _] | [.array _ _] | [.hash _ _] | [.function _]
  | [.builtin _] | [.returned _ _ _] | [.break _ _] | [.continue _ _] =>
    rw [run_popElement pos (by simp)]
    split <;> exact ⟨_, rfl⟩
  | a :: b :: rest =>
    have hnone : edit? .pop array (a :: b :: rest) (s.store.array r) = none := by
      cases a <;> rfl
    rw [hnone]
    exact ⟨_, rfl⟩

/-- A method that changes its array edits it. -/
theorem edits_run {m : ArrayMethod} (hm : m ∈ mutators) :
    ∃ ending, m.run settings r array args s = .done ending ∧
      Edits r (m.edit? array args (s.store.array r)) s ending := by
  cases m with
  | pop => exact ⟨_, rfl, edits_popElement⟩
  | shift =>
    cases args with
    | nil => exact ⟨_, rfl, edits_shiftFirst⟩
    | cons v args => exact ⟨_, rfl, _, rfl⟩
  | push | append | prepend =>
    match args with
    | [v] => exact ⟨_, rfl, edits_addElement v⟩
    | [] => exact ⟨_, rfl, _, rfl⟩
    | _ :: _ :: _ => exact ⟨_, rfl, _, rfl⟩
  | _ => cases mem_mutators_iff.mp hm

end ArrayMethod

/-! ## Built-in functions -/

namespace Builtin

/-- `print` leaves the store alone, and it cannot be at fault. -/
theorem printAll_spec (vs : List Value) (s : State) :
    (Ending.state (printAll vs s)).store = s.store ∧
      ∀ f s', printAll vs s ≠ .error (.fault f) s' := by
  induction vs generalizing s with
  | nil => exact ⟨rfl, by rintro _ _ ⟨⟩⟩
  | cons v vs ih =>
    rw [printAll, Run.run_bind, inspect, Run.run_bind, show store s = .ok s.store s from rfl]
    dsimp only
    cases s.store.inspect? v with
    | none => exact ⟨rfl, by rintro _ _ ⟨⟩⟩
    | some text => exact ih { s with output := s.output ++ text ++ "\n" }

end Builtin

/-! ## Calls -/

section

variable (settings : Settings) (pos : Pos) (args : List Value) (s : State)

/-- All built-in functions but `print` add only, between the calls of their callback if they have
one. -/
theorem Builtin.drifts_apply {b : Builtin} (hb : b ≠ .print) :
    (Eval.apply settings pos (.builtin b) args s).Drifts .adding
      (Task.Calls fun f => b.callsBack = true ∧ f ∈ args) s := by
  have hreach : b.reach = .adding := by
    cases b <;> first | rfl | contradiction
  rcases apply_cases settings pos b args s with ⟨n, -, -, happly⟩ | happly
  · rw [happly]
    exact State.Adds.refl s
  · rw [happly]
    have hlibrary : Library b.reach _ (b.run settings pos args) := library_run
    rw [hreach] at hlibrary
    have htraced : s.Adds (traced settings 2 ("call builtin " ++ b.name) s) := .traced _ _ _ s
    exact (hlibrary.drifts (D := .adding) (fun h => h.adds) _).of_leads htraced

/-- The script of a method that does not change its array adds only. -/
theorem Eval.drifts_callMethod {receiver : Value} {name : String}
    (hname : ∀ m ∈ ArrayMethod.mutators, receiver.arrayMethod? name ≠ some m) :
    (Eval.callMethod settings receiver pos name args s).Drifts .adding
      (Task.Calls fun f => receiver.methodCallsBack name = true ∧ f ∈ args) s := by
  have hreach : receiver.methodReach name = .adding := by
    unfold Value.methodReach
    split
    · rename_i m hm
      cases hm' : m.reach with
      | adding => rfl
      | changing => exact absurd hm (hname m (ArrayMethod.mem_mutators_iff.mpr hm'))
    · rfl
  have hlibrary : Library (receiver.methodReach name) _
      (callMethod settings receiver pos name args) := library_callMethod
  rw [hreach] at hlibrary
  exact hlibrary.drifts (D := .adding) (fun h => h.adds) s

end

/-- Steps that drift and call nothing are at their end. -/
theorem Step.Drifts.ends {α : Type} {D : Drift} {C : Value → Prop} (hC : ∀ f, ¬ C f) :
    ∀ {m : Step α} {base : State}, m.Drifts D (Task.Calls C) base →
      ∃ ending, m = .done ending ∧ D.Leads base (Ending.state ending)
  | .done ending, _, hm => ⟨ending, rfl, hm⟩
  | .ask (.apply _ f _) _ _, _, hm => absurd hm.1 (hC f)

/-- **What calls change.** A built-in function without a callback ends at once, and all that
happened is that collections came; `print` leaves the whole store alone, and it is never at fault.
A method without a callback that is none of the five does the same. Each of the five edits its own
array or is at fault, and then nothing has changed. Functions and methods with a callback only add
between its calls. And from any state on, whatever source texts run, a hash that is there is the
same at every later moment. -/
theorem calls_change_little (settings : Settings) :
    (∀ pos b args s, Builtin.callsBack b = false →
      ∃ ending, Eval.apply settings pos (.builtin b) args s = .done ending ∧
        (b ≠ .print → s.Adds ending.state) ∧
        (b = .print → ending.state.store = s.store ∧ ∀ f s', ending ≠ .error (.fault f) s')) ∧
    (∀ receiver pos name args s, receiver.methodCallsBack name = false →
      (∀ m ∈ ArrayMethod.mutators, receiver.arrayMethod? name ≠ some m) →
      ∃ ending, Eval.callMethod settings receiver pos name args s = .done ending ∧
        s.Adds ending.state) ∧
    (∀ r p pos name args s, ∀ m ∈ ArrayMethod.mutators, ArrayMethod.ofName? name = some m →
      ∃ ending, Eval.callMethod settings (.array r p) pos name args s = .done ending ∧
        ArrayMethod.Edits r (m.edit? (.array r p) args (s.store.array r)) s ending) ∧
    (∀ pos b args s, Builtin.callsBack b = true →
      (Eval.apply settings pos (.builtin b) args s).Drifts .adding (Task.Calls (· ∈ args)) s) ∧
    (∀ receiver pos name args s, receiver.methodCallsBack name = true →
      (Eval.callMethod settings receiver pos name args s).Drifts .adding
        (Task.Calls (· ∈ args)) s) ∧
    ∀ sources s, Drift.hashes.Chain s ((Session.history settings sources s).map (·.state))
      (Session.after settings sources s) := by
  refine ⟨fun pos b args s hb => ?_, fun receiver pos name args s hcalls hname => ?_,
    fun r p pos name args s m hm hname => ?_, fun pos b args s hb => ?_,
    fun receiver pos name args s hcalls => ?_, Drift.natural_hashes.chain_session settings⟩
  · by_cases hprint : b = .print
    · subst hprint
      obtain ⟨hstore, hfault⟩ :=
        Builtin.printAll_spec args (traced settings 2 "call builtin print" s)
      rcases Builtin.apply_cases settings pos .print args s with ⟨n, harity, -⟩ | happly
      · cases harity
      · rw [traced_store] at hstore
        exact ⟨_, happly, fun h => absurd rfl h, fun _ => ⟨hstore, hfault⟩⟩
    · obtain ⟨ending, hend, hadds⟩ := (Builtin.drifts_apply settings pos args s hprint).ends
        (by simp [hb])
      exact ⟨ending, hend, fun _ => hadds, fun h => absurd h hprint⟩
  · exact (Eval.drifts_callMethod settings pos args s hname).ends (by simp [hcalls])
  · have hcall : Eval.callMethod settings (.array r p) pos name args =
        m.run settings r (.array r p) args := by
      rw [Eval.callMethod, hname]
    rw [hcall]
    exact ArrayMethod.edits_run hm
  · have hprint : b ≠ .print := by
      rintro rfl
      cases hb
    exact (Builtin.drifts_apply settings pos args s hprint).mono (Task.Calls.mono fun f h => h.2)
  · refine (Eval.drifts_callMethod settings pos args s fun m hm hmethod => ?_).mono
      (Task.Calls.mono fun f h => h.2)
    rw [Value.methodCallsBack, hmethod] at hcalls
    revert hm
    cases m <;> first | decide | cases hcalls

/-- A state with an array of one element and a hash of one entry. -/
def arrayAndHash : State where
  store.arrays := #[#[.int 7 .start]]
  store.tables := #[.ofEntries [⟨.bool true, .start, .null⟩]]

/-- The function `func (x) { return x }`. -/
def echo : Closure where
  id := 0
  params := ["x"]
  body := .mk .start [.return .start (some (.ident .start "x"))]
  scope := Scopes.root
  pos := .start

/-- A function at fault, a method of a hash, a method that changes its array, with success and at
fault, a function and a method that call back, and a session in which a hash is copied. -/
theorem calls_change_little_arrayAndHash :
    let s := arrayAndHash
    let array : Value := .array ⟨0⟩ .start
    let hash : Value := .hash ⟨0⟩ .start
    let f : Value := .function echo
    let called := Eval.apply {} .start (.builtin .map) [array, f] s
    let chained := Eval.callMethod {} array .start "filter" [f] s
    let sources := ["let h = \x7b1: 2\x7d; let a = [h];", "a.push(h.keys()); first(a)"]
    (∃ fault s', Eval.apply {} .start (.builtin .len) [.null] s = .done (.error (.fault fault) s') ∧
        s.Adds s') ∧
      (∃ v s', Eval.callMethod {} hash .start "keys" [] s = .done (.ok v s') ∧ s.Adds s') ∧
      Eval.callMethod {} array .start "pop" [] s =
        .done (.ok (.int 7 .start) { s with store := s.store.modifyArray ⟨0⟩ fun _ => #[] }) ∧
      (∃ fault, Eval.callMethod {} array .start "pop" [.int 1 .start] s =
        .done (.error (.fault fault) s)) ∧
      ((∃ s' resume, called = .ask (.apply .start f [.int 7 .start]) s' resume) ∧
        called.Drifts .adding (Task.Calls (· ∈ [array, f])) s) ∧
      ((∃ s' resume, chained = .ask (.apply .start f [.int 7 .start]) s' resume) ∧
        chained.Drifts .adding (Task.Calls (· ∈ [f])) s) ∧
      (Session.after {} sources Session.start).store.tables.size = 2 ∧
      Drift.hashes.Chain Session.start ((Session.history {} sources Session.start).map (·.state))
        (Session.after {} sources Session.start) := by
  intro s array hash f called chained sources
  obtain ⟨hfunction, hmethod, hedits, hcalled, hchained, hhashes⟩ := calls_change_little {}
  refine ⟨?_, ?_, ?_, ?_, ⟨⟨_, _, rfl⟩, hcalled _ _ _ _ rfl⟩, ⟨⟨_, _, rfl⟩, hchained _ _ _ _ _ rfl⟩,
    by decide +kernel, hhashes sources Session.start⟩
  · obtain ⟨ending, hend, hadds, -⟩ := hfunction .start .len [.null] s rfl
    change Step.done _ = Step.done ending at hend
    obtain rfl := Step.done.inj hend
    exact ⟨_, _, rfl, hadds (by decide)⟩
  · obtain ⟨ending, hend, hadds⟩ := hmethod hash .start "keys" [] s rfl (fun m _ => nofun)
    change Step.done _ = Step.done ending at hend
    obtain rfl := Step.done.inj hend
    exact ⟨_, _, rfl, hadds⟩
  · obtain ⟨ending, hend, hedit⟩ := hedits ⟨0⟩ .start .start "pop" [] s .pop (by decide) rfl
    have hpop : ArrayMethod.pop.edit? array [] (s.store.array ⟨0⟩) = some (.int 7 .start, #[]) := by
      simp [ArrayMethod.edit?, ArrayMethod.taken?, s, arrayAndHash, Store.array,
        Array.eraseIdxIfInBounds_eq]
    rw [hpop] at hedit
    exact hend.trans (congrArg _ hedit)
  · obtain ⟨ending, hend, hedit⟩ :=
      hedits ⟨0⟩ .start .start "pop" [.int 1 .start] s .pop (by decide) rfl
    have hpop : ArrayMethod.pop.edit? array [.int 1 .start] (s.store.array ⟨0⟩) = none := rfl
    rw [hpop] at hedit
    obtain ⟨fault, rfl⟩ := hedit
    exact ⟨fault, hend⟩

end Vorn
