import Vorn.Proofs.Scopes

/-!
# What a look-up finds

Scopes come from the one at the start by making scopes and by binding names. What a look-up finds is
told from the history of these changes alone: the last value that was set in the nearest scope, from
the one asked outward, in which the name has been set.

* `History.getLocal?_scopes`: a scope itself binds what was set there last;
* `History.chain_eq`: the way outward follows the scopes around each other, and each of them is
  older than the one inside it (`History.index_lt_of_outer?`);
* `History.get?_scopes`: a look-up takes the first binding on the way;
* `History.get?_set`: binding a name in a scope matters to those look-ups alone that then end there.
-/

namespace Vorn

/-- How `n` scopes came to be. Each change is made to a scope that is there. -/
inductive History (α : Type) : Nat → Type
  | start : History α 1
  | enclose {n : Nat} (h : History α n) (outer : ScopeRef) (houter : outer.index < n) :
      History α (n + 1)
  | set {n : Nat} (h : History α n) (r : ScopeRef) (hr : r.index < n) (name : String) (value : α) :
      History α n

namespace History

variable {α : Type} {n : Nat}

/-- The scopes behind the changes. -/
def scopes : {n : Nat} → History α n → Scopes α
  | _, start => .initial
  | _, enclose h outer _ => (h.scopes.enclose outer).2
  | _, set h r _ name value => h.scopes.set r name value

/-- The value that the name was set to last in the scope. -/
def lastSet : {n : Nat} → History α n → ScopeRef → String → Option α
  | _, start, _, _ => none
  | _, enclose h _ _, r, x => h.lastSet r x
  | _, set h r' _ name value, r, x => if r = r' ∧ x = name then some value else h.lastSet r x

/-- The scopes from `r` outward, each the one in which the one before it was made. -/
def chain : {n : Nat} → History α n → ScopeRef → List ScopeRef
  | _, start, r => [r]
  | n + 1, enclose h outer _, r => if r.index = n then r :: h.chain outer else h.chain r
  | _, set h _ _ _ _, r => h.chain r

/-- Of the scopes from `r` outward, `d` is the nearest in which the name has been set. -/
def Nearest (h : History α n) (r : ScopeRef) (x : String) (d : ScopeRef) : Prop :=
  ∃ inner outer, h.chain r = inner ++ d :: outer ∧ (∀ c ∈ inner, h.lastSet c x = none) ∧
    (h.lastSet d x).isSome = true

/-! ## Scopes and their links -/

@[simp] theorem size_scopes (h : History α n) : h.scopes.size = n := by
  induction h with
  | start => rfl
  | enclose h outer houter ih => simp [scopes, ih]
  | set h r hr name value ih => simpa [scopes] using ih

/-- **A scope itself binds what was set there last.** -/
theorem getLocal?_scopes (h : History α n) (r : ScopeRef) (x : String) :
    h.scopes.getLocal? r x = h.lastSet r x := by
  induction h with
  | start =>
    obtain ⟨i⟩ := r
    cases i <;> rfl
  | enclose h outer houter ih => rw [scopes, Scopes.getLocal?_enclose, ih, lastSet]
  | set h r' hr' name value ih => simp [scopes, Scopes.getLocal?_set, lastSet, hr', ih]

/-- **The scope around another is older.** -/
theorem index_lt_of_outer? {h : History α n} {r o : ScopeRef} (ho : h.scopes.outer? r = some o) :
    o.index < r.index ∧ r.index < n := by
  induction h with
  | start =>
    obtain ⟨i⟩ := r
    cases i <;> cases ho
  | enclose h outer houter ih =>
    rw [scopes, Scopes.outer?_enclose, size_scopes] at ho
    split at ho
    · cases ho
      omega
    · have := ih ho
      omega
  | set h r' hr' name value ih =>
    rw [scopes, Scopes.outer?_set] at ho
    exact ih ho

/-- **The way outward goes from a scope to the one around it.** -/
theorem chain_eq (h : History α n) (r : ScopeRef) :
    h.chain r = r :: (h.scopes.outer? r).elim [] h.chain := by
  induction h generalizing r with
  | start =>
    obtain ⟨i⟩ := r
    cases i <;> rfl
  | @enclose n h outer houter ih =>
    -- The way outward from an older scope does not meet the new one.
    have hold : ∀ o : ScopeRef, o.index < n → (h.enclose outer houter).chain o = h.chain o :=
      fun o ho => by rw [chain, if_neg (Nat.ne_of_lt ho)]
    rw [scopes, Scopes.outer?_enclose, size_scopes, chain]
    split
    · rw [Option.elim_some, hold outer houter]
    · rw [ih]
      cases ho : h.scopes.outer? r with
      | none => rfl
      | some o =>
        have := index_lt_of_outer? ho
        rw [Option.elim_some, Option.elim_some, hold o (by omega)]
  | set h r' hr' name value ih => rw [scopes, Scopes.outer?_set]; exact ih r

/-! ## Look-ups -/

/-- A look-up takes the first binding on the way outward. -/
theorem get?_eq_findSome? (h : History α n) (r : ScopeRef) (x : String) :
    h.scopes.get? r x = (h.chain r).findSome? fun d => (h.lastSet d x).map (·, d) := by
  obtain ⟨i⟩ := r
  -- The induction is that of the look-up: the scope around another is older.
  induction i using Nat.strongRecOn with
  | ind i ih =>
    rw [Scopes.get?_eq, getLocal?_scopes, chain_eq, List.findSome?_cons]
    cases h.lastSet ⟨i⟩ x with
    | some v => rfl
    | none =>
      cases ho : h.scopes.outer? ⟨i⟩ with
      | none => rfl
      | some o =>
        have hlt : o.index < i := (index_lt_of_outer? ho).1
        exact (if_pos hlt).trans (ih o.index hlt)

/-- **A look-up finds the last value in the nearest scope where the name has been set.** -/
theorem get?_scopes (h : History α n) (r : ScopeRef) (x : String) (v : α) (d : ScopeRef) :
    h.scopes.get? r x = some (v, d) ↔ h.Nearest r x d ∧ h.lastSet d x = some v := by
  have hmap (c : ScopeRef) :
      (h.lastSet c x).map (·, c) = some (v, d) ↔ c = d ∧ h.lastSet d x = some v := by
    rw [Option.map_eq_some_iff]
    constructor
    · rintro ⟨_, hc, heq⟩
      cases heq
      exact ⟨rfl, hc⟩
    · rintro ⟨rfl, hc⟩
      exact ⟨v, hc, rfl⟩
  rw [get?_eq_findSome?, List.findSome?_eq_some_iff]
  constructor
  · rintro ⟨inner, c, outer, hchain, hfound, hinner⟩
    obtain ⟨rfl, hlast⟩ := (hmap c).mp hfound
    exact ⟨⟨inner, outer, hchain, by simpa using hinner, by simp [hlast]⟩, hlast⟩
  · rintro ⟨⟨inner, outer, hchain, hinner, -⟩, hlast⟩
    exact ⟨inner, d, outer, hchain, (hmap d).mpr ⟨rfl, hlast⟩, by simpa using hinner⟩

theorem get?_scopes_eq_none (h : History α n) (r : ScopeRef) (x : String) :
    h.scopes.get? r x = none ↔ ∀ d ∈ h.chain r, h.lastSet d x = none := by
  rw [get?_eq_findSome?, List.findSome?_eq_none_iff]
  simp

/-- Binding a name changes the first binding on a way only if the way leads to the scope and no
nearer scope binds the name. -/
theorem nearest_of_findSome?_ne {β : Type} {f g : ScopeRef → Option β} {r : ScopeRef}
    (hfg : ∀ d, d ≠ r → f d = g d) {way : List ScopeRef}
    (hne : way.findSome? f ≠ way.findSome? g) :
    ∃ inner outer, way = inner ++ r :: outer ∧ ∀ c ∈ inner, f c = none := by
  induction way with
  | nil => exact absurd rfl hne
  | cons d way ih =>
    by_cases hd : d = r
    · exact ⟨[], way, by rw [hd]; rfl, by simp⟩
    · rw [List.findSome?_cons, List.findSome?_cons, ← hfg d hd] at hne
      cases hf : f d with
      | some b => simp [hf] at hne
      | none =>
        rw [hf] at hne
        obtain ⟨inner, outer, rfl, hinner⟩ := ih hne
        exact ⟨d :: inner, outer, rfl, List.forall_mem_cons.mpr ⟨hf, hinner⟩⟩

/-- **Binding a name in a scope changes those look-ups alone that then end there.** -/
theorem get?_set (h : History α n) {r : ScopeRef} (hr : r.index < n) (name : String) (value : α)
    {r' : ScopeRef} {x : String}
    (hne : (h.set r hr name value).scopes.get? r' x ≠ h.scopes.get? r' x) :
    x = name ∧ (h.set r hr name value).Nearest r' x r := by
  rw [get?_eq_findSome?, get?_eq_findSome?] at hne
  by_cases hx : x = name
  · subst hx
    obtain ⟨inner, outer, hchain, hinner⟩ := nearest_of_findSome?_ne (r := r)
      (fun d hd => by simp [lastSet, hd]) hne
    exact ⟨rfl, inner, outer, hchain, by simpa using hinner, by simp [lastSet]⟩
  · exact absurd (by simp [lastSet, hx, chain]) hne

end History

/-- **A look-up sees the nearest binding.** Whatever scopes were made and whatever names were bound:
the scope around another is older, and the scopes from one outward follow these links; a look-up
finds the value set last in the nearest of them in which the name has been set, with that scope, and
nothing if there is none; binding a name in a scope changes no look-up but those of that name for
which the scope is then the nearest; and what a scope binds itself is what was set there last. -/
theorem lookup_nearest {α : Type} {n : Nat} (h : History α n) :
    (∀ r o, h.scopes.outer? r = some o → o.index < r.index) ∧
    (∀ r, h.chain r = r :: (h.scopes.outer? r).elim [] h.chain) ∧
    (∀ r x v d, h.scopes.get? r x = some (v, d) ↔ h.Nearest r x d ∧ h.lastSet d x = some v) ∧
    (∀ r x, h.scopes.get? r x = none ↔ ∀ d ∈ h.chain r, h.lastSet d x = none) ∧
    (∀ r hr name value r' x,
      (h.set r hr name value).scopes.get? r' x ≠ h.scopes.get? r' x →
        x = name ∧ (h.set r hr name value).Nearest r' x r) ∧
    ∀ r x, h.scopes.getLocal? r x = h.lastSet r x ∧
      h.scopes.contains r x = (h.lastSet r x).isSome :=
  ⟨fun _ _ ho => (History.index_lt_of_outer? ho).1, h.chain_eq, h.get?_scopes,
    h.get?_scopes_eq_none, fun _ hr name value _ _ => h.get?_set hr name value,
    fun r x => ⟨h.getLocal?_scopes r x, by rw [Scopes.contains, h.getLocal?_scopes]⟩⟩

/-- Three scopes, each inside the one before. The name is set in the two outer ones, and then again
in the outermost. -/
def History.shadowing : History Nat 3 :=
  let one := (History.start.set Scopes.root (by decide) "a" 1).enclose Scopes.root (by decide)
  let two := (one.set ⟨1⟩ (by decide) "a" 2).enclose ⟨1⟩ (by decide)
  two.set Scopes.root (by decide) "a" 3

/-- The innermost scope sees the value of the middle one, and setting that is what it notices. -/
theorem lookup_nearest_shadowing :
    (∃ o, History.shadowing.scopes.outer? ⟨2⟩ = some o ∧ o.index < 2) ∧
      History.shadowing.scopes.get? ⟨2⟩ "a" = some (2, ⟨1⟩) ∧
      History.shadowing.Nearest ⟨2⟩ "a" ⟨1⟩ ∧
      History.shadowing.scopes.get? Scopes.root "a" = some (3, Scopes.root) ∧
      (History.shadowing.set ⟨1⟩ (by decide) "a" 4).Nearest ⟨2⟩ "a" ⟨1⟩ ∧
      History.shadowing.scopes.contains ⟨2⟩ "a" = false := by
  obtain ⟨houter, hget, hroot, hnew⟩ :
      History.shadowing.scopes.outer? ⟨2⟩ = some ⟨1⟩ ∧
      History.shadowing.scopes.get? ⟨2⟩ "a" = some (2, ⟨1⟩) ∧
      History.shadowing.scopes.get? Scopes.root "a" = some (3, Scopes.root) ∧
      (History.shadowing.set ⟨1⟩ (by decide) "a" 4).scopes.get? ⟨2⟩ "a" = some (4, ⟨1⟩) := by
    decide +kernel
  obtain ⟨holder, -, hfinds, -, hset, hlocal⟩ := lookup_nearest History.shadowing
  refine ⟨⟨⟨1⟩, houter, holder _ _ houter⟩, hget, ((hfinds _ _ _ _).mp hget).1, hroot, ?_,
    (hlocal ⟨2⟩ "a").2⟩
  exact (hset ⟨1⟩ (by decide) "a" 4 ⟨2⟩ "a" (by rw [hnew, hget]; decide)).2

end Vorn
