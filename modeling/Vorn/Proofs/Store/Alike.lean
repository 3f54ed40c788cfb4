import Vorn.Proofs.Store.Belongs

/-!
# Values that look alike

Two values of one snapshot have the same structure all the way down. If they are arrays they have as
many elements, in the same order; if they are hashes they have the same keys in the same order, and
a look-up of any key finds values in both, or in neither, which again have one snapshot
(`Store.alike_of_snapshot?`).
-/

namespace Vorn.Store

variable {s t : Store} {u v v' : Value}

theorem mapM_cons_eq_some {α β : Type} {f : α → Option β} {a : α} {as : List α} {bs : List β}
    (h : (a :: as).mapM f = some bs) :
    ∃ b bs', bs = b :: bs' ∧ f a = some b ∧ as.mapM f = some bs' := by
  rw [List.mapM_cons] at h
  cases hb : f a with
  | none =>
    rw [hb] at h
    cases h
  | some b =>
    cases hbs : as.mapM f with
    | none =>
      rw [hb, hbs] at h
      cases h
    | some bs' =>
      rw [hb, hbs] at h
      cases h
      exact ⟨b, bs', rfl, rfl, rfl⟩

theorem forall₂_of_mapM_eq_some {α β γ : Type} {f : α → Option γ} {g : β → Option γ} {as : List α}
    {bs : List β} {cs : List γ} (ha : as.mapM f = some cs) (hb : bs.mapM g = some cs) :
    List.Forall₂ (fun a b => ∃ c, f a = some c ∧ g b = some c) as bs := by
  induction as generalizing bs cs with
  | nil =>
    cases ha
    cases bs with
    | nil => exact .nil
    | cons b bs =>
      obtain ⟨c, cs', hcs, -, -⟩ := mapM_cons_eq_some hb
      cases hcs
  | cons a as ih =>
    obtain ⟨c, cs', rfl, hac, has⟩ := mapM_cons_eq_some ha
    cases bs with
    | nil => cases hb
    | cons b bs =>
      obtain ⟨c', cs'', hcs, hbc, hbs⟩ := mapM_cons_eq_some hb
      cases hcs
      exact .cons ⟨c, hac, hbc⟩ (ih has hbs)

/-- In `t`, the array or hash `v'` has as many items as `v` in `s`, in the same order and under the
same keys, and each of them looks the same. -/
structure Alike (s : Store) (v : Value) (t : Store) (v' : Value) : Prop where
  array : ∀ r p, v = .array r p → ∃ r' p', v' = .array r' p' ∧
    (t.array r').toList.map t.snapshot? = (s.array r).toList.map s.snapshot?
  hash : ∀ r p, v = .hash r p → ∃ r' p', v' = .hash r' p' ∧
    (t.table r').entries.map (fun e => (e.key, t.snapshot? e.value)) =
      (s.table r).entries.map (fun e => (e.key, s.snapshot? e.value)) ∧
    ∀ k, ((t.table r').get? k).map t.snapshot? = ((s.table r).get? k).map s.snapshot?

/-- A look-up sees the entries only. -/
theorem map_get?_eq {T T' : Table} {α : Type} {f g : Value → α} (hT : T.WellFormed)
    (hT' : T'.WellFormed)
    (h : T'.entries.map (fun e => (e.key, g e.value)) = T.entries.map fun e => (e.key, f e.value))
    (k : Key) : (T'.get? k).map g = (T.get? k).map f := by
  have hfound : ∀ {T : Table} {f : Value → α} {x}, T.WellFormed → ((T.get? k).map f = some x ↔
      (k, x) ∈ T.entries.map fun e => (e.key, f e.value)) := by
    intro T f x hT
    rw [Option.map_eq_some_iff]
    simp only [hT.get?_eq_some_iff, List.mem_map, Prod.mk.injEq]
    constructor
    · rintro ⟨v, ⟨e, he, hk, rfl⟩, hx⟩
      exact ⟨e, he, hk, hx⟩
    · rintro ⟨e, he, hk, hx⟩
      exact ⟨e.value, ⟨e, he, hk, rfl⟩, hx⟩
  refine Option.ext fun x => ?_
  rw [hfound hT', hfound hT, h]

theorem key_eq_of_snapshot? {k k' : Key} {p p' : Pos}
    (h : t.snapshot? (k'.value p') = s.snapshot? (k.value p)) : k' = k := by
  rw [snapshot?_eq, snapshot?_eq] at h
  cases k <;> cases k' <;> cases h <;> rfl

/-- Only an array has the snapshot of one. -/
theorem array_of_snapshot? {xs : List Snapshot} (h : s.snapshot? v = some (.array xs)) :
    ∃ r p, v = .array r p ∧ (s.array r).toList.mapM s.snapshot? = some xs := by
  rw [snapshot?_eq] at h
  cases v with
  | array r p =>
    obtain ⟨ys, hys, heq⟩ := Option.map_eq_some_iff.mp h
    cases heq
    exact ⟨r, p, rfl, hys⟩
  | hash | returned =>
    obtain ⟨_, -, heq⟩ := Option.map_eq_some_iff.mp h
    cases heq
  | _ => cases h

theorem hash_of_snapshot? {xs : List (Snapshot × Snapshot)}
    (h : s.snapshot? v = some (.hash xs)) :
    ∃ r p, v = .hash r p ∧
      (s.table r).entries.mapM (snapshotOf.pairOf s.snapshot?) = some xs := by
  rw [snapshot?_eq] at h
  cases v with
  | hash r p =>
    obtain ⟨ys, hys, heq⟩ := Option.map_eq_some_iff.mp h
    cases heq
    exact ⟨r, p, rfl, hys⟩
  | array | returned =>
    obtain ⟨_, -, heq⟩ := Option.map_eq_some_iff.mp h
    cases heq
  | _ => cases h

/-- Entries of one snapshot have one key. -/
theorem key_eq_of_pairOf {e e' : Entry} {x : Snapshot × Snapshot}
    (h : snapshotOf.pairOf s.snapshot? e = some x)
    (h' : snapshotOf.pairOf t.snapshot? e' = some x) :
    e'.key = e.key ∧ t.snapshot? e'.value = s.snapshot? e.value := by
  have hpair : ∀ {s : Store} {e : Entry}, snapshotOf.pairOf s.snapshot? e = some x →
      s.snapshot? e.keyValue = some x.1 ∧ s.snapshot? e.value = some x.2 := by
    intro s e h
    rw [snapshotOf.pairOf] at h
    cases hkey : s.snapshot? e.keyValue with
    | none =>
      rw [hkey] at h
      cases h
    | some y =>
      cases hvalue : s.snapshot? e.value with
      | none =>
        rw [hkey, hvalue] at h
        cases h
      | some z =>
        rw [hkey, hvalue] at h
        cases h
        exact ⟨rfl, rfl⟩
  obtain ⟨hkey, hvalue⟩ := hpair h
  obtain ⟨hkey', hvalue'⟩ := hpair h'
  exact ⟨key_eq_of_snapshot? (hkey'.trans hkey.symm), hvalue'.trans hvalue.symm⟩

/-- **Values of one snapshot are alike**, and so are the values in them. -/
theorem alike_of_snapshot? {x : Snapshot} (hv : s.Belongs v) (hv' : t.Belongs v')
    (hs : s.snapshot? v = some x) (ht : t.snapshot? v' = some x) : s.Alike v t v' := by
  constructor
  · rintro r p rfl
    obtain ⟨xs, hxs, rfl⟩ := Option.map_eq_some_iff.mp ((snapshot?_eq _).symm.trans hs)
    obtain ⟨r', p', rfl, hxs'⟩ := array_of_snapshot? ht
    refine ⟨r', p', rfl, map_eq_map_of_forall₂ ?_⟩
    exact (forall₂_of_mapM_eq_some hxs' hxs).imp fun u' u ⟨y, hu', hu⟩ => hu'.trans hu.symm
  · rintro r p rfl
    obtain ⟨xs, hxs, rfl⟩ := Option.map_eq_some_iff.mp ((snapshot?_eq _).symm.trans hs)
    obtain ⟨r', p', rfl, hxs'⟩ := hash_of_snapshot? ht
    have hentries : (t.table r').entries.map (fun e => (e.key, t.snapshot? e.value)) =
        (s.table r).entries.map (fun e => (e.key, s.snapshot? e.value)) := by
      refine map_eq_map_of_forall₂ ?_
      refine (forall₂_of_mapM_eq_some hxs' hxs).imp fun e' e ⟨y, he', he⟩ => ?_
      obtain ⟨hkey, hvalue⟩ := key_eq_of_pairOf he he'
      rw [hkey, hvalue]
    have hwf : (s.table r).WellFormed := hv.wellFormed r ⟨_, rfl, .refl⟩
    have hwf' : (t.table r').WellFormed := hv'.wellFormed r' ⟨_, rfl, .refl⟩
    exact ⟨r', p', rfl, hentries, map_get?_eq hwf hwf' hentries⟩

end Vorn.Store
