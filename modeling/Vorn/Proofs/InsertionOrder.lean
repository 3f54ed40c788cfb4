import Vorn.Proofs.FiniteMap
import Vorn.Proofs.Store.Grouping
import Vorn.Proofs.Store.Reach

/-!
# Insertion order

The views of a hash list its keys in the order of their first insertion as long as no two of them
share a digest, and only grouped by digest in general: `insertion_order`. Two keys that do share one
refute insertion order (`order_of_colliding_keys`).
-/

namespace Vorn

/-! ## How a hash is shown -/

theorem map_mapM {α β γ : Type} {f : α → Option β} {g : β → γ} (as : List α) :
    (as.mapM f).map (List.map g) = as.mapM fun a => (f a).map g := by
  induction as with
  | nil => rfl
  | cons a as ih =>
    rw [List.mapM_cons, List.mapM_cons, ← ih]
    cases f a with
    | none => rfl
    | some b => cases as.mapM f <;> rfl

theorem Snapshot.pairTexts_eq (ps : List (Snapshot × Snapshot)) :
    pairTexts ps = ps.map fun p => p.1.text ++ ": " ++ p.2.text := by
  induction ps with
  | nil => rfl
  | cons p ps ih => rw [pairTexts, ih, List.map_cons]

namespace Store

/-- How an entry of a hash is shown. -/
def shownEntry (s : Store) (e : Entry) : Option String := do
  return (← s.inspect? e.keyValue) ++ ": " ++ (← s.inspect? e.value)

/-- A hash is shown entry by entry, if each of them can be shown. -/
theorem inspect?_hash (s : Store) (r : TableRef) (pos : Pos) :
    s.inspect? (.hash r pos) = ((s.table r).entries.mapM s.shownEntry).map
      fun texts => "\x7b" ++ String.intercalate ", " texts ++ "\x7d" := by
  have hpair : ∀ e : Entry, (snapshotOf.pairOf s.snapshot? e).map
      (fun p => p.1.text ++ ": " ++ p.2.text) = s.shownEntry e := by
    intro e
    simp only [snapshotOf.pairOf, shownEntry, inspect?]
    cases s.snapshot? e.keyValue with
    | none => rfl
    | some k => cases s.snapshot? e.value <;> rfl
  rw [inspect?, snapshot?_eq, snapshotOf, ← funext hpair, ← map_mapM, Option.map_map,
    Option.map_map]
  congr 1
  funext ps
  simp only [Function.comp_apply, Snapshot.text, Snapshot.pairTexts_eq]

end Store

/-! ## The order of a hash -/

/-- **The order of a hash is that of the first insertions, grouped by digest.** Whatever is set in
an empty hash, its keys are listed once each: first those that share the digest of the first key
that was set, in the order in which they were first set, then those that share the digest of the
first key left, and so on; what is set again keeps its place. If no two different keys that were set
share a digest, then this is the order in which they were first set. The methods of the hash and its
text list it in this order. -/
theorem insertion_order (es : List Entry) :
    let t := Table.ofEntries es
    let ks := (es.map (·.key)).eraseDups
    t.keys = (ks.map Key.digest).eraseDups.flatMap (fun d => ks.filter (·.digest = d)) ∧
      ((∀ k ∈ ks, ∀ k' ∈ ks, k.digest = k'.digest → k = k') → t.keys = ks) ∧
      ∀ r pos s, s.store.table r = t →
        Views r pos s (t.entries.map fun e => (e.keyValue, e.value)) ∧
          s.store.inspect? (.hash r pos) = (t.entries.mapM s.store.shownEntry).map
            fun texts => "\x7b" ++ String.intercalate ", " texts ++ "\x7d" := by
  intro t ks
  have hkeys : (Table.inserted es).map (·.key) = ks := Table.keys_inserted es
  refine ⟨?_, fun hdigests => ?_, fun r pos s ht => ⟨?_, ?_⟩⟩
  · rw [Table.keys, Table.entries_ofEntries, Table.keys_grouped, hkeys]
  · have hnodup : (Table.digests (Table.inserted es)).Nodup := by
      have hmap : Table.digests (Table.inserted es) = ks.map Key.digest := by
        rw [← hkeys, Table.digests, List.map_map]
        rfl
      rw [hmap]
      exact List.Nodup.map_on hdigests (nodup_eraseDups _)
    rw [Table.keys, Table.entries_ofEntries, Table.grouped_of_nodup hnodup, hkeys]
  · exact (Table.wellFormed_ofEntries es).views ht pos
  · rw [Store.inspect?_hash, ht]

/-- Three keys, the first of which is set again. -/
theorem insertion_order_again :
    let es : List Entry := [⟨.string "x", .start, .int 1 .start⟩, ⟨.int 2, .start, .null⟩,
      ⟨.string "x", .start, .int 3 .start⟩, ⟨.bool true, .start, .null⟩]
    (∀ k ∈ (es.map (·.key)).eraseDups, ∀ k' ∈ (es.map (·.key)).eraseDups,
      k.digest = k'.digest → k = k') ∧
        (Table.ofEntries es).keys = [.string "x", .int 2, .bool true] := by
  intro es
  have hdigests : ∀ k ∈ (es.map (·.key)).eraseDups, ∀ k' ∈ (es.map (·.key)).eraseDups,
      k.digest = k'.digest → k = k' := by decide +kernel
  refine ⟨hdigests, ((insertion_order es).2.1 hdigests).trans ?_⟩
  decide +kernel

/-- Two keys of one digest stand together, although another key came between them. -/
theorem order_of_colliding_keys :
    let es : List Entry := [⟨.string "8yn0iYCKYHlIj4-BwPqk", .start, .int 1 .start⟩,
      ⟨.string "x", .start, .int 2 .start⟩,
      ⟨.string "GReLUrM4wMqfg9yzV3KQ", .start, .int 3 .start⟩]
    (Table.ofEntries es).keys ≠ (es.map (·.key)).eraseDups := by
  decide +kernel

end Vorn
