import Mathlib.Data.List.Induction
import Vorn.Proofs.Store.Table

/-!
# The order of the entries of a table

Without buckets, insertions would leave a list in which each key is where it first came
(`Table.inserted`). The buckets change that order in one way: entries whose keys share a digest
stand together, at the place of the first of them (`Table.entries_ofEntries`). Entries that stand
so already stay as they are when a table is made of them (`Table.WellFormed.entries_ofEntries_eq`).
-/

namespace Vorn

namespace Table

/-- What insertions, one after the other, leave without buckets. -/
def inserted (es : List Entry) : List Entry :=
  es.foldl (fun l e => putEntry e.key e.pos e.value l) []

def digests (es : List Entry) : List Digest := es.map (·.key.digest)

/-- The entries of a digest. -/
def ofDigest (d : Digest) (es : List Entry) : List Entry := es.filter (·.key.digest = d)

/-- The buckets of a list of entries, in the order in which their digests first come. -/
def bucketsOf (es : List Entry) : List Bucket :=
  (digests es).eraseDups.map fun d => ⟨d, ofDigest d es⟩

/-- The entries of each digest together. -/
def grouped (es : List Entry) : List Entry :=
  (digests es).eraseDups.flatMap fun d => ofDigest d es

theorem entries_bucketsOf (es : List Entry) : (Table.mk (bucketsOf es)).entries = grouped es :=
  List.flatMap_map ..

/-! ## One insertion -/

section Put

variable (k : Key) (pos : Pos) (v : Value)

/-- A key that is there keeps its place, and another comes last. -/
theorem keys_putEntry (es : List Entry) : (putEntry k pos v es).map (·.key) =
    if k ∈ es.map (·.key) then es.map (·.key) else es.map (·.key) ++ [k] := by
  rcases putEntry_cases k pos v es with ⟨before, e, after, rfl, rfl, hput⟩ | ⟨hk, hput⟩
  · rw [hput, if_pos (by simp)]
    simp
  · rw [hput, if_neg hk]
    simp

theorem digests_putEntry (es : List Entry) : digests (putEntry k pos v es) =
    if k ∈ es.map (·.key) then digests es else digests es ++ [k.digest] := by
  have hmap : ∀ l : List Entry, digests l = (l.map (·.key)).map Key.digest := fun l => by
    simp [digests]
  rw [hmap, hmap, keys_putEntry]
  split <;> simp

/-- An insertion concerns the entries of its digest only. -/
theorem ofDigest_putEntry (d : Digest) (es : List Entry) : ofDigest d (putEntry k pos v es) =
    if d = k.digest then putEntry k pos v (ofDigest d es) else ofDigest d es := by
  induction es with
  | nil =>
    by_cases hd : d = k.digest
    · simp [ofDigest, putEntry, hd]
    · simp [ofDigest, putEntry, hd, Ne.symm hd]
  | cons e es ih =>
    by_cases hk : e.key = k
    · by_cases hd : d = k.digest
      · simp [ofDigest, putEntry, hk, hd]
      · simp [ofDigest, putEntry, hk, hd, Ne.symm hd]
    · rw [putEntry, if_neg hk]
      by_cases he : e.key.digest = d
      · have hcons : ∀ l, ofDigest d (e :: l) = e :: ofDigest d l := fun l => by
          simp [ofDigest, he]
        rw [hcons, hcons, ih]
        split
        · rw [putEntry, if_neg hk]
        · rfl
      · have hcons : ∀ l, ofDigest d (e :: l) = ofDigest d l := fun l => by
          simp [ofDigest, he]
        rw [hcons, hcons, ih]

/-- An insertion into buckets of different digests. -/
theorem putBucket_map {d : Digest} {ds : List Digest} (hds : ds.Nodup)
    (f : Digest → List Entry) : putBucket d k pos v (ds.map fun d' => ⟨d', f d'⟩) =
      if d ∈ ds then ds.map fun d' => ⟨d', if d' = d then putEntry k pos v (f d') else f d'⟩
      else (ds.map fun d' => ⟨d', f d'⟩) ++ [⟨d, [⟨k, pos, v⟩]⟩] := by
  induction ds with
  | nil => rfl
  | cons d' ds ih =>
    rw [List.nodup_cons] at hds
    rw [List.map_cons, putBucket]
    by_cases hd : d' = d
    · subst hd
      have hrest : ds.map (fun d'' => Bucket.mk d'' (if d'' = d' then putEntry k pos v (f d'')
          else f d'')) = ds.map fun d'' => ⟨d'', f d''⟩ := by
        refine List.map_congr_left fun d'' hd'' => ?_
        rw [if_neg]
        rintro rfl
        exact hds.1 hd''
      rw [if_pos rfl, if_pos List.mem_cons_self, List.map_cons, if_pos rfl, hrest]
    · rw [if_neg hd, ih hds.2, List.map_cons, if_neg hd]
      by_cases hmem : d ∈ ds
      · rw [if_pos hmem, if_pos (List.mem_cons_of_mem _ hmem)]
      · rw [if_neg hmem, if_neg (by simp [Ne.symm hd, hmem])]
        rfl

theorem eraseDups_append_singleton {α : Type} [DecidableEq α] (as : List α) (a : α) :
    (as ++ [a]).eraseDups = if a ∈ as then as.eraseDups else as.eraseDups ++ [a] := by
  rw [List.eraseDups_append]
  by_cases ha : a ∈ as <;> simp [List.removeAll, ha, List.eraseDups_cons]

/-- An insertion into the buckets of a list is one into the list. -/
theorem putBucket_bucketsOf (es : List Entry) :
    putBucket k.digest k pos v (bucketsOf es) = bucketsOf (putEntry k pos v es) := by
  rw [bucketsOf, putBucket_map k pos v (nodup_eraseDups _), bucketsOf, digests_putEntry]
  simp only [List.mem_eraseDups, ofDigest_putEntry]
  by_cases hd : k.digest ∈ digests es
  · rw [if_pos hd]
    split
    · rfl
    · rw [eraseDups_append_singleton, if_pos hd]
  · have hk : k ∉ es.map (·.key) := fun hk => by
      obtain ⟨e, he, rfl⟩ := List.mem_map.mp hk
      exact hd (List.mem_map_of_mem he)
    have hnone : ofDigest k.digest es = [] := by
      refine List.filter_eq_nil_iff.mpr fun e he heq => hd ?_
      exact List.mem_map.mpr ⟨e, he, of_decide_eq_true heq⟩
    have hothers : (digests es).eraseDups.map (fun d => Bucket.mk d
        (if d = k.digest then putEntry k pos v (ofDigest d es) else ofDigest d es)) =
          (digests es).eraseDups.map fun d => ⟨d, ofDigest d es⟩ := by
      refine List.map_congr_left fun d hmem => ?_
      rw [if_neg]
      rintro rfl
      exact hd (List.mem_eraseDups.mp hmem)
    rw [if_neg hd, if_neg hk, eraseDups_append_singleton, if_neg hd, List.map_append, hothers]
    simp [hnone, putEntry]

end Put

/-! ## All insertions -/

/-- **The buckets of a table are those of the list that it would be without buckets.** -/
theorem buckets_ofEntries (es : List Entry) :
    (ofEntries es).buckets = bucketsOf (inserted es) := by
  have hfoldl : ∀ (t : Table) (l : List Entry), t.buckets = bucketsOf l →
      (es.foldl (fun t e => t.insert e.key e.pos e.value) t).buckets =
        bucketsOf (es.foldl (fun l e => putEntry e.key e.pos e.value l) l) := by
    induction es with
    | nil => exact fun t l h => h
    | cons e es ih =>
      intro t l h
      refine ih _ _ ?_
      change putBucket e.key.digest e.key e.pos e.value t.buckets = _
      rw [h, putBucket_bucketsOf]
  exact hfoldl empty [] rfl

theorem entries_ofEntries (es : List Entry) : (ofEntries es).entries = grouped (inserted es) := by
  rw [← entries_bucketsOf, ← buckets_ofEntries]

/-- Without buckets the keys are in the order in which they first came. -/
theorem keys_inserted (es : List Entry) :
    (inserted es).map (·.key) = (es.map (·.key)).eraseDups := by
  induction es using List.reverseRecOn with
  | nil => rfl
  | append_singleton es e ih =>
    rw [inserted, List.foldl_append, ← inserted, List.foldl_cons, List.foldl_nil, keys_putEntry,
      ih, List.map_append, List.map_singleton, eraseDups_append_singleton]
    simp only [List.mem_eraseDups]

/-! ## Grouping -/

/-- The digest of the first entry comes first, with all its entries. -/
theorem grouped_cons (e : Entry) (es : List Entry) : grouped (e :: es) =
    e :: ofDigest e.key.digest es ++ grouped (es.filter (·.key.digest ≠ e.key.digest)) := by
  have hdigests : digests (es.filter (·.key.digest ≠ e.key.digest)) =
      (digests es).filter (fun d => !d == e.key.digest) := by
    rw [digests, digests, List.filter_map]
    refine congrArg _ (List.filter_congr fun e' _ => ?_)
    simp [beq_eq_decide]
  have hothers : ∀ d ∈ (digests (es.filter (·.key.digest ≠ e.key.digest))).eraseDups,
      ofDigest d (e :: es) = ofDigest d (es.filter (·.key.digest ≠ e.key.digest)) := by
    intro d hd
    have hne : d ≠ e.key.digest := by
      rw [List.mem_eraseDups, hdigests, List.mem_filter] at hd
      simpa using hd.2
    rw [ofDigest, ofDigest, List.filter_cons_of_neg (by simpa using Ne.symm hne),
      List.filter_filter]
    refine List.filter_congr fun e' _ => ?_
    by_cases he' : e'.key.digest = d <;> simp [he', hne]
  rw [grouped, digests, List.map_cons, ← digests, List.eraseDups_cons, List.flatMap_cons,
    ← hdigests, List.flatMap_def,
    List.map_congr_left hothers, ← List.flatMap_def, ← grouped]
  simp [ofDigest]

/-- Entries of one digest stay in front of entries of others. -/
theorem grouped_append {d : Digest} {es : List Entry} (hes : ∀ e ∈ es, e.key.digest = d)
    {es' : List Entry} (hes' : d ∉ digests es') : grouped (es ++ es') = es ++ grouped es' := by
  cases es with
  | nil => rfl
  | cons e es =>
    obtain ⟨rfl, hes⟩ := List.forall_mem_cons.mp hes
    have hothers : ∀ e' ∈ es', e'.key.digest ≠ e.key.digest := fun e' he' heq =>
      hes' (heq ▸ List.mem_map_of_mem he')
    have hgroup : ofDigest e.key.digest (es ++ es') = es := by
      rw [ofDigest, List.filter_append, List.filter_eq_self.mpr (by simpa using hes),
        List.filter_eq_nil_iff.mpr (by simpa using hothers), List.append_nil]
    have hrest : (es ++ es').filter (·.key.digest ≠ e.key.digest) = es' := by
      rw [List.filter_append, List.filter_eq_nil_iff.mpr (by simpa using hes),
        List.filter_eq_self.mpr (by simpa using hothers), List.nil_append]
    rw [List.cons_append, grouped_cons, hgroup, hrest, List.cons_append]

/-- Entries of different digests are grouped as they are. -/
theorem grouped_of_nodup {es : List Entry} (h : (digests es).Nodup) : grouped es = es := by
  induction es with
  | nil => rfl
  | cons e es ih =>
    obtain ⟨he, hes⟩ := List.nodup_cons.mp h
    have hhead : grouped ([e] ++ es) = [e] ++ grouped es := grouped_append (by simp) he
    rw [List.singleton_append] at hhead
    rw [hhead, ih hes]
    rfl

/-- The keys of entries that are grouped by their digests. -/
theorem keys_grouped (es : List Entry) : (grouped es).map (·.key) =
    ((es.map (·.key)).map Key.digest).eraseDups.flatMap fun d =>
      (es.map (·.key)).filter (·.digest = d) := by
  have hgroup : ∀ d, (ofDigest d es).map (·.key) = (es.map (·.key)).filter (·.digest = d) :=
    fun d => by
      rw [ofDigest, List.filter_map]
      rfl
  have hdigests : digests es = (es.map (·.key)).map Key.digest := by
    rw [digests, List.map_map]
    rfl
  rw [grouped, List.map_flatMap, hdigests]
  simp only [hgroup]

/-! ## Entries that are in order -/

/-- Insertions of different keys leave a list as it is. -/
theorem inserted_of_nodup {es : List Entry} (h : (es.map (·.key)).Nodup) : inserted es = es := by
  induction es using List.reverseRecOn with
  | nil => rfl
  | append_singleton es e ih =>
    rw [List.map_append, List.nodup_append] at h
    obtain ⟨hes, -, hnew⟩ := h
    have hkey : e.key ∉ es.map (·.key) := fun hmem => hnew _ hmem _ (by simp) rfl
    rw [inserted, List.foldl_append, ← inserted, ih hes, List.foldl_cons, List.foldl_nil]
    rcases putEntry_cases e.key e.pos e.value es with ⟨before, e', after, rfl, hk, -⟩ | ⟨-, hput⟩
    · exact absurd (hk ▸ by simp) hkey
    · exact hput

/-- Entries with the keys of buckets, in their order, stand together as they are. -/
theorem grouped_of_buckets {bs : List Bucket} (hdigests : (bs.map (·.digest)).Nodup)
    (hdigest : ∀ b ∈ bs, ∀ e ∈ b.entries, e.key.digest = b.digest) {es : List Entry}
    (hkeys : es.map (·.key) = (bs.flatMap (·.entries)).map (·.key)) : grouped es = es := by
  induction bs generalizing es with
  | nil =>
    obtain rfl : es = [] := by simpa using hkeys
    rfl
  | cons b bs ih =>
    obtain ⟨hb, hbs⟩ := List.nodup_cons.mp hdigests
    obtain ⟨hfirst, hrest⟩ := List.forall_mem_cons.mp hdigest
    rw [List.flatMap_cons, List.map_append] at hkeys
    obtain ⟨es₁, es₂, rfl, hkeys₁, hkeys₂⟩ := List.map_eq_append_iff.mp hkeys
    have hes₁ : ∀ e ∈ es₁, e.key.digest = b.digest := by
      intro e he
      obtain ⟨e', he', heq⟩ := List.mem_map.mp (hkeys₁ ▸ List.mem_map_of_mem he)
      rw [← heq]
      exact hfirst e' he'
    have hes₂ : b.digest ∉ digests es₂ := by
      intro hmem
      obtain ⟨e, he, hdigest⟩ := List.mem_map.mp hmem
      obtain ⟨e', he', heq⟩ := List.mem_map.mp (hkeys₂ ▸ List.mem_map_of_mem he)
      obtain ⟨b', hb', hentry⟩ := List.mem_flatMap.mp he'
      refine hb (List.mem_map.mpr ⟨b', hb', ?_⟩)
      rw [← hrest b' hb' e' hentry, heq, hdigest]
    rw [grouped_append hes₁ hes₂, ih hbs hrest hkeys₂]

/-- **A table made of entries that stand as those of a table do has these entries.** -/
theorem WellFormed.entries_ofEntries_eq {t : Table} (h : t.WellFormed) {es : List Entry}
    (hkeys : es.map (·.key) = t.keys) : (ofEntries es).entries = es := by
  have hnodup : (es.map (·.key)).Nodup := hkeys ▸ h.nodup
  rw [entries_ofEntries, inserted_of_nodup hnodup, grouped_of_buckets h.digests h.digest hkeys]

end Table

end Vorn
