import Vorn.Table

/-!
# Tables are maps

A table spreads its entries over buckets, and keys that are different may still share a digest and
so a bucket. `Table.WellFormed` is what holds of every table that is made by insertions. Under it
an entry of the table is what a look-up of its key finds (`get?_eq_some_iff`), whatever bucket it
is in, and an insertion changes the entry of its key or adds one, and touches no other
(`WellFormed.insert_cases`). The rest follows from these two.
-/

namespace Vorn

/-- What is left of a list without its repetitions has none. -/
theorem nodup_eraseDups {α : Type} [DecidableEq α] (as : List α) : as.eraseDups.Nodup := by
  induction h : as.length using Nat.strongRecOn generalizing as with
  | ind n ih =>
    cases as with
    | nil => simp
    | cons a as =>
      rw [List.eraseDups_cons, List.nodup_cons, List.mem_eraseDups]
      refine ⟨by simp, ih _ ?_ _ rfl⟩
      have := List.length_filter_le (fun b => !b == a) as
      simp only [List.length_cons] at h
      omega

namespace Table

/-- The keys, in the order of the entries. -/
def keys (t : Table) : List Key := t.entries.map (·.key)

/-- Buckets have different digests and each holds entries, of its own digest only; no two entries
have the same key. -/
structure WellFormed (t : Table) : Prop where
  digests : (t.buckets.map (·.digest)).Nodup
  filled : ∀ b ∈ t.buckets, b.entries ≠ []
  digest : ∀ b ∈ t.buckets, ∀ e ∈ b.entries, e.key.digest = b.digest
  nodup : t.keys.Nodup

theorem wellFormed_empty : empty.WellFormed := ⟨.nil, by simp [empty], by simp [empty], .nil⟩

section Put

variable (k : Key) (pos : Pos) (v : Value)

/-- An insertion into a bucket changes the entry of the key or adds one at the end. -/
theorem putEntry_cases (es : List Entry) :
    (∃ before e after, es = before ++ e :: after ∧ e.key = k ∧
      putEntry k pos v es = before ++ { e with value := v } :: after) ∨
    k ∉ es.map (·.key) ∧ putEntry k pos v es = es ++ [⟨k, pos, v⟩] := by
  induction es with
  | nil => exact .inr ⟨by simp, rfl⟩
  | cons e es ih =>
    by_cases he : e.key = k
    · exact .inl ⟨[], e, es, rfl, he, by rw [putEntry, if_pos he]; rfl⟩
    · rw [putEntry, if_neg he]
      rcases ih with ⟨before, e', after, rfl, hk, hput⟩ | ⟨hk, hput⟩
      · exact .inl ⟨e :: before, e', after, rfl, hk, by rw [hput]; rfl⟩
      · refine .inr ⟨?_, by rw [hput]; rfl⟩
        rw [List.map_cons, List.mem_cons, not_or]
        exact ⟨Ne.symm he, hk⟩

/-- An insertion goes to the bucket of the digest, or to a new one at the end. -/
theorem putBucket_cases (d : Digest) (bs : List Bucket) :
    (∃ before b after, bs = before ++ b :: after ∧ b.digest = d ∧
      putBucket d k pos v bs =
        before ++ { b with entries := putEntry k pos v b.entries } :: after) ∨
    d ∉ bs.map (·.digest) ∧ putBucket d k pos v bs = bs ++ [⟨d, [⟨k, pos, v⟩]⟩] := by
  induction bs with
  | nil => exact .inr ⟨by simp, rfl⟩
  | cons b bs ih =>
    by_cases hb : b.digest = d
    · exact .inl ⟨[], b, bs, rfl, hb, by rw [putBucket, if_pos hb]; rfl⟩
    · rw [putBucket, if_neg hb]
      rcases ih with ⟨before, b', after, rfl, hd, hput⟩ | ⟨hd, hput⟩
      · exact .inl ⟨b :: before, b', after, rfl, hd, by rw [hput]; rfl⟩
      · refine .inr ⟨?_, by rw [hput]; rfl⟩
        rw [List.map_cons, List.mem_cons, not_or]
        exact ⟨Ne.symm hb, hd⟩

end Put

section

variable {k : Key} {pos : Pos} {v : Value}

theorem putEntry_ne_nil {es : List Entry} : putEntry k pos v es ≠ [] := by
  rcases putEntry_cases k pos v es with ⟨before, e, after, -, -, hput⟩ | ⟨-, hput⟩ <;> simp [hput]

/-- What holds of the entries, of the new one, and of an entry that takes the new value. -/
theorem forall_mem_putEntry {P : Entry → Prop} {es : List Entry} (hes : ∀ e ∈ es, P e)
    (hnew : P ⟨k, pos, v⟩) (hset : ∀ e, P e → P { e with value := v }) :
    ∀ e ∈ putEntry k pos v es, P e := by
  induction es with
  | nil => simpa [putEntry] using hnew
  | cons e es ih =>
    obtain ⟨he, hes⟩ := List.forall_mem_cons.mp hes
    unfold putEntry
    split
    · exact List.forall_mem_cons.mpr ⟨hset e he, hes⟩
    · exact List.forall_mem_cons.mpr ⟨he, ih hes⟩

/-- What holds of the buckets, and still of one of the digest with the key put into it. -/
theorem forall_mem_putBucket {P : Bucket → Prop} {d : Digest} {bs : List Bucket}
    (hbs : ∀ b ∈ bs, P b) (hnew : P ⟨d, putEntry k pos v []⟩)
    (hput : ∀ es, P ⟨d, es⟩ → P ⟨d, putEntry k pos v es⟩) :
    ∀ b ∈ putBucket d k pos v bs, P b := by
  induction bs with
  | nil => simpa [putBucket] using hnew
  | cons b bs ih =>
    obtain ⟨hb, hbs⟩ := List.forall_mem_cons.mp hbs
    unfold putBucket
    split
    · subst d
      exact List.forall_mem_cons.mpr ⟨hput b.entries hb, hbs⟩
    · exact List.forall_mem_cons.mpr ⟨hb, ih hbs⟩

theorem forall_mem_insert {P : Entry → Prop} {t : Table} (ht : ∀ e ∈ t.entries, P e)
    (hnew : P ⟨k, pos, v⟩) (hset : ∀ e, P e → P { e with value := v }) :
    ∀ e ∈ (t.insert k pos v).entries, P e := by
  have hbuckets : ∀ b ∈ t.buckets, ∀ e ∈ b.entries, P e := fun b hb e he =>
    ht e (List.mem_flatMap.mpr ⟨b, hb, he⟩)
  intro e he
  obtain ⟨b, hb, he⟩ := List.mem_flatMap.mp he
  exact forall_mem_putBucket hbuckets (forall_mem_putEntry (by simp) hnew hset)
    (fun es hes => forall_mem_putEntry hes hnew hset) b hb e he

/-- What a look-up finds is the value of an entry with the key. -/
theorem exists_of_get? {t : Table} (hget : t.get? k = some v) :
    ∃ e ∈ t.entries, e.key = k ∧ e.value = v := by
  simp only [get?, Option.bind_eq_bind, Option.bind_eq_some_iff, Option.pure_def,
    Option.some.injEq] at hget
  obtain ⟨b, hb, e, he, rfl⟩ := hget
  have hk := List.find?_some he
  exact ⟨e, List.mem_flatMap.mpr ⟨b, List.mem_of_find?_eq_some hb, List.mem_of_find?_eq_some he⟩,
    by simpa using hk, rfl⟩

end

/-- If no two elements share a label, searching for the label of one finds it. -/
theorem find?_of_nodup {α β : Type} [DecidableEq β] {f : α → β} {x : α} : ∀ {l : List α},
    (l.map f).Nodup → x ∈ l → l.find? (fun y => f y = f x) = some x
  | y :: l, hnodup, hx => by
    rw [List.map_cons, List.nodup_cons] at hnodup
    rcases List.mem_cons.mp hx with rfl | hx
    · simp
    · have hne : f y ≠ f x := fun heq => hnodup.1 (heq ▸ List.mem_map_of_mem hx)
      rw [List.find?_cons_of_neg (by simpa using hne)]
      exact find?_of_nodup hnodup.2 hx

namespace WellFormed

variable {t : Table} (h : t.WellFormed) (k : Key) (pos : Pos) (v : Value)

include h

/-- Two entries of one bucket order: the digest of a key says which bucket it is in. -/
theorem digest_not_mem {before after : List Bucket} {b : Bucket}
    (ht : t.buckets = before ++ b :: after) :
    b.digest ∉ before.map (·.digest) ∧ b.digest ∉ after.map (·.digest) := by
  have hd := h.digests
  rw [ht, List.map_append, List.map_cons, List.nodup_append, List.nodup_cons] at hd
  exact ⟨fun hmem => hd.2.2 _ hmem _ (List.mem_cons_self ..) rfl, hd.2.1.1⟩

/-- A key whose digest no bucket has is in none of them. -/
theorem not_mem_of_digest {k : Key} (bs : List Bucket) (hbs : ∀ b ∈ bs, b ∈ t.buckets)
    (hd : k.digest ∉ bs.map (·.digest)) : k ∉ (bs.flatMap (·.entries)).map (·.key) := by
  intro hk
  obtain ⟨e, he, rfl⟩ := List.mem_map.mp hk
  obtain ⟨b, hb, heb⟩ := List.mem_flatMap.mp he
  exact hd (List.mem_map.mpr ⟨b, hb, (h.digest b (hbs b hb) e heb).symm⟩)

/-- An insertion gives the entry of its key the new value or adds an entry, and leaves all others
as they are and in their order. -/
theorem insert_cases :
    (∃ before e after, t.entries = before ++ e :: after ∧ e.key = k ∧
      (t.insert k pos v).entries = before ++ { e with value := v } :: after) ∨
    k ∉ t.keys ∧ ∃ before after, t.entries = before ++ after ∧
      (t.insert k pos v).entries = before ++ ⟨k, pos, v⟩ :: after := by
  unfold keys entries insert
  rcases putBucket_cases k pos v k.digest t.buckets with ⟨bs, b, bs', ht, hd, hput⟩ | ⟨hd, hput⟩
  · obtain ⟨hbs, hbs'⟩ := h.digest_not_mem ht
    rw [hput, ht]
    simp only [List.flatMap_append, List.flatMap_cons]
    rcases putEntry_cases k pos v b.entries with ⟨es, e, es', hb, hk, hput'⟩ | ⟨hk, hput'⟩
    · left
      refine ⟨bs.flatMap (·.entries) ++ es, e, es' ++ bs'.flatMap (·.entries), ?_, hk, ?_⟩
      · simp [hb]
      · simp [hput']
    · right
      refine ⟨?_, bs.flatMap (·.entries) ++ b.entries, bs'.flatMap (·.entries), by simp, ?_⟩
      · -- The other buckets have other digests.
        have hbefore := h.not_mem_of_digest bs (fun x hx => by simp [ht, hx]) (hd ▸ hbs)
        have hafter := h.not_mem_of_digest bs' (fun x hx => by simp [ht, hx]) (hd ▸ hbs')
        simp only [List.map_append, List.mem_append, not_or]
        exact ⟨hbefore, hk, hafter⟩
      · simp [hput']
  · right
    refine ⟨h.not_mem_of_digest _ (fun _ hb => hb) hd, t.buckets.flatMap (·.entries), [],
      by simp, ?_⟩
    simp [hput]

/-- A look-up finds the value of the entry with the key. -/
theorem get?_eq_some_iff {k : Key} {v : Value} :
    t.get? k = some v ↔ ∃ e ∈ t.entries, e.key = k ∧ e.value = v := by
  refine ⟨exists_of_get?, ?_⟩
  rintro ⟨e, he, rfl, rfl⟩
  obtain ⟨b, hb, heb⟩ := List.mem_flatMap.mp he
  have hkeys : (b.entries.map (·.key)).Nodup := by
    have hsub : b.entries.Sublist t.entries :=
      List.sublist_flatten_of_mem (List.mem_map_of_mem hb)
    exact h.nodup.sublist (hsub.map _)
  have hbucket := find?_of_nodup h.digests hb
  have hentry := find?_of_nodup hkeys heb
  simp only [get?, h.digest b hb e heb, hbucket, hentry, Option.bind_eq_bind, Option.bind_some,
    Option.pure_def]

theorem get?_eq_none_iff {k : Key} : t.get? k = none ↔ k ∉ t.keys := by
  rw [Option.eq_none_iff_forall_ne_some]
  constructor
  · intro hnone hk
    obtain ⟨e, he, rfl⟩ := List.mem_map.mp hk
    exact hnone e.value (h.get?_eq_some_iff.mpr ⟨e, he, rfl, rfl⟩)
  · intro hk v hget
    obtain ⟨e, he, rfl, -⟩ := h.get?_eq_some_iff.mp hget
    exact hk (List.mem_map_of_mem he)

/-- An insertion adds its key. -/
theorem mem_keys_insert {k' : Key} : k' ∈ (t.insert k pos v).keys ↔ k' = k ∨ k' ∈ t.keys := by
  unfold keys
  rcases h.insert_cases k pos v with ⟨before, e, after, ht, rfl, hi⟩ | ⟨-, before, after, ht, hi⟩
  · rw [hi, ht]
    simp only [List.map_append, List.map_cons, List.mem_append, List.mem_cons]
    constructor
    · rintro (hb | rfl | ha)
      · exact .inr (.inl hb)
      · exact .inl rfl
      · exact .inr (.inr (.inr ha))
    · rintro (rfl | hb | rfl | ha)
      · exact .inr (.inl rfl)
      · exact .inl hb
      · exact .inr (.inl rfl)
      · exact .inr (.inr ha)
  · rw [hi, ht]
    simp only [List.map_append, List.map_cons, List.mem_append, List.mem_cons]
    exact or_left_comm

theorem insert_nodup : (t.insert k pos v).keys.Nodup := by
  have hnodup := h.nodup
  unfold keys at hnodup ⊢
  rcases h.insert_cases k pos v with ⟨before, e, after, ht, rfl, hi⟩ | ⟨hk, before, after, ht, hi⟩
  · rw [hi]
    rw [ht] at hnodup
    simpa using hnodup
  · rw [keys, ht, List.map_append] at hk
    rw [hi, List.map_append, List.map_cons]
    rw [ht, List.map_append] at hnodup
    exact (List.perm_middle.nodup_iff).mpr (List.nodup_cons.mpr ⟨hk, hnodup⟩)

theorem insert_digests : ((t.insert k pos v).buckets.map (·.digest)).Nodup := by
  have hdigests := h.digests
  rcases putBucket_cases k pos v k.digest t.buckets with ⟨bs, b, bs', ht, -, hput⟩ | ⟨hd, hput⟩
  · rw [ht] at hdigests
    simpa [Table.insert, hput] using hdigests
  · rw [Table.insert, hput, List.map_append, List.nodup_append]
    exact ⟨hdigests, by simp, fun a ha b hb heq => hd (by simp_all)⟩

/-- Insertions keep tables well-formed. -/
theorem insert : (t.insert k pos v).WellFormed where
  digests := h.insert_digests k pos v
  filled := forall_mem_putBucket h.filled putEntry_ne_nil fun _ _ => putEntry_ne_nil
  digest := forall_mem_putBucket h.digest (forall_mem_putEntry (by simp) rfl fun _ => id)
    fun es hes => forall_mem_putEntry hes rfl fun _ => id
  nodup := h.insert_nodup k pos v

/-- After an insertion its key has the new value and every other key the one it had. -/
theorem get?_insert (k' : Key) :
    (t.insert k pos v).get? k' = if k' = k then some v else t.get? k' := by
  have hcases := h.insert_cases k pos v
  split
  · rename_i hk
    subst hk
    rw [(h.insert k' pos v).get?_eq_some_iff]
    rcases hcases with ⟨before, e, after, -, hk, hi⟩ | ⟨-, before, after, -, hi⟩
    · exact ⟨{ e with value := v }, by simp [hi], hk, rfl⟩
    · exact ⟨⟨k', pos, v⟩, by simp [hi], rfl, rfl⟩
  · rename_i hk
    have hother : ∀ e, e.key = k' → (e ∈ (t.insert k pos v).entries ↔ e ∈ t.entries) := by
      rintro e rfl
      rcases hcases with ⟨before, e', after, ht, hk', hi⟩ | ⟨-, before, after, ht, hi⟩
      · have hold : e ≠ e' := fun heq => hk (heq ▸ hk')
        have hnew : e ≠ { e' with value := v } := fun heq => hk (heq ▸ hk')
        simp [hi, ht, hold, hnew]
      · have hnew : e ≠ ⟨k, pos, v⟩ := fun heq => hk (by rw [heq])
        simp [hi, ht, hnew]
    refine Option.ext fun w => ?_
    rw [(h.insert k pos v).get?_eq_some_iff, h.get?_eq_some_iff]
    constructor
    · rintro ⟨e, he, hk', hw⟩
      exact ⟨e, (hother e hk').mp he, hk', hw⟩
    · rintro ⟨e, he, hk', hw⟩
      exact ⟨e, (hother e hk').mpr he, hk', hw⟩

/-- As many entries as there are different keys. -/
theorem size_eq {ks : List Key} (hks : ks.Nodup) (hmem : ∀ k, k ∈ t.keys ↔ k ∈ ks) :
    t.size = ks.length := by
  have hsize : t.size = t.keys.length := (List.length_map _).symm
  have hle := h.nodup.length_le_of_subset fun k hk => (hmem k).mp hk
  have hge := hks.length_le_of_subset fun k hk => (hmem k).mpr hk
  omega

end WellFormed

/-! ## A table made from entries -/

/-- The table that insertions of the entries, one after the other, make of an empty one. -/
def ofEntries (es : List Entry) : Table :=
  es.foldl (fun t e => t.insert e.key e.pos e.value) empty

theorem WellFormed.foldl_insert {t : Table} (h : t.WellFormed) (es : List Entry) :
    (es.foldl (fun t e => t.insert e.key e.pos e.value) t).WellFormed := by
  induction es generalizing t with
  | nil => exact h
  | cons e es ih => exact ih (h.insert e.key e.pos e.value)

theorem wellFormed_ofEntries (es : List Entry) : (ofEntries es).WellFormed :=
  wellFormed_empty.foldl_insert es

/-- Insertions of different keys leave every value that they bring. -/
theorem WellFormed.get?_foldl_insert {t : Table} (h : t.WellFormed) {es : List Entry}
    (hes : (es.map (·.key)).Nodup) (k : Key) :
    (es.foldl (fun t e => t.insert e.key e.pos e.value) t).get? k =
      ((es.find? (·.key = k)).map (·.value)).or (t.get? k) := by
  induction es generalizing t with
  | nil => rfl
  | cons e es ih =>
    rw [List.map_cons, List.nodup_cons] at hes
    rw [List.foldl_cons, ih (h.insert e.key e.pos e.value) hes.2, h.get?_insert]
    by_cases hk : e.key = k
    · have hnone : es.find? (·.key = k) = none := by
        rw [List.find?_eq_none]
        intro e' he' hk'
        exact hes.1 (hk ▸ (of_decide_eq_true hk') ▸ List.mem_map_of_mem he')
      simp [hk, hnone]
    · simp [hk, Ne.symm hk]

/-- Different keys keep the values that their entries bring. -/
theorem get?_ofEntries {es : List Entry} (hes : (es.map (·.key)).Nodup) {e : Entry} (he : e ∈ es) :
    (ofEntries es).get? e.key = some e.value := by
  rw [ofEntries, wellFormed_empty.get?_foldl_insert hes, find?_of_nodup hes he]
  rfl

theorem WellFormed.mem_keys_foldl_insert {t : Table} (h : t.WellFormed) (es : List Entry)
    {k : Key} : k ∈ (es.foldl (fun t e => t.insert e.key e.pos e.value) t).keys ↔
      k ∈ es.map (·.key) ∨ k ∈ t.keys := by
  induction es generalizing t with
  | nil => simp
  | cons e es ih =>
    rw [List.foldl_cons, ih (h.insert e.key e.pos e.value), h.mem_keys_insert, List.map_cons,
      List.mem_cons]
    exact or_left_comm.trans or_assoc.symm

theorem mem_keys_ofEntries {es : List Entry} {k : Key} :
    k ∈ (ofEntries es).keys ↔ k ∈ es.map (·.key) := by
  rw [ofEntries, wellFormed_empty.mem_keys_foldl_insert]
  simp [keys, entries, empty]

end Table

end Vorn
