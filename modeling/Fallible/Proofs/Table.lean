import Fallible.ErrorSet

/-!
# Reading tables and error sets

Keys are compared by `==`, which is coarser than equality, so what a table
answers must be stated up to `==` as well: writing under `k` shows under every
`k'` with `k == k'`, and two such keys are never told apart by a lookup. The
lemmas below give one equation per operation, for the value found and for the
mere presence of a key. Later files read tables through these equations only.

Presence is enough for error sets as long as arguments play no part. A set is
built by sorting the entries of a table, and sorting does not change which
atoms are there.
-/

namespace Fallible

namespace Table

variable {α β γ : Type} [BEq α]

theorem find_isSome (k : α) (es : List (α × β)) :
    (find k es).isSome = es.any fun e => e.1 == k := by
  induction es with
  | nil => rfl
  | cons e rest ih =>
      rw [find, List.any_cons]
      split
      · next he => rw [he]; rfl
      · next he => rw [ih]; simp [he]

/-- A key is present exactly when it has a value. -/
theorem isSome_get? (t : Table α β) (k : α) : (t.get? k).isSome = t.contains k :=
  find_isSome k t.entries

theorem contains_of_get? {t : Table α β} {k : α} {v : β} (h : t.get? k = some v) :
    t.contains k = true := by
  rw [← isSome_get?, h]; rfl

theorem get?_of_contains {t : Table α β} {k : α} (h : t.contains k = true) :
    ∃ v, t.get? k = some v := by
  rw [← isSome_get?] at h
  exact Option.isSome_iff_exists.1 h

theorem get?_eq_none {t : Table α β} {k : α} :
    t.get? k = none ↔ t.contains k = false := by
  rw [← isSome_get?]
  cases t.get? k <;> simp

/-- What is found under a key was written under a key that is the same. -/
theorem mem_of_get? {t : Table α β} {k : α} {v : β} (h : t.get? k = some v) :
    ∃ k', (k', v) ∈ t.entries ∧ (k' == k) = true := by
  obtain ⟨es⟩ := t
  change find k es = some v at h
  induction es with
  | nil => cases h
  | cons e rest ih =>
      rw [find] at h
      split at h
      · next he =>
          injection h with h
          exact ⟨e.1, by rw [← h]; exact List.mem_cons_self .., he⟩
      · obtain ⟨k', hmem, hk⟩ := ih h
        exact ⟨k', List.mem_cons_of_mem _ hmem, hk⟩

/-! ## Keys that are the same -/

theorem find_congr [EquivBEq α] {k k' : α} (h : (k == k') = true)
    (es : List (α × β)) : find k es = find k' es := by
  induction es with
  | nil => rfl
  | cons e rest ih => rw [find, find, BEq.congr_right h, ih]

theorem get?_congr [EquivBEq α] (t : Table α β) {k k' : α} (h : (k == k') = true) :
    t.get? k = t.get? k' :=
  find_congr h t.entries

theorem contains_congr [EquivBEq α] (t : Table α β) {k k' : α}
    (h : (k == k') = true) : t.contains k = t.contains k' := by
  rw [← isSome_get?, ← isSome_get?, get?_congr t h]

/-! ## Writing -/

theorem get?_insert [EquivBEq α] (t : Table α β) (k k' : α) (v : β) :
    (t.insert k v).get? k' = if k == k' then some v else t.get? k' := by
  split
  · next h => rw [← get?_congr _ h, get?_insert_self]
  · next h => exact get?_insert_ne t v (by simpa using h)

theorem contains_insert [EquivBEq α] (t : Table α β) (k k' : α) (v : β) :
    (t.insert k v).contains k' = (k == k' || t.contains k') := by
  rw [← isSome_get?, get?_insert, ← isSome_get?]
  cases k == k' <;> rfl

theorem find_append (k : α) (es es' : List (α × β)) :
    find k (es ++ es') = (find k es).or (find k es') := by
  induction es with
  | nil => rfl
  | cons e rest ih =>
      rw [List.cons_append, find, find, ih]
      split <;> rfl

theorem get?_insertNew [EquivBEq α] (t : Table α β) (k k' : α) (v : β) :
    (t.insertNew k v).get? k' =
      if (!t.contains k && k == k') = true then some v else t.get? k' := by
  unfold insertNew
  cases hc : t.contains k with
  | true => rfl
  | false =>
      show find k' (t.entries ++ [(k, v)]) = if (k == k') = true then some v else t.get? k'
      rw [find_append, find, find]
      split
      · next hk =>
          have hnone : t.get? k' = none := by
            rw [← Option.not_isSome_iff_eq_none, isSome_get?, ← contains_congr t hk, hc]
            exact Bool.false_ne_true
          rw [get?] at hnone
          rw [hnone, Option.none_or]
      · rw [Option.or_none]
        rfl

theorem contains_insertNew [EquivBEq α] (t : Table α β) (k k' : α) (v : β) :
    (t.insertNew k v).contains k' = (k == k' || t.contains k') := by
  rw [← isSome_get?, get?_insertNew, ← isSome_get?]
  cases hk : k == k' with
  | false => simp [isSome_get?]
  | true =>
      rw [← isSome_get?, get?_congr t hk]
      cases t.get? k' <;> simp

/-- Of the values offered under a key, the table keeps the first. -/
theorem get?_foldl_insertNew [EquivBEq α] (t : Table α β) (es : List (α × β)) (k : α) :
    (es.foldl (fun t e => t.insertNew e.1 e.2) t).get? k = (t.get? k).or (find k es) := by
  induction es generalizing t with
  | nil => rw [List.foldl_nil, find, Option.or_none]
  | cons e rest ih =>
      rw [List.foldl_cons, ih, get?_insertNew, find]
      cases hk : e.1 == k with
      | false => rw [Bool.and_false]; rfl
      | true =>
          rw [← isSome_get?, get?_congr t hk]
          cases t.get? k <;> rfl

theorem contains_foldl_insertNew [EquivBEq α] (t : Table α β) (es : List (α × β)) (k : α) :
    (es.foldl (fun t e => t.insertNew e.1 e.2) t).contains k =
      (t.contains k || es.any fun e => e.1 == k) := by
  rw [← isSome_get?, get?_foldl_insertNew, Option.isSome_or, isSome_get?, find_isSome]

theorem contains_insertAll [EquivBEq α] (t : Table α β) (es : List (α × β)) (k : α) :
    (t.insertAll es).contains k = (t.contains k || es.any fun e => e.1 == k) := by
  induction es generalizing t with
  | nil => simp [insertAll]
  | cons e rest ih =>
      show ((t.insert e.1 e.2).insertAll rest).contains k = _
      rw [ih, contains_insert, List.any_cons]
      cases e.1 == k <;> cases t.contains k <;> rfl

theorem contains_ofList [EquivBEq α] (es : List (α × β)) (k : α) :
    (ofList es).contains k = es.any fun e => e.1 == k :=
  contains_insertAll empty es k

/-- An entry of a table after writing is the one written, up to the spelling of
its key, or was there before. -/
theorem mem_insert [EquivBEq α] {t : Table α β} {k : α} {v : β} {e : α × β}
    (h : e ∈ (t.insert k v).entries) :
    ((e.1 == k) = true ∧ e.2 = v) ∨ e ∈ t.entries := by
  obtain ⟨es⟩ := t
  change e ∈ put k v es at h
  show ((e.1 == k) = true ∧ e.2 = v) ∨ e ∈ es
  induction es with
  | nil => rw [List.mem_singleton.1 h]; exact Or.inl ⟨BEq.rfl, rfl⟩
  | cons d rest ih =>
      rw [put] at h
      split at h
      · next hd =>
          rcases List.mem_cons.1 h with rfl | hrest
          · exact Or.inl ⟨hd, rfl⟩
          · exact Or.inr (List.mem_cons_of_mem _ hrest)
      · rcases List.mem_cons.1 h with rfl | hrest
        · exact Or.inr (List.mem_cons_self ..)
        · exact (ih hrest).imp_right (List.mem_cons_of_mem _)

theorem mem_insertNew {t : Table α β} {k : α} {v : β} {e : α × β}
    (h : e ∈ (t.insertNew k v).entries) : e ∈ t.entries ∨ e = (k, v) := by
  rw [insertNew] at h
  split at h
  · exact Or.inl h
  · exact (List.mem_append.1 h).imp_right List.mem_singleton.1

theorem mem_foldl_insertNew {t : Table α β} {es : List (α × β)} {e : α × β}
    (h : e ∈ (es.foldl (fun t e => t.insertNew e.1 e.2) t).entries) : e ∈ t.entries ∨ e ∈ es := by
  induction es generalizing t with
  | nil => exact Or.inl h
  | cons d rest ih =>
      rcases ih h with ht | hr
      · rcases mem_insertNew ht with ht | rfl
        · exact Or.inl ht
        · exact Or.inr List.mem_cons_self
      · exact Or.inr (List.mem_cons_of_mem d hr)

/-- What is true of the entries written, however their keys are spelt, is true of
those of the table. -/
theorem each_insertAll [EquivBEq α] {P : α → β → Prop}
    (hP : ∀ {a b : α} {v : β}, (a == b) = true → P a v → P b v) {t : Table α β}
    {es : List (α × β)} (ht : ∀ e ∈ t.entries, P e.1 e.2) (hes : ∀ e ∈ es, P e.1 e.2) :
    ∀ e ∈ (t.insertAll es).entries, P e.1 e.2 := by
  induction es generalizing t with
  | nil => exact ht
  | cons d rest ih =>
      refine ih (t := t.insert d.1 d.2) (fun e he => ?_)
        fun e he => hes e (List.mem_cons_of_mem d he)
      rcases mem_insert he with ⟨hk, hv⟩ | he
      · rw [hv]; exact hP (BEq.symm hk) (hes d List.mem_cons_self)
      · exact ht e he

theorem forall_insertAll [EquivBEq α] {P : β → Prop} {t : Table α β} {es : List (α × β)}
    (ht : ∀ e ∈ t.entries, P e.2) (hes : ∀ e ∈ es, P e.2) :
    ∀ e ∈ (t.insertAll es).entries, P e.2 :=
  each_insertAll (P := fun _ => P) (fun _ h => h) ht hes

/-- What is found in a table that was written from a list stands in the list. -/
theorem mem_of_get?_ofList [EquivBEq α] {es : List (α × β)} {k : α} {v : β}
    (h : (ofList es).get? k = some v) : ∃ k', (k', v) ∈ es ∧ (k' == k) = true := by
  obtain ⟨a, ha, hak⟩ := mem_of_get? h
  have hentries : ∀ e ∈ (ofList es).entries, ∃ k', (k', e.2) ∈ es ∧ (k' == e.1) = true :=
    each_insertAll (P := fun a v => ∃ k', (k', v) ∈ es ∧ (k' == a) = true)
      (fun hab => Exists.imp fun _ hk => ⟨hk.1, BEq.trans hk.2 hab⟩)
      (fun _ he => absurd he List.not_mem_nil) (fun e he => ⟨e.1, he, BEq.rfl⟩)
  obtain ⟨k', hmem, hk⟩ := hentries _ ha
  exact ⟨k', hmem, BEq.trans hk hak⟩

theorem get?_mapValues (f : β → γ) (t : Table α β) (k : α) :
    (t.mapValues f).get? k = (t.get? k).map f := by
  obtain ⟨es⟩ := t
  show find k (es.map fun e => (e.1, f e.2)) = (find k es).map f
  induction es with
  | nil => rfl
  | cons e rest ih =>
      rw [List.map_cons, find, find]
      split
      · rfl
      · exact ih

theorem contains_mapValues (f : β → γ) (t : Table α β) (k : α) :
    (t.mapValues f).contains k = t.contains k := by
  rw [← isSome_get?, get?_mapValues, ← isSome_get?]
  cases t.get? k <;> rfl

theorem mapValues_insert (f : β → γ) (t : Table α β) (k : α) (v : β) :
    (t.insert k v).mapValues f = (t.mapValues f).insert k (f v) := by
  obtain ⟨es⟩ := t
  refine congrArg Table.mk ?_
  show (put k v es).map (fun e => (e.1, f e.2)) = put k (f v) (es.map fun e => (e.1, f e.2))
  induction es with
  | nil => rfl
  | cons e rest ih =>
      rw [List.map_cons, put, put]
      split
      · rfl
      · rw [List.map_cons, ih]

theorem get?_filterKeys {p : α → Bool}
    (hp : ∀ a b, (a == b) = true → p a = p b) (t : Table α β) (k : α) :
    (t.filterKeys p).get? k = if p k then t.get? k else none := by
  obtain ⟨es⟩ := t
  show find k (es.filter fun e => p e.1) = if p k then find k es else none
  induction es with
  | nil => simp [find]
  | cons e rest ih =>
      rw [List.filter_cons]
      cases he : e.1 == k with
      | false => split <;> simp [find, he, ih]
      | true =>
          have hpe := hp _ _ he
          cases hk : p k <;> simp [find, he, hpe, hk, ih]

theorem contains_filterKeys {p : α → Bool}
    (hp : ∀ a b, (a == b) = true → p a = p b) (t : Table α β) (k : α) :
    (t.filterKeys p).contains k = (t.contains k && p k) := by
  rw [← isSome_get?, get?_filterKeys hp, ← isSome_get?]
  cases p k <;> simp

/-! ## Tables without repeated keys

Every table that is built by writing has each key once. There the order of the
entries, and not only what is found, can be told from the keys. -/

/-- No key stands twice. -/
def Distinct (t : Table α β) : Prop :=
  t.keys.Pairwise fun a b => (a == b) = false

theorem distinct_empty : (empty : Table α β).Distinct := List.Pairwise.nil

theorem contains_eq_any_keys (t : Table α β) (k : α) :
    t.contains k = t.keys.any fun a => a == k := by
  simp only [contains, keys, List.any_map]
  rfl

/-- Writing under a key that is there changes no key. -/
theorem keys_insert_of_contains {t : Table α β} {k : α} (v : β)
    (h : t.contains k = true) : (t.insert k v).keys = t.keys := by
  obtain ⟨es⟩ := t
  show (put k v es).map Prod.fst = es.map Prod.fst
  change (es.any fun e => e.1 == k) = true at h
  induction es with
  | nil => cases h
  | cons e rest ih =>
      rw [put]
      split
      · rfl
      · next he =>
          rw [List.any_cons, Bool.or_eq_true] at h
          rw [List.map_cons, List.map_cons, ih (h.resolve_left he)]

/-- Writing under a new key adds it at the end. -/
theorem insert_of_not_contains {t : Table α β} {k : α} (v : β) (h : t.contains k = false) :
    t.insert k v = ⟨t.entries ++ [(k, v)]⟩ := by
  obtain ⟨es⟩ := t
  refine congrArg Table.mk ?_
  change (es.any fun e => e.1 == k) = false at h
  show put k v es = es ++ [(k, v)]
  induction es with
  | nil => rfl
  | cons e rest ih =>
      rw [List.any_cons, Bool.or_eq_false_iff] at h
      rw [put, if_neg (by rw [h.1]; exact Bool.noConfusion), ih h.2, List.cons_append]

theorem keys_insert_of_not_contains {t : Table α β} {k : α} (v : β)
    (h : t.contains k = false) : (t.insert k v).keys = t.keys ++ [k] := by
  rw [insert_of_not_contains v h, keys, List.map_append]
  rfl

theorem mem_keys_insert {t : Table α β} {k k' : α} {v : β} (h : k' ∈ (t.insert k v).keys) :
    k' = k ∨ k' ∈ t.keys := by
  cases hc : t.contains k with
  | true => rw [keys_insert_of_contains v hc] at h; exact Or.inr h
  | false =>
      rw [keys_insert_of_not_contains v hc, List.mem_append, List.mem_singleton] at h
      exact h.symm

theorem mem_keys_insert_of_mem {t : Table α β} {k k' : α} (v : β) (h : k' ∈ t.keys) :
    k' ∈ (t.insert k v).keys := by
  cases hc : t.contains k with
  | true => rw [keys_insert_of_contains v hc]; exact h
  | false =>
      rw [keys_insert_of_not_contains v hc]
      exact List.mem_append_left _ h

theorem mem_keys_insertAll {t : Table α β} {es : List (α × β)} {k : α}
    (h : k ∈ (t.insertAll es).keys) : k ∈ t.keys ∨ ∃ e ∈ es, e.1 = k := by
  induction es generalizing t with
  | nil => exact Or.inl h
  | cons d rest ih =>
      rcases ih h with h | ⟨e, he, hek⟩
      · exact (mem_keys_insert h).symm.imp_right fun hk => ⟨d, List.mem_cons_self, hk.symm⟩
      · exact Or.inr ⟨e, List.mem_cons_of_mem _ he, hek⟩

theorem mem_keys_ofList {es : List (α × β)} {k : α} (h : k ∈ (ofList es).keys) :
    ∃ e ∈ es, e.1 = k :=
  (mem_keys_insertAll h).resolve_left List.not_mem_nil

theorem Distinct.snoc {ks : List α} {k : α}
    (h : ks.Pairwise fun a b => (a == b) = false)
    (hk : (ks.any fun a => a == k) = false) :
    (ks ++ [k]).Pairwise fun a b => (a == b) = false := by
  rw [List.pairwise_append]
  refine ⟨h, List.pairwise_singleton .., ?_⟩
  intro a ha b hb
  rw [List.mem_singleton.1 hb]
  cases hak : a == k with
  | false => rfl
  | true => rw [List.any_eq_true.2 ⟨a, ha, hak⟩] at hk; exact Bool.noConfusion hk

theorem Distinct.insert {t : Table α β} (h : t.Distinct) (k : α) (v : β) :
    (t.insert k v).Distinct := by
  unfold Distinct
  cases hc : t.contains k with
  | true => rw [keys_insert_of_contains v hc]; exact h
  | false =>
      rw [keys_insert_of_not_contains v hc]
      exact Distinct.snoc h ((contains_eq_any_keys t k).symm.trans hc)

theorem Distinct.insertNew {t : Table α β} (h : t.Distinct) (k : α) (v : β) :
    (t.insertNew k v).Distinct := by
  unfold Table.insertNew
  cases hc : t.contains k with
  | true => exact h
  | false =>
      show (List.map Prod.fst (t.entries ++ [(k, v)])).Pairwise _
      rw [List.map_append]
      exact Distinct.snoc h ((contains_eq_any_keys t k).symm.trans hc)

theorem Distinct.foldl_insertNew {t : Table α β} (h : t.Distinct) (es : List (α × β)) :
    (es.foldl (fun t e => t.insertNew e.1 e.2) t).Distinct := by
  induction es generalizing t with
  | nil => exact h
  | cons e rest ih => exact ih (h.insertNew e.1 e.2)

theorem Distinct.insertAll {t : Table α β} (h : t.Distinct) (es : List (α × β)) :
    (t.insertAll es).Distinct := by
  induction es generalizing t with
  | nil => exact h
  | cons e rest ih => exact ih (h.insert e.1 e.2)

theorem distinct_ofList (es : List (α × β)) : (ofList es).Distinct :=
  distinct_empty.insertAll es

theorem Distinct.not_contains {before rest : List (α × β)} {e : α × β}
    (h : (Table.mk (before ++ e :: rest)).Distinct) : (Table.mk before).contains e.1 = false := by
  unfold Distinct keys at h
  rw [List.map_append, List.pairwise_append] at h
  refine List.any_eq_false.2 fun d hd => ?_
  rw [h.2.2 d.1 (List.mem_map_of_mem hd) e.1 (by simp)]
  exact Bool.false_ne_true

/-- New keys are added at the end, however they are written. -/
theorem foldl_of_distinct {f : Table α β → α × β → Table α β}
    (hf : ∀ t e, t.contains e.1 = false → f t e = ⟨t.entries ++ [e]⟩)
    (es before : List (α × β)) (h : (Table.mk (before ++ es)).Distinct) :
    es.foldl f ⟨before⟩ = ⟨before ++ es⟩ := by
  induction es generalizing before with
  | nil => rw [List.append_nil]; rfl
  | cons e es ih =>
      rw [List.foldl_cons, hf _ _ h.not_contains]
      have happ : before ++ e :: es = (before ++ [e]) ++ es := by simp
      rw [happ] at h ⊢
      exact ih _ h

/-- A list that names no key twice spells itself out. -/
theorem ofList_of_distinct {es : List (α × β)} (h : (Table.mk es).Distinct) :
    ofList es = ⟨es⟩ :=
  foldl_of_distinct (fun _ e he => insert_of_not_contains e.2 he) es [] h

theorem insertNew_of_distinct {es : List (α × β)} (h : (Table.mk es).Distinct) :
    es.foldl (fun t e => t.insertNew e.1 e.2) (empty : Table α β) = ⟨es⟩ := by
  refine foldl_of_distinct (fun t e he => ?_) es [] h
  rw [insertNew, he, if_neg Bool.false_ne_true]

theorem Distinct.mapValues {t : Table α β} (h : t.Distinct) (f : β → γ) :
    (t.mapValues f).Distinct := by
  unfold Distinct keys Table.mapValues
  rw [List.map_map]
  exact h

/-- Without repeated keys, every entry is the one that is found. -/
theorem Distinct.get?_of_mem [EquivBEq α] {t : Table α β} (h : t.Distinct)
    {e : α × β} (he : e ∈ t.entries) : t.get? e.1 = some e.2 := by
  obtain ⟨es⟩ := t
  show find e.1 es = some e.2
  change (es.map Prod.fst).Pairwise _ at h
  change e ∈ es at he
  induction es with
  | nil => cases he
  | cons d rest ih =>
      rw [List.map_cons, List.pairwise_cons] at h
      rw [find]
      rcases List.mem_cons.1 he with rfl | hrest
      · rw [if_pos BEq.rfl]
      · rw [if_neg, ih h.2 hrest]
        rw [h.1 e.1 (List.mem_map_of_mem hrest)]
        exact Bool.noConfusion

theorem Distinct.filterKeys {t : Table α β} (h : t.Distinct) (p : α → Bool) :
    (t.filterKeys p).Distinct :=
  List.Pairwise.sublist (List.filter_sublist.map Prod.fst) h

theorem Distinct.of_perm [PartialEquivBEq α] {t u : Table α β} (h : t.Distinct)
    (hp : u.entries.Perm t.entries) : u.Distinct := by
  refine ((hp.map Prod.fst).pairwise_iff ?_).2 h
  intro a b hab
  rw [BEq.comm, hab]

/-- Without repeated keys, the order of the entries does not show. -/
theorem Distinct.get?_of_perm [EquivBEq α] {t u : Table α β} (h : t.Distinct)
    (hp : u.entries.Perm t.entries) (k : α) : u.get? k = t.get? k := by
  cases hk : u.get? k with
  | some v =>
      obtain ⟨k', hmem, hkk⟩ := mem_of_get? hk
      rw [← get?_congr t hkk, h.get?_of_mem (hp.mem_iff.1 hmem)]
  | none =>
      have hc := get?_eq_none.1 hk
      symm
      rw [get?_eq_none]
      rw [contains, List.any_eq_false] at hc ⊢
      exact fun e he => hc e (hp.mem_iff.2 he)

/-- Writing what is there already changes nothing. -/
theorem insert_of_get? {t : Table α β} {k : α} {v : β} (h : t.get? k = some v) :
    t.insert k v = t := by
  obtain ⟨es⟩ := t
  refine congrArg Table.mk ?_
  change find k es = some v at h
  induction es with
  | nil => cases h
  | cons e rest ih =>
      rw [find] at h
      rw [put]
      split at h
      · next he => cases h; rw [if_pos he]
      · next he => rw [if_neg he, ih h]

/-- Writing the entries of a table without repeated keys over another. -/
theorem get?_overlay [EquivBEq α] (t : Table α β) {top : Table α β}
    (h : top.Distinct) (k : α) :
    (t.overlay top).get? k = if top.contains k then top.get? k else t.get? k := by
  obtain ⟨es⟩ := top
  show (t.insertAll es).get? k =
    if (es.any fun e => e.1 == k) then find k es else t.get? k
  change (es.map Prod.fst).Pairwise _ at h
  induction es generalizing t with
  | nil => rfl
  | cons e rest ih =>
      rw [List.map_cons, List.pairwise_cons] at h
      show ((t.insert e.1 e.2).insertAll rest).get? k = _
      rw [ih _ h.2, get?_insert, find, List.any_cons]
      cases he : e.1 == k with
      | false => rfl
      | true =>
          have hrest : (rest.any fun d => d.1 == k) = false := by
            rw [List.any_eq_false]
            intro d hd hdk
            have := h.1 d.1 (List.mem_map_of_mem hd)
            rw [BEq.trans he (BEq.symm hdk)] at this
            exact Bool.noConfusion this
          simp [hrest]

/-- Two tables with the same keys, each once, and the same values under them
are one table. -/
theorem Distinct.ext [EquivBEq α] {t u : Table α β} (ht : t.Distinct)
    (hkeys : t.keys = u.keys) (hget : ∀ k ∈ t.keys, t.get? k = u.get? k) : t = u := by
  have hu : u.Distinct := by unfold Distinct; rw [← hkeys]; exact ht
  have hlen : t.entries.length = u.entries.length := by
    have := congrArg List.length hkeys
    simpa [keys] using this
  have hentries : t.entries = u.entries := by
    refine List.ext_getElem hlen ?_
    intro i h₁ h₂
    have hkey : t.entries[i].1 = u.entries[i].1 := by
      have := congrArg (fun ks : List α => ks[i]?) hkeys
      simpa [keys, h₁, h₂] using this
    have hval : some t.entries[i].2 = some u.entries[i].2 := by
      rw [← ht.get?_of_mem (List.getElem_mem h₁), ← hu.get?_of_mem (List.getElem_mem h₂),
        ← hkey]
      exact hget _ (List.mem_map_of_mem (List.getElem_mem h₁))
    exact Prod.ext hkey (Option.some.inj hval)
  cases t
  cases u
  exact congrArg Table.mk hentries

end Table

/-! ## Error sets -/

namespace ErrorSet

theorem contains_eq_any (s : ErrorSet) (a : Atom) :
    s.contains a = s.entries.any fun e => e.1 == a :=
  Table.contains_ofList s.entries a

theorem contains_congr (s : ErrorSet) {a b : Atom} (h : (a == b) = true) :
    s.contains a = s.contains b :=
  Table.contains_congr s.index h

theorem contains_iff {s : ErrorSet} {a : Atom} :
    s.contains a = true ↔ ∃ e ∈ s.entries, (e.1 == a) = true := by
  rw [contains_eq_any, List.any_eq_true]

theorem contains_of_mem {s : ErrorSet} {e : Atom × List Ty} (h : e ∈ s.entries) :
    s.contains e.1 = true :=
  contains_iff.2 ⟨e, h, BEq.rfl⟩

theorem mem_of_mem_classifiers {s : ErrorSet} {c : Classifier} (h : c ∈ s.classifiers) :
    ∃ args, (.classifier c, args) ∈ s.entries := by
  obtain ⟨a, ha, hac⟩ := List.mem_filterMap.1 h
  obtain ⟨⟨b, args⟩, he, rfl⟩ := Table.mem_keys_ofList ha
  cases b with
  | classifier d => cases hac; exact ⟨args, he⟩
  | var x => cases hac

theorem isSome_get? (s : ErrorSet) (a : Atom) : (s.get? a).isSome = s.contains a :=
  Table.isSome_get? s.index a

theorem mem_entries_ofEntries {es : List (Atom × List Ty)} {u : Bool}
    {e : Atom × List Ty} : e ∈ (ofEntries es u).entries ↔ e ∈ es :=
  (sortOn_perm _ es).mem_iff

/-- A set made from a table has the atoms of the table. -/
theorem contains_ofTable (t : Instantiations) (u : Bool) (a : Atom) :
    (ofTable t u).contains a = t.contains a := by
  rw [Bool.eq_iff_iff, contains_iff, Table.contains, List.any_eq_true]
  constructor
  · rintro ⟨e, he, hk⟩
    exact ⟨e, mem_entries_ofEntries.1 he, hk⟩
  · rintro ⟨e, he, hk⟩
    exact ⟨e, mem_entries_ofEntries.2 he, hk⟩

/-- Whether the set names no atom twice. Sets made from a table do not. -/
def Distinct (s : ErrorSet) : Prop := (Table.mk s.entries).Distinct

theorem distinct_ofTable {t : Instantiations} (h : t.Distinct) (u : Bool) :
    (ofTable t u).Distinct :=
  h.of_perm (sortOn_perm _ t.entries)

/-- A set is made from its own entries, which are in order. -/
theorem ofTable_entries (s : ErrorSet) (u : Bool) :
    ofTable ⟨s.entries⟩ u = ⟨s.entries, u, s.sorted⟩ := by
  simp only [ofTable, ofEntries, sortOn_of_pairwise s.sorted]

theorem Distinct.get?_eq {s : ErrorSet} (h : s.Distinct) (a : Atom) :
    s.get? a = (Table.mk s.entries).get? a := by
  rw [get?, index, Table.ofList_of_distinct h]

theorem Distinct.get?_of_mem {s : ErrorSet} (h : s.Distinct) {e : Atom × List Ty}
    (he : e ∈ s.entries) : s.get? e.1 = some e.2 := by
  rw [h.get?_eq]
  exact Table.Distinct.get?_of_mem h he

theorem Distinct.mem_of_get? {s : ErrorSet} (h : s.Distinct) {a : Atom} {args : List Ty}
    (hget : s.get? a = some args) : ∃ b, (b, args) ∈ s.entries ∧ (b == a) = true := by
  rw [h.get?_eq] at hget
  exact Table.mem_of_get? hget

theorem get?_ofTable {t : Instantiations} (h : t.Distinct) (u : Bool) (a : Atom) :
    (ofTable t u).get? a = t.get? a := by
  rw [(distinct_ofTable h u).get?_eq]
  exact h.get?_of_perm (sortOn_perm _ t.entries) a

theorem get?_congr (s : ErrorSet) {a b : Atom} (h : (a == b) = true) : s.get? a = s.get? b :=
  Table.get?_congr s.index h

theorem isEmpty_iff (s : ErrorSet) :
    s.isEmpty = true ↔ (∀ a, s.contains a = false) ∧ s.universal = false := by
  unfold isEmpty
  rw [Bool.and_eq_true, List.isEmpty_iff, Bool.not_eq_true']
  refine and_congr ⟨fun h a => ?_, fun h => ?_⟩ Iff.rfl
  · rw [contains_eq_any, h]
    rfl
  · cases he : s.entries with
    | nil => rfl
    | cons e rest =>
        have := h e.1
        rw [contains_of_mem (by rw [he]; exact List.mem_cons_self ..)] at this
        cases this

/-- Whether no atom of the set has arguments. -/
def PayloadFree (s : ErrorSet) : Prop := ∀ e ∈ s.entries, e.2 = []

instance (s : ErrorSet) : Decidable s.PayloadFree :=
  inferInstanceAs (Decidable (∀ e ∈ s.entries, e.2 = []))

/-- An atom that is found was listed, with the arguments found. -/
theorem mem_of_get? {s : ErrorSet} {a : Atom} {args : List Ty}
    (h : s.get? a = some args) : ∃ b, (b, args) ∈ s.entries := by
  obtain ⟨k, hk, _⟩ := Table.mem_of_get? h
  rcases Table.mem_insertAll hk with he | he
  · cases he
  · exact he

end ErrorSet

end Fallible
