/-!
# Finite maps in insertion order

Everything the checker keeps by name (error sets, bindings, solutions,
annotations) is read back in the order it was written, so a map here is the
list of its entries. Two rules fix that order. A key that is written again
keeps the place, and the spelling, of its first writing. The value is that of
the last writing.

Keys are compared by `==`, which need not be equality: two error classifiers
with the same number are one key however they are spelt.
-/

namespace Fallible

/-- A finite map that remembers the order in which its keys were written. -/
structure Table (α : Type) (β : Type) where
  /-- The entries, oldest key first. -/
  entries : List (α × β)

namespace Table

variable {α β γ : Type}

/-- The map without entries. -/
def empty : Table α β := ⟨[]⟩

instance : Inhabited (Table α β) := ⟨empty⟩

instance : EmptyCollection (Table α β) := ⟨empty⟩

/-- The keys, oldest first. -/
def keys (t : Table α β) : List α := t.entries.map Prod.fst

/-- The values, in the order of their keys. -/
def values (t : Table α β) : List β := t.entries.map Prod.snd

/-- The number of keys. -/
def size (t : Table α β) : Nat := t.entries.length

/-- Whether there is no entry. -/
def isEmpty (t : Table α β) : Bool := t.entries.isEmpty

/-- The same keys with values computed from the old ones. -/
def mapValues (f : β → γ) (t : Table α β) : Table α γ :=
  ⟨t.entries.map fun e => (e.1, f e.2)⟩

/-- The entries whose key passes the test. -/
def filterKeys (p : α → Bool) (t : Table α β) : Table α β :=
  ⟨t.entries.filter fun e => p e.1⟩

@[simp] theorem entries_empty : (empty : Table α β).entries = [] := rfl

variable [BEq α]

/-- The value of the first entry with a key. -/
def find (k : α) : List (α × β) → Option β
  | [] => none
  | e :: rest => if e.1 == k then some e.2 else find k rest

/-- The value stored under a key. -/
def get? (t : Table α β) (k : α) : Option β := find k t.entries

/-- Whether a key has a value. -/
def contains (t : Table α β) (k : α) : Bool := t.entries.any fun e => e.1 == k

/-- Overwrites the value of the first entry with this key, or appends one. -/
def put (k : α) (v : β) : List (α × β) → List (α × β)
  | [] => [(k, v)]
  | e :: rest => if e.1 == k then (e.1, v) :: rest else e :: put k v rest

/-- Stores a value; a key that is already there keeps its place. -/
def insert (t : Table α β) (k : α) (v : β) : Table α β := ⟨put k v t.entries⟩

/-- Stores a value unless the key already has one. -/
def insertNew (t : Table α β) (k : α) (v : β) : Table α β :=
  if t.contains k then t else ⟨t.entries ++ [(k, v)]⟩

/-- Writes a list of entries one after the other. -/
def insertAll (t : Table α β) (es : List (α × β)) : Table α β :=
  es.foldl (fun acc e => acc.insert e.1 e.2) t

/-- The map that a list of entries spells out. -/
def ofList (es : List (α × β)) : Table α β := empty.insertAll es

/-- Both maps together. The keys of `t` come first; where both have a key,
`top` has the say. -/
def overlay (t top : Table α β) : Table α β := t.insertAll top.entries

/-! ## Reading back what was written -/

@[simp] theorem get?_empty (k : α) : (empty : Table α β).get? k = none := rfl

@[simp] theorem contains_empty (k : α) : (empty : Table α β).contains k = false := rfl

/-- Writing under a key leaves the other keys' values alone. -/
theorem find_put_ne [PartialEquivBEq α] {k k' : α} (v : β) (es : List (α × β))
    (h : (k == k') = false) : find k' (put k v es) = find k' es := by
  induction es with
  | nil => simp [put, find, h]
  | cons e rest ih =>
      by_cases he : (e.1 == k) = true
      · have he' : (e.1 == k') = false := by
          cases hk : e.1 == k' with
          | false => rfl
          | true =>
              rw [BEq.trans (BEq.symm he) hk] at h
              exact absurd h (by simp)
        simp [put, he, find, he']
      · simp only [put, he, Bool.false_eq_true, if_false, find]
        rw [ih]

/-- The value under a key is the last one written there. -/
theorem find_put_self [ReflBEq α] (k : α) (v : β) (es : List (α × β)) :
    find k (put k v es) = some v := by
  induction es with
  | nil => simp [put, find]
  | cons e rest ih =>
      by_cases he : (e.1 == k) = true
      · simp [put, he, find]
      · simp only [put, he, Bool.false_eq_true, if_false, find]
        exact ih

/-- Reading a key just written gives the value just written. -/
theorem get?_insert_self [ReflBEq α] (t : Table α β) (k : α) (v : β) :
    (t.insert k v).get? k = some v :=
  find_put_self k v t.entries

/-- Writing a key does not show under another. -/
theorem get?_insert_ne [PartialEquivBEq α] (t : Table α β) {k k' : α} (v : β)
    (h : (k == k') = false) : (t.insert k v).get? k' = t.get? k' :=
  find_put_ne v t.entries h

/-- A value that is found was written. -/
theorem mem_of_find {k : α} {v : β} {es : List (α × β)} (h : find k es = some v) :
    ∃ k', (k', v) ∈ es := by
  induction es with
  | nil => exact absurd h (by simp [find])
  | cons e rest ih =>
      unfold find at h
      split at h
      · exact ⟨e.1, by simp [← Option.some.inj h]⟩
      · obtain ⟨k', hk⟩ := ih h
        exact ⟨k', List.mem_cons_of_mem _ hk⟩

/-- Writing brings in no value but the one written. -/
theorem mem_put {k : α} {v : β} {es : List (α × β)} {e : α × β} (h : e ∈ put k v es) :
    e.2 = v ∨ e ∈ es := by
  induction es with
  | nil => exact Or.inl (by simp [List.mem_singleton.1 h])
  | cons d rest ih =>
      unfold put at h
      split at h
      · cases List.mem_cons.1 h with
        | inl he => exact Or.inl (by rw [he])
        | inr hr => exact Or.inr (List.mem_cons_of_mem _ hr)
      · cases List.mem_cons.1 h with
        | inl he => exact Or.inr (he ▸ List.mem_cons_self ..)
        | inr hr => exact (ih hr).imp_right (List.mem_cons_of_mem _)

/-- Every value of a map was there before or was written into it. -/
theorem mem_insertAll {t : Table α β} {es : List (α × β)} {e : α × β}
    (h : e ∈ (t.insertAll es).entries) : e ∈ t.entries ∨ ∃ k, (k, e.2) ∈ es := by
  induction es generalizing t with
  | nil => exact Or.inl h
  | cons d rest ih =>
      cases ih (t := t.insert d.1 d.2) h with
      | inl hi =>
          cases mem_put hi with
          | inl hv => exact Or.inr ⟨d.1, by simp [hv]⟩
          | inr ht => exact Or.inl ht
      | inr hr =>
          obtain ⟨k, hk⟩ := hr
          exact Or.inr ⟨k, List.mem_cons_of_mem _ hk⟩

end Table

end Fallible
