import Fallible.Proofs.Table
import Fallible.Registry

/-!
# Runs of a registry

A host asks a registry three things, in any order and as often as it likes: to
declare a classifier, to look one up by its key, and to get one by its number.
The key of a classifier is its scope and name. Only the first declaration of a
key changes anything. It puts one record at the end of the list, where the
number it carries says it is, and files it in the table under the key it
carries.

Nothing in the list or the table keeps the two together. What does is that they
are only ever written together, and that a key is written only if the table has
nothing under it. Each can be read back from the other then: the table is the
list with every record under its own key.

So the registry and the events of a run account for each other. The records are
those that declarations got, one for each key and one for each number, and a
declaration is refused only if it contradicts the first one of its key. This is
an invariant of the registry together with its past. A call keeps it, and so
does a run.
-/

namespace Fallible

namespace Registry

/-! ## Calls and events -/

/-- What a host may ask of a registry. -/
inductive Call where
  | intern (scope : List String) (name : String) (variances : List Variance)
  | lookup (scope : List String) (name : String)
  | get (id : Int)

/-- A call that was made, and its answer. -/
inductive Event where
  | intern (scope : List String) (name : String) (variances : List Variance)
      (answer : Except Refusal Classifier)
  | lookup (scope : List String) (name : String) (answer : Option Classifier)
  | get (id : Int) (answer : Except Refusal Classifier)

/-- The registry after a call. -/
def serve (r : Registry) : Call → Registry
  | .intern scope name variances => (r.intern scope name variances).2
  | .lookup .. | .get _ => r

/-- A call with the answer that it gets. -/
def answering (r : Registry) : Call → Event
  | .intern scope name variances =>
      .intern scope name variances (r.intern scope name variances).1
  | .lookup scope name => .lookup scope name (r.lookup scope name)
  | .get id => .get id (r.get id)

/-- The registry after several calls. -/
def serveAll (r : Registry) : List Call → Registry
  | [] => r
  | call :: calls => (r.serve call).serveAll calls

/-- Several calls, each with the answer that it gets. -/
def events (r : Registry) : List Call → List Event
  | [] => []
  | call :: calls => r.answering call :: (r.serve call).events calls

/-- Whether a declaration got this record. -/
def Issued (past : List Event) (c : Classifier) : Prop :=
  ∃ scope name variances, .intern scope name variances (.ok c) ∈ past

/-- The parameters that an event gives for a key. -/
def Event.declares? (scope : List String) (name : String) : Event → Option (List Variance)
  | .intern s n variances _ => if s = scope ∧ n = name then some variances else none
  | _ => none

/-- The parameters that were given first for a key. -/
def firstDeclared (past : List Event) (scope : List String) (name : String) :
    Option (List Variance) :=
  past.findSome? (Event.declares? scope name)

theorem Event.declares?_isSome {scope : List String} {name : String} {e : Event} :
    (e.declares? scope name).isSome = true ↔
      ∃ variances answer, e = .intern scope name variances answer := by
  cases e with
  | intern s n variances answer =>
      rw [declares?]
      constructor
      · intro h
        split at h
        · next hkey => exact ⟨variances, answer, by rw [hkey.1, hkey.2]⟩
        · cases h
      · rintro ⟨_, _, h⟩
        cases h
        simp
  | lookup | get => simp [declares?]

theorem firstDeclared_append (past : List Event) (e : Event) (scope : List String)
    (name : String) : firstDeclared (past ++ [e]) scope name =
      (firstDeclared past scope name).or (e.declares? scope name) := by
  rw [firstDeclared, List.findSome?_append]
  cases h : e.declares? scope name <;> simp [firstDeclared, h]

theorem firstDeclared_isSome {past : List Event} {scope : List String} {name : String} :
    (firstDeclared past scope name).isSome = true ↔
      ∃ variances answer, .intern scope name variances answer ∈ past := by
  rw [firstDeclared, List.findSome?_isSome_iff]
  constructor
  · rintro ⟨e, he, hsome⟩
    obtain ⟨variances, answer, rfl⟩ := Event.declares?_isSome.1 hsome
    exact ⟨variances, answer, he⟩
  · rintro ⟨variances, answer, he⟩
    exact ⟨_, he, Event.declares?_isSome.2 ⟨variances, answer, rfl⟩⟩

/-! ## One call -/

variable {r : Registry} {scope : List String} {name : String}

/-- A new record is found under its key, and hides nothing under another. -/
theorem lookup_issue (r : Registry) (scope : List String) (name : String)
    (variances : List Variance) (s : List String) (n : String) :
    (r.issue scope name variances).lookup s n =
      if scope = s ∧ name = n then some (r.next scope name variances) else r.lookup s n := by
  rw [lookup, issue, Table.get?_insert]
  simp only [beq_iff_eq, Prod.mk.injEq]
  rfl

/-- All that a declaration can do. -/
theorem intern_cases (r : Registry) (scope : List String) (name : String)
    (variances : List Variance) :
    r.lookup scope name = none ∧ r.intern scope name variances =
        (.ok (r.next scope name variances), r.issue scope name variances) ∨
      ∃ found, r.lookup scope name = some found ∧
        ((variances = [] ∨ variances = found.variances) ∧
            r.intern scope name variances = (.ok found, r) ∨
          variances ≠ [] ∧ variances ≠ found.variances ∧
            r.intern scope name variances = (.error (.redeclared found), r)) := by
  unfold intern
  cases hl : r.lookup scope name with
  | none => exact Or.inl ⟨rfl, rfl⟩
  | some found =>
      refine Or.inr ⟨found, rfl, ?_⟩
      by_cases hv : variances = [] ∨ variances = found.variances
      · exact Or.inl ⟨hv, by simp [hv]⟩
      · rw [not_or] at hv
        exact Or.inr ⟨hv.1, hv.2, by simp [hv]⟩

/-- When a declaration is refused. -/
theorem intern_refused_iff {variances : List Variance} {refusal : Refusal} :
    (r.intern scope name variances).1 = .error refusal ↔
      ∃ found, r.lookup scope name = some found ∧ variances ≠ [] ∧
        variances ≠ found.variances ∧ refusal = .redeclared found := by
  rcases r.intern_cases scope name variances with
    ⟨hl, h⟩ | ⟨found, hl, ⟨hv, h⟩ | ⟨hnil, hne, h⟩⟩
  · simp [h, hl]
  · simp only [h, hl, reduceCtorEq, Option.some.injEq, false_iff]
    rintro ⟨_, rfl, hnil, hne, _⟩
    exact hv.elim hnil hne
  · simp [h, hl, hnil, hne, eq_comm]

theorem intern_refused {variances : List Variance} {refusal : Refusal}
    (h : (r.intern scope name variances).1 = .error refusal) :
    (r.intern scope name variances).2 = r := by
  rcases r.intern_cases scope name variances with ⟨_, hr⟩ | ⟨_, _, ⟨_, hr⟩ | ⟨_, _, hr⟩⟩
  · rw [hr] at h
    cases h
  · rw [hr]
  · rw [hr]

/-- A call changes nothing, or issues one record. -/
theorem serve_cases (r : Registry) (call : Call) :
    r.serve call = r ∨ ∃ scope name variances, r.serve call = r.issue scope name variances := by
  cases call with
  | intern scope name variances =>
      rw [serve]
      rcases r.intern_cases scope name variances with ⟨_, hr⟩ | ⟨_, _, ⟨_, hr⟩ | ⟨_, _, hr⟩⟩
      · exact Or.inr ⟨scope, name, variances, congrArg Prod.snd hr⟩
      · exact Or.inl (congrArg Prod.snd hr)
      · exact Or.inl (congrArg Prod.snd hr)
  | lookup | get => exact Or.inl rfl

theorem serial_serve (r : Registry) (call : Call) : (r.serve call).serial = r.serial := by
  rcases r.serve_cases call with h | ⟨_, _, _, h⟩
  · rw [h]
  · rw [h, issue]

theorem serial_serveAll (r : Registry) (calls : List Call) :
    (r.serveAll calls).serial = r.serial := by
  induction calls generalizing r with
  | nil => rfl
  | cons call calls ih => exact (ih _).trans (serial_serve r call)

/-- A call leaves the records that there are where they are. -/
theorem records_serve (r : Registry) (call : Call) : r.records <+: (r.serve call).records := by
  rcases r.serve_cases call with h | ⟨_, _, _, h⟩
  · exact ⟨[], (List.append_nil _).trans (congrArg records h).symm⟩
  · exact ⟨_, (congrArg records h).symm⟩

theorem records_serveAll (r : Registry) (calls : List Call) :
    r.records <+: (r.serveAll calls).records := by
  induction calls generalizing r with
  | nil => exact List.prefix_rfl
  | cons call calls ih => exact (records_serve r call).trans (ih _)

/-! ## The registry and its past -/

/-- What is true of a registry that started with no records, and its past. -/
structure Kept (past : List Event) (r : Registry) : Prop where
  /-- A record stands at the place of its number. -/
  numbered : ∀ (i : Nat) (c : Classifier), r.records[i]? = some c → c.id = i
  /-- A record says which registry issued it. -/
  stamped : ∀ c ∈ r.records, c.issuer = some r.serial
  /-- The table has the records of the list, each under its own key. -/
  filed : r.byKey.entries = r.records.map fun c => (c.key, c)
  /-- The table has no key twice. -/
  keyed : r.byKey.Distinct
  /-- A key has the parameters that were given first. -/
  first : ∀ scope name,
    (r.lookup scope name).map Classifier.variances = firstDeclared past scope name
  /-- Every record was issued. -/
  issued : ∀ c ∈ r.records, Issued past c
  /-- A declaration got the record of its key. -/
  answered : ∀ scope name variances c, .intern scope name variances (.ok c) ∈ past →
    r.lookup scope name = some c

namespace Kept

variable {past : List Event}

theorem new (serial : Nat) : Kept [] (new serial) where
  numbered i c h := by cases h
  stamped c h := absurd h List.not_mem_nil
  filed := rfl
  keyed := Table.distinct_empty
  first _ _ := rfl
  issued c h := absurd h List.not_mem_nil
  answered _ _ _ _ h := absurd h List.not_mem_nil

/-- What the table has under a key is a record of the list, and the key is its own. -/
theorem mem_of_lookup (h : Kept past r) {c : Classifier} (hfound : r.lookup scope name = some c) :
    c ∈ r.records ∧ c.scope = scope ∧ c.name = name := by
  obtain ⟨key, hentry, hkey⟩ := Table.mem_of_get? hfound
  rw [h.filed] at hentry
  obtain ⟨d, hd, he⟩ := List.mem_map.1 hentry
  obtain ⟨rfl, rfl⟩ := Prod.mk.inj he
  exact ⟨hd, Prod.mk.inj (beq_iff_eq.1 hkey)⟩

/-- A record of the list is what the table has under its key. -/
theorem lookup_of_mem (h : Kept past r) {c : Classifier} (hc : c ∈ r.records) :
    r.lookup c.scope c.name = some c := by
  have hentry : (c.key, c) ∈ r.byKey.entries := by
    rw [h.filed]
    exact List.mem_map_of_mem hc
  exact h.keyed.get?_of_mem hentry

theorem nodup_keys (h : Kept past r) : (r.records.map Classifier.key).Nodup := by
  have hkeys : r.byKey.keys = r.records.map Classifier.key := by
    rw [Table.keys, h.filed, List.map_map]
    rfl
  rw [← hkeys]
  exact h.keyed.imp ne_of_beq_false

/-- A call that changes nothing keeps the account, if the key it declares is known and
the record it answers with is the one of that key. -/
theorem unchanged (h : Kept past r) {e : Event}
    (hknown : ∀ scope name, (e.declares? scope name).isSome = true →
      (r.lookup scope name).isSome = true)
    (hanswer : ∀ scope name variances c, e = .intern scope name variances (.ok c) →
      r.lookup scope name = some c) : Kept (past ++ [e]) r where
  numbered := h.numbered
  stamped := h.stamped
  filed := h.filed
  keyed := h.keyed
  first scope name := by
    rw [firstDeclared_append, ← h.first]
    cases hl : r.lookup scope name with
    | some c => rfl
    | none =>
        cases hd : e.declares? scope name with
        | none => rfl
        | some variances =>
            have hsome := hknown scope name (by rw [hd]; rfl)
            rw [hl] at hsome
            cases hsome
  issued c hc := by
    obtain ⟨scope, name, variances, hin⟩ := h.issued c hc
    exact ⟨scope, name, variances, List.mem_append_left _ hin⟩
  answered scope name variances c hin := by
    rcases List.mem_append.1 hin with hin | hin
    · exact h.answered scope name variances c hin
    · exact hanswer scope name variances c (List.mem_singleton.1 hin).symm

/-- The first declaration of a key. -/
theorem issue (h : Kept past r) (hnew : r.lookup scope name = none) (variances : List Variance) :
    Kept (past ++ [.intern scope name variances (.ok (r.next scope name variances))])
      (r.issue scope name variances) where
  numbered i c hi := by
    rw [Registry.issue, List.getElem?_append] at hi
    split at hi
    · exact h.numbered i c hi
    · next hge =>
        obtain ⟨hzero, rfl⟩ : i - r.records.length = 0 ∧ r.next scope name variances = c := by
          simpa [List.getElem?_singleton] using hi
        have hlen : i = r.records.length := by omega
        rw [hlen]
        rfl
  stamped c hc := by
    rcases List.mem_append.1 hc with hc | hc
    · exact h.stamped c hc
    · rw [List.mem_singleton.1 hc]
      rfl
  filed := by
    have hcontains : r.byKey.contains (scope, name) = false := Table.get?_eq_none.1 hnew
    rw [Registry.issue, Table.insert_of_not_contains _ hcontains, h.filed, List.map_append]
    rfl
  keyed := h.keyed.insert _ _
  first s n := by
    rw [lookup_issue, firstDeclared_append, ← h.first, Event.declares?]
    by_cases hkey : scope = s ∧ name = n
    · obtain ⟨rfl, rfl⟩ := hkey
      rw [if_pos ⟨rfl, rfl⟩, if_pos ⟨rfl, rfl⟩, hnew]
      rfl
    · rw [if_neg hkey, if_neg hkey, Option.or_none]
  issued c hc := by
    rcases List.mem_append.1 hc with hc | hc
    · obtain ⟨s, n, vs, hin⟩ := h.issued c hc
      exact ⟨s, n, vs, List.mem_append_left _ hin⟩
    · rw [List.mem_singleton.1 hc]
      exact ⟨scope, name, variances, List.mem_append_right _ List.mem_cons_self⟩
  answered s n vs c hin := by
    rw [lookup_issue]
    rcases List.mem_append.1 hin with hin | hin
    · have hold := h.answered s n vs c hin
      rw [if_neg, hold]
      rintro ⟨rfl, rfl⟩
      rw [hnew] at hold
      cases hold
    · cases List.mem_singleton.1 hin
      exact if_pos ⟨rfl, rfl⟩

theorem known_of_declares {found : Classifier} {variances : List Variance}
    {answer : Except Refusal Classifier} (hfound : r.lookup scope name = some found)
    (s : List String) (n : String)
    (h : (Event.declares? s n (.intern scope name variances answer)).isSome = true) :
    (r.lookup s n).isSome = true := by
  obtain ⟨_, _, he⟩ := Event.declares?_isSome.1 h
  cases he
  rw [hfound]
  rfl

/-- A call keeps the account. -/
theorem serve (h : Kept past r) (call : Call) :
    Kept (past ++ [r.answering call]) (r.serve call) := by
  cases call with
  | intern scope name variances =>
      rw [answering, Registry.serve]
      rcases r.intern_cases scope name variances with
        ⟨hnew, hr⟩ | ⟨found, hfound, ⟨_, hr⟩ | ⟨_, _, hr⟩⟩
      · rw [hr]
        exact h.issue hnew variances
      · rw [hr]
        exact h.unchanged (known_of_declares hfound) fun s n vs c he => by cases he; exact hfound
      · rw [hr]
        exact h.unchanged (known_of_declares hfound) fun s n vs c he => by cases he
  | lookup scope name =>
      exact h.unchanged (fun _ _ hd => by cases hd) fun _ _ _ _ he => by cases he
  | get id => exact h.unchanged (fun _ _ hd => by cases hd) fun _ _ _ _ he => by cases he

/-- A run keeps the account. -/
theorem serveAll (h : Kept past r) (calls : List Call) :
    Kept (past ++ r.events calls) (r.serveAll calls) := by
  induction calls generalizing past r with
  | nil =>
      rw [events, List.append_nil]
      exact h
  | cons call calls ih =>
      rw [events, List.append_cons]
      exact ih (h.serve call)

/-! What the account comes to for the three ways to find a record. -/

theorem mem_records_iff (h : Kept past r) {c : Classifier} : c ∈ r.records ↔ Issued past c := by
  refine ⟨h.issued c, ?_⟩
  rintro ⟨scope, name, variances, hin⟩
  exact (h.mem_of_lookup (h.answered scope name variances c hin)).1

theorem lookup_iff (h : Kept past r) {c : Classifier} :
    r.lookup scope name = some c ↔ Issued past c ∧ c.scope = scope ∧ c.name = name := by
  rw [← h.mem_records_iff]
  refine ⟨h.mem_of_lookup, ?_⟩
  rintro ⟨hc, rfl, rfl⟩
  exact h.lookup_of_mem hc

theorem get?_iff (h : Kept past r) {id : Int} {c : Classifier} :
    r.get? id = some c ↔ Issued past c ∧ c.id = id := by
  rw [← h.mem_records_iff, get?]
  constructor
  · intro hget
    split at hget
    · cases hget
    · next hid =>
        refine ⟨List.mem_of_getElem? hget, ?_⟩
        rw [h.numbered _ _ hget]
        omega
  · rintro ⟨hc, rfl⟩
    obtain ⟨i, hi⟩ := List.mem_iff_getElem?.1 hc
    have hid := h.numbered i c hi
    rw [if_neg (by omega), hid, Int.toNat_natCast]
    exact hi

/-- The table and the list are inverse to each other: a key leads to a record if its
number does and the key is its own. -/
theorem lookup_iff_get? (h : Kept past r) {c : Classifier} :
    r.lookup scope name = some c ↔ r.get? c.id = some c ∧ c.scope = scope ∧ c.name = name := by
  rw [h.lookup_iff, h.get?_iff, and_iff_left rfl]

/-- A key keeps its record, whatever is asked later. -/
theorem lookup_serveAll (h : Kept past r) (later : List Call) {c : Classifier}
    (hfound : r.lookup scope name = some c) : (r.serveAll later).lookup scope name = some c := by
  obtain ⟨hc, rfl, rfl⟩ := h.mem_of_lookup hfound
  exact (h.serveAll later).lookup_of_mem ((records_serveAll r later).subset hc)

theorem contains_iff (h : Kept past r) {c : Classifier} :
    r.contains c = true ↔ Issued past c := by
  rw [contains, decide_eq_true_iff, h.get?_iff, and_iff_left rfl]

/-- Two declarations that got records got the same one if their keys are the same, and
only then. -/
theorem isSameRecord_iff (h : Kept past r) {s : List String} {n : String}
    {vs ws : List Variance} {c d : Classifier} (hc : .intern scope name vs (.ok c) ∈ past)
    (hd : .intern s n ws (.ok d) ∈ past) :
    c.isSameRecord d = true ↔ scope = s ∧ name = n := by
  have hfound := h.answered _ _ _ _ hc
  have hfound' := h.answered _ _ _ _ hd
  obtain ⟨hin, rfl, rfl⟩ := h.mem_of_lookup hfound
  obtain ⟨_, rfl, rfl⟩ := h.mem_of_lookup hfound'
  rw [Classifier.isSameRecord, h.stamped c hin, Option.isSome_some, Bool.true_and,
    decide_eq_true_iff]
  constructor
  · rintro rfl
    exact ⟨rfl, rfl⟩
  · rintro ⟨hscope, hname⟩
    rw [hscope, hname, hfound'] at hfound
    exact (Option.some.inj hfound).symm

end Kept

theorem get_ok_iff {id : Int} {c : Classifier} : r.get id = .ok c ↔ r.get? id = some c := by
  rw [get]
  cases r.get? id <;> simp

theorem isSome_get? (r : Registry) (id : Int) :
    (r.get? id).isSome = true ↔ 0 ≤ id ∧ id < r.size := by
  rw [get?, size]
  by_cases h : id < 0
  · rw [if_pos h]
    simp only [Option.isSome_none, Bool.false_eq_true, false_iff]
    omega
  · rw [if_neg h, isSome_getElem?]
    omega

/-- What a registry and the events of a run owe each other. -/
structure Accounts (serial : Nat) (past : List Event) (r : Registry) : Prop where
  /-- A record stands at the place of its number. -/
  placed : ∀ (i : Nat) (c : Classifier), r.records[i]? = some c → c.id = i
  /-- The table has the records of the list in their order, each under its own key. -/
  filed : r.byKey.entries = r.records.map fun c => (c.key, c)
  /-- No two records have one key. -/
  keyed : (r.records.map Classifier.key).Nodup
  /-- A key leads to a record if its number does and the key is its own. -/
  inverse : ∀ scope name c,
    r.lookup scope name = some c ↔ r.get c.id = .ok c ∧ c.key = (scope, name)
  /-- Two declarations get the same record if their keys are the same, and only then. -/
  same : ∀ {scope name variances c scope' name' variances' c'},
    .intern scope name variances (.ok c) ∈ past →
    .intern scope' name' variances' (.ok c') ∈ past →
      (c.isSameRecord c' = true ↔ scope = scope' ∧ name = name')
  /-- What a declaration gets has its key, and the parameters that were given first. -/
  declared : ∀ {scope name variances c}, .intern scope name variances (.ok c) ∈ past →
    c.scope = scope ∧ c.name = name ∧ firstDeclared past scope name = some c.variances
  /-- Looking up a key finds the record that was issued for it. -/
  lookup : ∀ scope name c,
    r.lookup scope name = some c ↔ Issued past c ∧ c.scope = scope ∧ c.name = name
  /-- The keys that are found are those that were declared. -/
  keys : ∀ scope name, (r.lookup scope name).isSome = true ↔
    ∃ variances answer, .intern scope name variances answer ∈ past
  /-- Getting a number finds the record that was issued with it. -/
  get : ∀ id c, r.get id = .ok c ↔ Issued past c ∧ c.id = id
  /-- The numbers that are found are those from zero up to the number of records. -/
  numbers : ∀ id, (∃ c, r.get id = .ok c) ↔ 0 ≤ id ∧ id < r.size
  /-- A declaration is refused if its key is known and it gives other parameters. -/
  refused : ∀ scope name variances refusal,
    (r.intern scope name variances).1 = .error refusal ↔
      ∃ found, r.lookup scope name = some found ∧ variances ≠ [] ∧
        variances ≠ found.variances ∧ refusal = .redeclared found
  /-- One that is refused changes nothing. -/
  intact : ∀ scope name variances refusal,
    (r.intern scope name variances).1 = .error refusal →
      (r.intern scope name variances).2 = r
  /-- Records stay what they are and where they are, whatever is asked later. -/
  lasting : ∀ later, r.records <+: (r.serveAll later).records
  /-- So does what is found under a key. -/
  remembered : ∀ later scope name c, r.lookup scope name = some c →
    (r.serveAll later).lookup scope name = some c
  /-- The registry recognises the records that it issued, and no others. -/
  member : ∀ c, r.contains c = true ↔ Issued past c
  /-- Records of other registries, and records made by hand, are never among them. -/
  foreign : ∀ c, c.issuer ≠ some serial → r.contains c = false

/-- Every run of calls, refused ones included, leaves a registry that accounts for them. -/
theorem run_accounts_for_calls (serial : Nat) (calls : List Call) :
    Accounts serial ((new serial).events calls) ((new serial).serveAll calls) := by
  have h : Kept ((new serial).events calls) ((new serial).serveAll calls) :=
    (Kept.new serial).serveAll calls
  refine
    { placed := h.numbered
      filed := h.filed
      keyed := h.nodup_keys
      inverse := fun _ _ _ => ?_
      same := h.isSameRecord_iff
      declared := fun hin => ?_
      lookup := fun _ _ _ => h.lookup_iff
      keys := fun scope name => ?_
      get := fun _ _ => get_ok_iff.trans h.get?_iff
      numbers := fun id => ?_
      refused := fun _ _ _ _ => intern_refused_iff
      intact := fun _ _ _ _ => intern_refused
      lasting := records_serveAll _
      remembered := fun later _ _ _ => h.lookup_serveAll later
      member := fun _ => h.contains_iff
      foreign := fun c hc => ?_ }
  · rw [get_ok_iff, h.lookup_iff_get?, Classifier.key, Prod.mk.injEq]
  · have hfound := h.answered _ _ _ _ hin
    obtain ⟨_, hscope, hname⟩ := h.mem_of_lookup hfound
    exact ⟨hscope, hname, by rw [← h.first, hfound]; rfl⟩
  · rw [← firstDeclared_isSome, ← h.first, Option.isSome_map]
  · rw [← isSome_get?, Option.isSome_iff_exists]
    exact exists_congr fun _ => get_ok_iff
  · rw [Bool.eq_false_iff, Ne, h.contains_iff, ← h.mem_records_iff]
    intro hin
    rw [h.stamped c hin, serial_serveAll] at hc
    exact hc rfl

/-! The second declaration gives no parameters and is accepted, the third gives others
and is refused. A record made by hand is not recognised, though nothing else sets it
apart. -/

example : ((new 7).serveAll [.intern ["m"] "A" [.covariant], .intern ["m"] "A" [],
      .intern ["m"] "A" [.invariant], .get 1]).records = [⟨0, ["m"], "A", [.covariant], some 7⟩] ∧
    ((new 7).serve (.intern ["m"] "A" [])).contains ⟨0, ["m"], "A", [], some 7⟩ = true ∧
    ((new 7).serve (.intern ["m"] "A" [])).contains ⟨0, ["m"], "A", [], none⟩ = false :=
  ⟨rfl, rfl, rfl⟩

end Registry

end Fallible
