set_option autoImplicit false

/-! # Ordered entries

Keys with what they hold, in the order in which the keys first appeared; `List.lookup` reads them.
Main statements: what a written key reads as (`lookup_insert_self`, `lookup_insert_of_ne`), and that
writing keeps the order of the keys (`keys_insert`) and keeps them distinct (`nodup_keys_insert`). -/

namespace ConfigLang.Entries

variable {α : Type}

/-- Write a key: a key that is there keeps its place, a new one goes to the end. -/
def insert (key : String) (held : α) : List (String × α) → List (String × α)
  | [] => [(key, held)]
  | (k, v) :: rest => if k = key then (k, held) :: rest else (k, v) :: insert key held rest

/-- The entries that writing pairs one after another leaves. -/
def ofPairs (pairs : List (String × α)) : List (String × α) :=
  pairs.foldl (fun entries pair => insert pair.1 pair.2 entries) []

def keys (entries : List (String × α)) : List String :=
  entries.map Prod.fst

theorem lookup_insert_self (key : String) (held : α) (entries : List (String × α)) :
    (insert key held entries).lookup key = some held := by
  induction entries with
  | nil => simp [insert]
  | cons pair rest ih =>
    obtain ⟨k, v⟩ := pair
    by_cases h : k = key
    · simp [insert, h]
    · have h' : (key == k) = false := by simpa using fun hk => h hk.symm
      simp [insert, h, List.lookup_cons, h', ih]

theorem lookup_insert_of_ne {key other : String} (h : other ≠ key) (held : α)
    (entries : List (String × α)) :
    (insert key held entries).lookup other = entries.lookup other := by
  induction entries with
  | nil =>
    have h' : (other == key) = false := by simpa using h
    simp [insert, List.lookup_cons, h']
  | cons pair rest ih =>
    obtain ⟨k, v⟩ := pair
    by_cases hk : k = key
    · have h' : (other == key) = false := by simpa using h
      simp [insert, hk, List.lookup_cons, h']
    · simp [insert, hk, List.lookup_cons, ih]

theorem keys_insert (key : String) (held : α) (entries : List (String × α)) :
    keys (insert key held entries)
      = if key ∈ keys entries then keys entries else keys entries ++ [key] := by
  induction entries with
  | nil => simp [insert, keys]
  | cons pair rest ih =>
    obtain ⟨k, v⟩ := pair
    by_cases hk : k = key
    · simp [insert, keys, hk]
    · have hk' : ¬key = k := fun h => hk h.symm
      simp only [keys] at ih
      simp only [insert, hk, if_false, keys, List.map_cons, ih, List.mem_cons, hk', false_or]
      by_cases hmem : key ∈ rest.map Prod.fst <;> simp [hmem]

/-- Of two writes at a key the later one counts. -/
theorem insert_insert (key : String) (first last : α) (entries : List (String × α)) :
    insert key last (insert key first entries) = insert key last entries := by
  induction entries with
  | nil => simp [insert]
  | cons pair rest ih =>
    obtain ⟨k, v⟩ := pair
    by_cases hk : k = key
    · simp [insert, hk]
    · simp [insert, hk, ih]

/-- Writing what a key holds changes nothing. -/
theorem insert_of_lookup {key : String} {held : α} {entries : List (String × α)}
    (h : entries.lookup key = some held) : insert key held entries = entries := by
  induction entries with
  | nil => simp at h
  | cons pair rest ih =>
    obtain ⟨k, v⟩ := pair
    by_cases hk : k = key
    · simp only [hk, List.lookup_cons_self, Option.some.injEq] at h
      simp [insert, hk, h]
    · have hk' : (key == k) = false := by simpa using fun heq => hk heq.symm
      rw [List.lookup_cons, hk'] at h
      simp [insert, hk, ih h]

theorem lookup_eq_none_iff {key : String} {entries : List (String × α)} :
    entries.lookup key = none ↔ key ∉ keys entries := by
  rw [List.lookup_eq_none_iff]
  simp only [keys, List.mem_map, not_exists, not_and, bne_iff_ne]
  exact ⟨fun h p hp heq => h p hp heq.symm, fun h p hp heq => h p hp heq.symm⟩

/-- Writing keeps keys distinct. -/
theorem nodup_keys_insert (key : String) (held : α) {entries : List (String × α)}
    (h : (keys entries).Nodup) : (keys (insert key held entries)).Nodup := by
  rw [keys_insert]
  split
  next => exact h
  next hnew =>
    refine List.nodup_append.mpr ⟨h, by simp, fun k hk added hadded heq => hnew ?_⟩
    rwa [← List.mem_singleton.mp hadded, ← heq]

theorem nodup_keys_ofPairs (pairs : List (String × α)) : (keys (ofPairs pairs)).Nodup := by
  have hfold : ∀ entries : List (String × α), (keys entries).Nodup →
      (keys (pairs.foldl (fun entries pair => insert pair.1 pair.2 entries) entries)).Nodup := by
    induction pairs with
    | nil => exact fun entries h => h
    | cons pair rest ih => exact fun entries h => ih _ (nodup_keys_insert pair.1 pair.2 h)
  exact hfold [] List.nodup_nil

/-- A new key goes to the end. -/
theorem insert_of_not_mem {key : String} {entries : List (String × α)} (h : key ∉ keys entries)
    (held : α) : insert key held entries = entries ++ [(key, held)] := by
  induction entries with
  | nil => rfl
  | cons pair rest ih =>
    obtain ⟨k, v⟩ := pair
    rw [keys, List.map_cons, List.mem_cons, not_or] at h
    rw [insert, if_neg fun heq => h.1 heq.symm, ih h.2, List.cons_append]

/-- Writing pairs whose keys are distinct leaves the pairs themselves. -/
theorem ofPairs_of_nodup {pairs : List (String × α)} (h : (keys pairs).Nodup) :
    ofPairs pairs = pairs := by
  have hfold : ∀ done : List (String × α), (keys (done ++ pairs)).Nodup →
      pairs.foldl (fun entries pair => insert pair.1 pair.2 entries) done = done ++ pairs := by
    clear h
    induction pairs with
    | nil => exact fun done _ => (List.append_nil done).symm
    | cons pair rest ih =>
      intro done hdone
      have hnew : pair.1 ∉ keys done := by
        rw [keys, List.map_append, List.map_cons] at hdone
        exact fun hmem => (List.nodup_append.mp hdone).2.2 _ hmem _ List.mem_cons_self rfl
      have hstep : done ++ pair :: rest = (done ++ [pair]) ++ rest := by simp
      rw [List.foldl_cons, insert_of_not_mem hnew, hstep, ih]
      rwa [← hstep]
  exact hfold [] h

end ConfigLang.Entries
