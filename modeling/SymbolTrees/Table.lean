/-!
Tables: pairs of a key and a value in the order in which the keys came first.
-/

namespace SymbolTrees

/-- Keys with their values. The keys are distinct as long as the table is built by `put`. -/
abbrev Table (κ α : Type) := List (κ × α)

namespace Table

variable {κ α : Type} [DecidableEq κ]

def get? (table : Table κ α) (key : κ) : Option α :=
  (table.find? fun entry => entry.1 = key).map (·.2)

def contains (table : Table κ α) (key : κ) : Bool := (get? table key).isSome

/-- A key that is there keeps its place; a new one goes to the end. -/
def put (table : Table κ α) (key : κ) (value : α) : Table κ α :=
  match table with
  | [] => [(key, value)]
  | (k, v) :: rest => if k = key then (k, value) :: rest else (k, v) :: put rest key value

def erase (table : Table κ α) (key : κ) : Table κ α := table.filter fun entry => entry.1 ≠ key

/-- Of two entries with one key the later value counts. -/
def ofList (entries : List (κ × α)) : Table κ α :=
  entries.foldl (fun table entry => put table entry.1 entry.2) []

/-! ### What is read back -/

section Laws

variable (table : Table κ α) (key : κ)

@[simp] theorem get?_nil : get? ([] : Table κ α) key = none := rfl

theorem get?_cons (entry : κ × α) :
    get? (entry :: table) key = if entry.1 = key then some entry.2 else get? table key := by
  unfold get?
  rw [List.find?_cons]
  by_cases h : entry.1 = key <;> simp [h]

/-- A new value is read back under its key, and every other key keeps its value. -/
theorem get?_put (value : α) (other : κ) :
    get? (put table key value) other = if key = other then some value else get? table other := by
  induction table with
  | nil => rw [put, get?_cons]
  | cons entry rest ih =>
    unfold put
    by_cases h : entry.1 = key
    · rw [if_pos h, get?_cons, get?_cons, h]
      by_cases hk : key = other <;> simp [hk]
    · rw [if_neg h, get?_cons, ih, get?_cons]
      by_cases hk : key = other
      · simp [← hk, h]
      · simp [hk]

@[simp] theorem get?_put_self (value : α) : get? (put table key value) key = some value := by
  rw [get?_put, if_pos rfl]

/-- An erased key is gone, and every other key keeps its value. -/
theorem get?_erase (other : κ) :
    get? (erase table key) other = if key = other then none else get? table other := by
  induction table with
  | nil => simp [erase]
  | cons entry rest ih =>
    unfold erase at ih ⊢
    rw [List.filter_cons]
    by_cases h : entry.1 = key
    · rw [if_neg (by simpa using h), ih, get?_cons, h]
      by_cases hk : key = other <;> simp [hk]
    · rw [if_pos (by simpa using h), get?_cons, ih, get?_cons]
      by_cases hk : key = other
      · simp [← hk, h]
      · simp [hk]

/-- The keys keep their order; a new one is the last. -/
theorem keys_put (value : α) :
    (put table key value).map Prod.fst =
      if key ∈ table.map Prod.fst then table.map Prod.fst else table.map Prod.fst ++ [key] := by
  induction table with
  | nil => rfl
  | cons entry rest ih =>
    unfold put
    by_cases h : entry.1 = key
    · simp [h]
    · have h' : ¬key = entry.1 := fun hk => h hk.symm
      rw [if_neg h, List.map_cons, ih]
      by_cases hm : key ∈ rest.map Prod.fst <;> simp [hm, h']

/-- A value put in anew takes the place of the one put in before. -/
theorem put_put (first second : α) :
    put (put table key first) key second = put table key second := by
  induction table with
  | nil => simp [put]
  | cons entry rest ih =>
    by_cases h : entry.1 = key
    · simp [put, h]
    · simp [put, h, ih]

/-- A value that is erased makes no difference. -/
theorem erase_put (value : α) : erase (put table key value) key = erase table key := by
  unfold erase
  induction table with
  | nil => simp [put]
  | cons entry rest ih =>
    by_cases h : entry.1 = key
    · simp [put, h]
    · rw [put, if_neg h, List.filter_cons, List.filter_cons, ih]

/-- A new key goes to the end. -/
theorem put_of_not_mem (value : α) (h : key ∉ table.map Prod.fst) :
    put table key value = table ++ [(key, value)] := by
  induction table with
  | nil => rfl
  | cons entry rest ih =>
    rw [List.map_cons, List.mem_cons, not_or] at h
    rw [put, if_neg (Ne.symm h.1), ih h.2, List.cons_append]

theorem mem_put {value : α} {entry : κ × α} (h : entry ∈ put table key value) :
    entry = (key, value) ∨ entry ∈ table := by
  induction table with
  | nil => exact .inl (List.mem_singleton.1 h)
  | cons first rest ih =>
    unfold put at h
    split at h
    next same =>
      rw [same, List.mem_cons] at h
      exact h.imp_right (List.mem_cons_of_mem _)
    next =>
      rcases List.mem_cons.1 h with rfl | h
      · exact .inr List.mem_cons_self
      · exact (ih h).imp_right (List.mem_cons_of_mem _)

/-- Entries are kept or left out by their keys. -/
theorem get?_filter (keep : κ → Bool) :
    get? (table.filter fun entry => keep entry.1) key =
      if keep key then get? table key else none := by
  induction table with
  | nil => simp
  | cons entry rest ih =>
    rw [List.filter_cons, get?_cons]
    by_cases h : entry.1 = key
    · subst h
      by_cases hk : keep entry.1
      · rw [if_pos hk, get?_cons, if_pos rfl, if_pos hk, if_pos rfl]
      · rw [if_neg hk, ih, if_neg hk, if_neg hk]
    · by_cases hk : keep entry.1
      · rw [if_pos hk, get?_cons, if_neg h, if_neg h, ih]
      · rw [if_neg hk, if_neg h, ih]

/-- Putting in a value that is kept goes along with leaving out others. -/
theorem filter_put (keep : κ → Bool) (value : α) (h : keep key) :
    (put table key value).filter (fun entry => keep entry.1) =
      put (table.filter fun entry => keep entry.1) key value := by
  induction table with
  | nil => simp [put, h]
  | cons entry rest ih =>
    by_cases he : entry.1 = key
    · simp [put, he, h]
    · by_cases hk : keep entry.1
      · simp [put, he, hk, ih]
      · simp [put, he, hk, ih]

/-- A value that is left out is not missed. -/
theorem filter_put_of_not (keep : κ → Bool) (value : α) (h : ¬keep key) :
    (put table key value).filter (fun entry => keep entry.1) =
      table.filter fun entry => keep entry.1 := by
  induction table with
  | nil => simp [put, h]
  | cons entry rest ih =>
    by_cases he : entry.1 = key
    · simp [put, he, h]
    · rw [put, if_neg he, List.filter_cons, List.filter_cons, ih]

theorem filter_erase_of_not (keep : κ → Bool) (h : ¬keep key) :
    (erase table key).filter (fun entry => keep entry.1) =
      table.filter fun entry => keep entry.1 := by
  unfold erase
  rw [List.filter_filter]
  refine List.filter_congr fun entry _ => ?_
  by_cases he : entry.1 = key
  · simp [he, h]
  · simp [he]

variable {table key}

theorem mem_of_get? {value : α} (h : get? table key = some value) : (key, value) ∈ table := by
  induction table with
  | nil => cases h
  | cons entry rest ih =>
    rw [get?_cons] at h
    by_cases he : entry.1 = key
    · rw [if_pos he, Option.some.injEq] at h
      rw [← he, ← h]
      exact List.mem_cons_self
    · rw [if_neg he] at h
      exact List.mem_cons_of_mem _ (ih h)

theorem get?_of_not_mem (h : key ∉ table.map Prod.fst) : get? table key = none :=
  Option.eq_none_iff_forall_ne_some.2 fun _ there => h (List.mem_map_of_mem (mem_of_get? there))

/-- What is read back after a value was put in is that value, or was there before. -/
theorem of_get?_put {value other : α} {k : κ} (h : get? (put table key value) k = some other) :
    key = k ∧ value = other ∨ key ≠ k ∧ get? table k = some other := by
  rw [get?_put] at h
  by_cases hk : key = k
  · rw [if_pos hk] at h
    exact .inl ⟨hk, Option.some.inj h⟩
  · rw [if_neg hk] at h
    exact .inr ⟨hk, h⟩

theorem of_get?_erase {value : α} {k : κ} (h : get? (erase table key) k = some value) :
    key ≠ k ∧ get? table k = some value := by
  rw [get?_erase] at h
  by_cases hk : key = k
  · rw [if_pos hk] at h
    cases h
  · rw [if_neg hk] at h
    exact ⟨hk, h⟩

theorem of_get?_filter (keep : κ → Bool) {value : α}
    (h : get? (table.filter fun entry => keep entry.1) key = some value) :
    keep key ∧ get? table key = some value := by
  rw [get?_filter] at h
  by_cases hk : keep key
  · rw [if_pos hk] at h
    exact ⟨hk, h⟩
  · rw [if_neg hk] at h
    cases h

/-- Where the keys are distinct, every entry is read back. -/
theorem get?_of_mem {value : α} (hn : (table.map Prod.fst).Nodup) (h : (key, value) ∈ table) :
    get? table key = some value := by
  induction table with
  | nil => cases h
  | cons entry rest ih =>
    rw [List.map_cons, List.nodup_cons] at hn
    rw [get?_cons]
    rcases List.mem_cons.1 h with rfl | h
    · rw [if_pos rfl]
    · have hne : entry.1 ≠ key := fun he => hn.1 (he ▸ List.mem_map_of_mem h)
      rw [if_neg hne, ih hn.2 h]

theorem nodup_put {value : α} (hn : (table.map Prod.fst).Nodup) :
    ((put table key value).map Prod.fst).Nodup := by
  rw [keys_put]
  split
  · exact hn
  · rename_i h
    refine List.nodup_append.2 ⟨hn, by simp, fun a ha b hb he => ?_⟩
    rw [List.mem_singleton.1 hb] at he
    exact h (he ▸ ha)

omit [DecidableEq κ] in
theorem nodup_filter {keep : κ × α → Bool} (hn : (table.map Prod.fst).Nodup) :
    ((table.filter keep).map Prod.fst).Nodup :=
  hn.sublist (List.filter_sublist.map _)

/-- Entries with distinct keys are a table as they are. -/
theorem ofList_of_nodup {entries : List (κ × α)} (hn : (entries.map Prod.fst).Nodup) :
    ofList entries = entries := by
  have hfrom (xs ys : List (κ × α)) (hn : ((xs ++ ys).map Prod.fst).Nodup) :
      ys.foldl (fun table entry => put table entry.1 entry.2) xs = xs ++ ys := by
    induction ys generalizing xs with
    | nil => exact (List.append_nil xs).symm
    | cons entry rest ih =>
      have hnew : entry.1 ∉ xs.map Prod.fst := by
        rw [List.map_append, List.nodup_append] at hn
        exact fun hm => hn.2.2 _ hm _ (List.mem_map_of_mem List.mem_cons_self) rfl
      have he : xs ++ entry :: rest = (xs ++ [(entry.1, entry.2)]) ++ rest :=
        (List.append_assoc xs [entry] rest).symm
      rw [List.foldl_cons, put_of_not_mem _ _ _ hnew, he]
      exact ih _ (he ▸ hn)
  exact hfrom [] entries hn

/-- Where the keys are distinct, a value that is put in replaces the entry with its key, or comes
after all entries if there is none. -/
theorem put_eq (hn : (table.map Prod.fst).Nodup) (value : α) :
    put table key value =
      table.map (fun entry => (entry.1, if entry.1 = key then value else entry.2)) ++
        if key ∈ table.map Prod.fst then [] else [(key, value)] := by
  induction table with
  | nil => rfl
  | cons entry rest ih =>
    rw [List.map_cons, List.nodup_cons] at hn
    by_cases he : entry.1 = key
    · have others : rest.map (fun entry => (entry.1, if entry.1 = key then value else entry.2)) =
          rest := by
        refine List.map_congr_left (fun e hm => ?_) |>.trans (List.map_id rest)
        have hne : e.1 ≠ key := fun h => hn.1 (he.trans h.symm ▸ List.mem_map_of_mem hm)
        rw [if_neg hne, id]
      rw [put, if_pos he, List.map_cons, others, if_pos he, he, List.map_cons,
        if_pos (he ▸ List.mem_cons_self), List.append_nil]
    · have hmem : key ∈ (entry :: rest).map Prod.fst ↔ key ∈ rest.map Prod.fst := by
        rw [List.map_cons, List.mem_cons, or_iff_right (Ne.symm he)]
      rw [put, if_neg he, ih hn.2, List.map_cons, if_neg he, List.cons_append]
      simp only [hmem]

/-- **Entries put in one after the other** replace the values under their keys where these stand,
and those with new keys come after all others in their order. -/
theorem foldl_put {entries : Table κ α} (hn : (table.map Prod.fst).Nodup)
    (hd : (entries.map Prod.fst).Nodup) :
    entries.foldl (fun table entry => put table entry.1 entry.2) table =
      table.map (fun entry => (entry.1, (get? entries entry.1).getD entry.2)) ++
        entries.filter fun entry => entry.1 ∉ table.map Prod.fst := by
  induction entries generalizing table with
  | nil =>
    rw [List.foldl_nil, List.filter_nil, List.append_nil]
    exact (List.map_id table).symm
  | cons e rest ih =>
    rw [List.map_cons, List.nodup_cons] at hd
    have later : get? rest e.1 = none := get?_of_not_mem hd.1
    have left : rest.filter (fun entry => entry.1 ∉ (put table e.1 e.2).map Prod.fst) =
        rest.filter fun entry => entry.1 ∉ table.map Prod.fst := by
      refine List.filter_congr fun entry hm => ?_
      have hne : entry.1 ≠ e.1 := fun h => hd.1 (h ▸ List.mem_map_of_mem hm)
      rw [keys_put]
      split
      · rfl
      · simp [hne]
    rw [List.foldl_cons, ih (nodup_put hn) hd.2, left, put_eq hn, List.map_append, List.map_map,
      List.filter_cons, List.append_assoc]
    congr 1
    · refine List.map_congr_left fun entry _ => ?_
      rw [Function.comp, get?_cons]
      by_cases hk : entry.1 = e.1
      · simp [hk, later]
      · simp [hk, Ne.symm hk]
    · by_cases hm : e.1 ∈ table.map Prod.fst
      · simp [hm]
      · simp [hm, later]

/-- Of entries put in one after the other, the one with a key counts. -/
theorem get?_foldl_put {entries : Table κ α} (hd : (entries.map Prod.fst).Nodup) :
    get? (entries.foldl (fun table entry => put table entry.1 entry.2) table) key =
      (get? entries key).or (get? table key) := by
  induction entries generalizing table with
  | nil => rfl
  | cons e rest ih =>
    rw [List.map_cons, List.nodup_cons] at hd
    rw [List.foldl_cons, ih hd.2, get?_put, get?_cons]
    by_cases hk : e.1 = key
    · rw [if_pos hk, if_pos hk, ← hk, get?_of_not_mem hd.1]
      rfl
    · rw [if_neg hk, if_neg hk]

/-- Putting in what is there changes nothing. -/
theorem put_of_get? {value : α} (h : get? table key = some value) :
    put table key value = table := by
  induction table with
  | nil => cases h
  | cons entry rest ih =>
    rw [get?_cons] at h
    by_cases hk : entry.1 = key
    · rw [if_pos hk, Option.some.injEq] at h
      rw [put, if_pos hk, ← h]
    · rw [if_neg hk] at h
      rw [put, if_neg hk, ih h]

/-- Putting in entries that are there changes nothing. -/
theorem foldl_put_of_get? {entries : Table κ α}
    (h : ∀ entry ∈ entries, get? table entry.1 = some entry.2) :
    entries.foldl (fun table entry => put table entry.1 entry.2) table = table := by
  induction entries with
  | nil => rfl
  | cons e rest ih =>
    rw [List.forall_mem_cons] at h
    rw [List.foldl_cons, put_of_get? h.1, ih h.2]

theorem contains_iff : contains table key ↔ ∃ value, get? table key = some value :=
  Option.isSome_iff_exists

end Laws

end Table

end SymbolTrees
