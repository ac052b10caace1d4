/-!
Splitting a text, or any other list, at one of its entries.
-/

namespace SymbolTrees.Text

variable {α : Type} [DecidableEq α]

/-- The pieces of a list between the occurrences of an entry: one more than there are. -/
def pieces (sep : α) : List α → List (List α)
  | [] => [[]]
  | c :: rest =>
    if c = sep then [] :: pieces sep rest
    else match pieces sep rest with
      | [] => [[c]]
      | piece :: more => (c :: piece) :: more

/-- The pieces with an entry between them. -/
def join (sep : α) : List (List α) → List α
  | [] => []
  | [piece] => piece
  | piece :: more => piece ++ sep :: join sep more

/-- What stands before and after the first occurrence of an entry; without one nothing stands after
it. -/
def cut (sep : α) (s : List α) : List α × List α :=
  (s.takeWhile (· != sep), (s.dropWhile (· != sep)).drop 1)

theorem pieces_ne_nil (sep : α) (s : List α) : pieces sep s ≠ [] := by
  cases s with
  | nil => simp [pieces]
  | cons c rest =>
    unfold pieces
    split
    · simp
    · split <;> simp

omit [DecidableEq α] in
theorem join_cons_cons (sep : α) (c : α) (piece : List α) (more : List (List α)) :
    join sep ((c :: piece) :: more) = c :: join sep (piece :: more) := by
  cases more <;> rfl

/-- Splitting loses nothing. -/
theorem join_pieces (sep : α) (s : List α) : join sep (pieces sep s) = s := by
  induction s with
  | nil => rfl
  | cons c rest ih =>
    obtain ⟨piece, more, h⟩ := List.exists_cons_of_ne_nil (pieces_ne_nil sep rest)
    unfold pieces
    rw [h] at ih
    by_cases hc : c = sep
    · rw [if_pos hc, h, hc]
      simp [join, ih]
    · rw [if_neg hc, h]
      rw [join_cons_cons, ih]

/-- No piece holds the entry at which the list was split. -/
theorem not_mem_of_mem_pieces (sep : α) (s : List α) :
    ∀ piece ∈ pieces sep s, sep ∉ piece := by
  induction s with
  | nil => simp [pieces]
  | cons c rest ih =>
    obtain ⟨piece, more, h⟩ := List.exists_cons_of_ne_nil (pieces_ne_nil sep rest)
    unfold pieces
    rw [h] at ih ⊢
    by_cases hc : c = sep
    · simpa [hc] using ih
    · rw [if_neg hc]
      simp only [List.mem_cons, forall_eq_or_imp] at ih ⊢
      exact ⟨fun hm => hm.elim (fun e => hc e.symm) ih.1, ih.2⟩

variable {sep : α}

/-- What is on either side of the entry is split by itself. -/
theorem pieces_append_cons (a b : List α) :
    pieces sep (a ++ sep :: b) = pieces sep a ++ pieces sep b := by
  induction a with
  | nil => simp [pieces]
  | cons c a ih =>
    obtain ⟨piece, more, h⟩ := List.exists_cons_of_ne_nil (pieces_ne_nil sep a)
    rw [h] at ih
    by_cases hc : c = sep
    · simp [pieces, hc, ih, h]
    · simp [pieces, hc, ih, h]

/-- Lists that were joined are split each by itself. -/
theorem pieces_join {rows : List (List α)} (h : rows ≠ []) :
    pieces sep (join sep rows) = rows.flatMap (pieces sep) := by
  induction rows with
  | nil => exact absurd rfl h
  | cons row rest ih =>
    cases rest with
    | nil => simp [join]
    | cons next rest =>
      have hjoin : join sep (row :: next :: rest) = row ++ sep :: join sep (next :: rest) := rfl
      rw [hjoin, pieces_append_cons, ih (List.cons_ne_nil next rest), List.flatMap_cons (x := row)]

theorem length_pieces (s : List α) : (pieces sep s).length = s.count sep + 1 := by
  induction s with
  | nil => rfl
  | cons c s ih =>
    obtain ⟨piece, more, h⟩ := List.exists_cons_of_ne_nil (pieces_ne_nil sep s)
    rw [h] at ih
    by_cases hc : c = sep
    · simp [pieces, hc, h, ← ih]
    · simp [pieces, hc, h, ← ih]

theorem pieces_of_notMem {s : List α} (h : sep ∉ s) : pieces sep s = [s] := by
  induction s with
  | nil => rfl
  | cons c s ih =>
    rw [List.mem_cons, not_or] at h
    rw [pieces, if_neg (Ne.symm h.1), ih h.2]

/-- What stands in a piece stands in the list. -/
theorem mem_of_mem_pieces {s piece : List α} {c : α} (h : piece ∈ pieces sep s) (hc : c ∈ piece) :
    c ∈ s := by
  induction s generalizing piece with
  | nil => rwa [List.mem_singleton.1 h] at hc
  | cons d s ih =>
    obtain ⟨first, more, hp⟩ := List.exists_cons_of_ne_nil (pieces_ne_nil sep s)
    unfold pieces at h
    rw [hp] at h ih
    split at h
    · rcases List.mem_cons.1 h with rfl | h
      · cases hc
      · exact List.mem_cons_of_mem _ (ih h hc)
    · rcases List.mem_cons.1 h with rfl | h
      · rcases List.mem_cons.1 hc with rfl | hc
        · exact List.mem_cons_self
        · exact List.mem_cons_of_mem _ (ih List.mem_cons_self hc)
      · exact List.mem_cons_of_mem _ (ih (List.mem_cons_of_mem _ h) hc)

omit [DecidableEq α] in
theorem mem_join {rows : List (List α)} {c : α} (h : c ∈ join sep rows) :
    c = sep ∨ ∃ row ∈ rows, c ∈ row := by
  induction rows with
  | nil => cases h
  | cons row rest ih =>
    cases rest with
    | nil => exact .inr ⟨row, List.mem_cons_self, h⟩
    | cons next rest =>
      rcases List.mem_append.1 h with h | h
      · exact .inr ⟨row, List.mem_cons_self, h⟩
      · rcases List.mem_cons.1 h with rfl | h
        · exact .inl rfl
        · obtain rfl | ⟨row, hr, hc⟩ := ih h
          · exact .inl rfl
          · exact .inr ⟨row, List.mem_cons_of_mem _ hr, hc⟩

/-- Lists without the entry are read back from between its occurrences. -/
theorem pieces_join_of_notMem {rows : List (List α)} (h : rows ≠ [])
    (apart : ∀ row ∈ rows, sep ∉ row) : pieces sep (join sep rows) = rows := by
  rw [pieces_join h]
  clear h
  induction rows with
  | nil => rfl
  | cons row rest ih =>
    rw [List.forall_mem_cons] at apart
    rw [List.flatMap_cons, pieces_of_notMem apart.1, ih apart.2, List.singleton_append]

/-! ### What stands before and after -/

theorem cut_append_cons {a : List α} (b : List α) (h : sep ∉ a) :
    cut sep (a ++ sep :: b) = (a, b) := by
  have before : ∀ c ∈ a, (c != sep) = true := fun c hc => bne_iff_ne.2 fun e => h (e ▸ hc)
  rw [cut, List.takeWhile_append_of_pos before, List.dropWhile_append_of_pos before,
    List.takeWhile_cons_of_neg (by simp), List.dropWhile_cons_of_neg (by simp), List.append_nil]
  rfl

theorem cut_of_notMem {s : List α} (h : sep ∉ s) : cut sep s = (s, []) := by
  have before : ∀ c ∈ s, (c != sep) = true := fun c hc => bne_iff_ne.2 fun e => h (e ▸ hc)
  rw [← List.append_nil s, cut, List.takeWhile_append_of_pos before,
    List.dropWhile_append_of_pos before]
  rfl

end SymbolTrees.Text
