import Mathlib.Data.List.Basic

/-!
# Lists that agree on a part

Two lists that agree on the entries that are looked at can be gone through together: at each step
either both have the same entry that is looked at, or one of them has one that is not.
-/

namespace SymbolTrees

variable {α : Type}

/-- The entries of `p` are the same in both lists, in the same order. -/
inductive Merged (p : α → Bool) : List α → List α → Prop where
  | nil : Merged p [] []
  | left {a : α} {xs ys : List α} (skipped : p a = false) (rest : Merged p xs ys) :
    Merged p (a :: xs) ys
  | right {a : α} {xs ys : List α} (skipped : p a = false) (rest : Merged p xs ys) :
    Merged p xs (a :: ys)
  | both {a : α} {xs ys : List α} (kept : p a = true) (rest : Merged p xs ys) :
    Merged p (a :: xs) (a :: ys)

variable {p : α → Bool}

theorem merged_of_filter_eq {xs ys : List α} (h : xs.filter p = ys.filter p) : Merged p xs ys := by
  induction xs generalizing ys with
  | nil =>
    induction ys with
    | nil => exact .nil
    | cons b ys ih =>
      rw [List.filter_nil, List.filter_cons] at h
      split at h
      · cases h
      · rename_i hb
        exact .right (by simpa using hb) (ih h)
  | cons a xs ih =>
    by_cases ha : p a
    · induction ys with
      | nil =>
        rw [List.filter_cons_of_pos ha] at h
        cases h
      | cons b ys ihy =>
        by_cases hb : p b
        · rw [List.filter_cons_of_pos ha, List.filter_cons_of_pos hb] at h
          obtain ⟨rfl, hrest⟩ := List.cons.inj h
          exact .both ha (ih hrest)
        · rw [List.filter_cons_of_neg (l := ys) hb] at h
          exact .right (by simpa using hb) (ihy h)
    · rw [List.filter_cons_of_neg ha] at h
      exact .left (by simpa using ha) (ih h)

end SymbolTrees
