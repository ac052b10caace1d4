import Mathlib.Data.List.Infix
import SymbolTrees.CommandLine.Folder
import SymbolTrees.Table

/-!
# Files in folders

What is found in a folder once a file was put at a spot of it: that file at its spot, directories on
the way to it, and everywhere else the files that were there. Where a file is in the way, no spot
behind it admits another.
-/

namespace SymbolTrees.CommandLine.Folder

variable {folder : Folder} {spot : Spot} {names front rest : List Text} {bytes : List Nat}

/-! ### What is found -/

/-- What a spot is told from others by. -/
def key (folder : Folder) (spot : Spot) : List (List Nat) :=
  (folder.here.names ++ spot.names).map bytesOf

theorem fromRoot_put : (folder.put spot bytes).fromRoot =
    Table.put (Table.erase folder.fromRoot (folder.key spot)) (folder.key spot) bytes := by
  have hgone : folder.key spot ∉ (Table.erase folder.fromRoot (folder.key spot)).map Prod.fst := by
    simp [Table.erase]
  refine Eq.trans ?_ (Table.put_of_not_mem _ _ bytes hgone).symm
  rw [fromRoot, put, List.map_append, fromRoot, Table.erase, List.filter_map]
  refine congrArg₂ _ (congrArg _ (List.filter_congr fun file _ => ?_)) rfl
  simp [key]

/-- What is found under some names is the first file that is there. -/
theorem bytes?_entry (folder : Folder) (names : List Text) :
    (folder.entry names).bytes? = Table.get? folder.fromRoot (names.map bytesOf) := by
  unfold entry Table.get?
  dsimp only
  cases folder.fromRoot.find? (·.1 = names.map bytesOf) with
  | some file => rfl
  | none =>
    dsimp only
    split <;> rfl

theorem entry_of_bytes? (h : (folder.entry names).bytes? = some bytes) :
    folder.entry names = .file bytes := by
  cases he : folder.entry names with
  | file other =>
    rw [he] at h
    rw [Option.some.inj h]
  | _ =>
    rw [he] at h
    cases h

/-- Where there is no file there is a directory if files are below. -/
theorem entry_of_below (h : (folder.entry names).bytes? = none) {file : List (List Nat) × List Nat}
    (hm : file ∈ folder.fromRoot) (hbelow : names.map bytesOf <+: file.1) :
    folder.entry names = .directory := by
  rw [bytes?_entry, Table.get?, Option.map_eq_none_iff] at h
  have hany : (folder.fromRoot.any fun file => (names.map bytesOf).isPrefixOf file.1) = true :=
    List.any_eq_true.2 ⟨file, hm, List.isPrefixOf_iff_prefix.2 hbelow⟩
  unfold entry
  dsimp only
  rw [h, hany, Bool.or_true]
  rfl

/-- The file that was put is found, and all others are those that were there. -/
theorem bytes?_entry_put (names : List Text) : ((folder.put spot bytes).entry names).bytes? =
    if names.map bytesOf = folder.key spot then some bytes else (folder.entry names).bytes? := by
  rw [bytes?_entry, bytes?_entry, fromRoot_put, Table.get?_put, Table.get?_erase]
  by_cases h : names.map bytesOf = folder.key spot
  · rw [if_pos h.symm, if_pos h]
  · rw [if_neg (Ne.symm h), if_neg h, if_neg (Ne.symm h)]

theorem entry_put_self (h : names = folder.here.names ++ spot.names) :
    (folder.put spot bytes).entry names = .file bytes := by
  apply entry_of_bytes?
  rw [bytes?_entry_put, h]
  exact if_pos rfl

/-- There are directories on the way to the file that was put. -/
theorem entry_put_of_way {name : Text} (h : names ++ name :: rest = folder.here.names ++ spot.names)
    (hfile : (folder.entry names).bytes? = none) :
    (folder.put spot bytes).entry names = .directory := by
  have hkey : folder.key spot = names.map bytesOf ++ (name :: rest).map bytesOf := by
    rw [key, ← h, List.map_append]
  have hput : (folder.key spot, bytes) ∈ (folder.put spot bytes).fromRoot := by
    rw [fromRoot_put]
    exact Table.mem_of_get? ((Table.get?_put ..).trans (if_pos rfl))
  refine entry_of_below ?_ hput ⟨_, hkey.symm⟩
  rw [bytes?_entry_put, if_neg (by simp [hkey]), hfile]

/-- To put the same file once more makes no difference. -/
theorem put_put : (folder.put spot bytes).put spot bytes = folder.put spot bytes := by
  simp [put]

/-! ### Ways -/

theorem of_admits_cons {name : Text} (h : folder.admits names (name :: rest)) :
    (folder.entry names).bytes? = none ∧ (bytesOf name).length ≤ maxNameBytes ∧
      folder.admits (Path.walk names name) rest := by
  rw [admits] at h
  cases he : folder.entry names with
  | directory | nothing =>
    rw [he] at h
    obtain ⟨hshort, hrest⟩ := Bool.and_eq_true_iff.1 h
    exact ⟨rfl, of_decide_eq_true hshort, hrest⟩
  | file bytes | tooLong =>
    rw [he] at h
    cases h

/-- Where a file can be put it is found then, and can be put again. -/
theorem follow_put (bytes : List Nat) (hsplit : names ++ rest = folder.here.names ++ spot.names)
    (hfit : ∀ name ∈ rest, name ≠ Path.up) (h : folder.admits names rest) :
    (folder.put spot bytes).follow names rest = .file bytes ∧
      (folder.put spot bytes).admits names rest := by
  induction rest generalizing names with
  | nil =>
    have hself : (folder.put spot bytes).entry names = .file bytes :=
      entry_put_self (by rw [← hsplit, List.append_nil])
    refine ⟨hself, ?_⟩
    rw [admits, hself]
    rfl
  | cons name rest ih =>
    obtain ⟨hfile, hshort, hrest⟩ := of_admits_cons h
    have hdirectory : (folder.put spot bytes).entry names = .directory :=
      entry_put_of_way hsplit hfile
    have hstep : Path.walk names name = names ++ [name] := if_neg (hfit name List.mem_cons_self)
    obtain ⟨hfollow, hadmits⟩ := ih
      (by rw [hstep, List.append_assoc, List.singleton_append, hsplit])
      (fun other hm => hfit other (List.mem_cons_of_mem _ hm)) hrest
    constructor
    · rw [follow, hdirectory]
      exact (if_neg (Nat.not_lt.2 hshort)).trans hfollow
    · rw [admits, hdirectory]
      exact Bool.and_eq_true_iff.2 ⟨decide_eq_true hshort, hadmits⟩

/-- Behind a file there is no room for another. -/
theorem not_admits_of_follow (hfile : folder.follow names front = .file bytes) (hrest : rest ≠ []) :
    ¬folder.admits names (front ++ rest) := by
  induction front generalizing names with
  | nil =>
    obtain ⟨name, rest, rfl⟩ := List.exists_cons_of_ne_nil hrest
    intro h
    obtain ⟨hnone, -⟩ := of_admits_cons h
    rw [show folder.entry names = .file bytes from hfile] at hnone
    cases hnone
  | cons name front ih =>
    rw [follow] at hfile
    split at hfile
    · split at hfile
      · cases hfile
      · exact fun h => ih hfile (of_admits_cons h).2.2
    · cases hfile

theorem read_put (bytes : List Nat) (h : folder.admits folder.here.names spot.names) :
    (folder.put spot bytes).read spot = some bytes ∧
      (folder.put spot bytes).admits folder.here.names spot.names := by
  obtain ⟨hfollow, hadmits⟩ := follow_put bytes rfl (fun name hm => (spot.fit name hm).1) h
  exact ⟨congrArg Found.bytes? hfollow, hadmits⟩

end SymbolTrees.CommandLine.Folder
