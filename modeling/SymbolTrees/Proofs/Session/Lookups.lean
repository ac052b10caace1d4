import SymbolTrees.Proofs.Registry
import SymbolTrees.Session.Basic

/-!
# Lookups

The table of lookups and the lists of lookups that the requests keep mirror each other: a lookup is
on the list of a request if and only if the table has it for that request, it is for one of the
calls of the request, and no two lookups are for one call.
-/

namespace SymbolTrees

variable {pending : Table Token Inquiry} {lookups : Table Token (Token × Nat)} {next : Token}

structure Looking (pending : Table Token Inquiry) (lookups : Table Token (Token × Nat))
    (next : Token) : Prop where
  distinct : (lookups.map Prod.fst).Nodup
  found : ∀ t inquiry, pending.get? t = some inquiry → inquiry.found.length = inquiry.calls.length
  listed : ∀ parent inquiry, pending.get? parent = some inquiry → ∀ l ∈ inquiry.lookups,
    ∃ index, lookups.get? l = some (parent, index)
  known : ∀ l parent index, lookups.get? l = some (parent, index) →
    l < next ∧ pending.get? l = none ∧
      ∃ inquiry, pending.get? parent = some inquiry ∧ l ∈ inquiry.lookups ∧
        index < inquiry.calls.length
  once : ∀ l k target, lookups.get? l = some target → lookups.get? k = some target → l = k

/-- When the symbol of the next call is looked up, only those up to it are. -/
theorem index_lt_succ_of_put {parent token : Token} {index : Nat}
    (hu : ∀ l i, lookups.get? l = some (parent, i) → i < index) (l : Token) (i : Nat)
    (hl : (lookups.put token (parent, index)).get? l = some (parent, i)) : i < index + 1 := by
  rcases Table.of_get?_put hl with ⟨-, he⟩ | ⟨-, hl⟩
  · exact Nat.lt_succ_of_le (Nat.le_of_eq (congrArg Prod.snd he).symm)
  · exact Nat.lt_succ_of_lt (hu l i hl)

namespace Looking

theorem empty : Looking [] [] next :=
  ⟨List.nodup_nil, fun _ _ h => (by cases h), fun _ _ h => (by cases h),
    fun _ _ _ h => (by cases h), fun _ _ _ h => by cases h⟩

variable (h : Looking pending lookups next)
include h

theorem mono {later : Token} (hle : next ≤ later) : Looking pending lookups later := by
  refine ⟨h.distinct, h.found, h.listed, ?_, h.once⟩
  intro l parent index hl
  obtain ⟨hlt, hk⟩ := h.known l parent index hl
  exact ⟨Int.lt_of_lt_of_le hlt hle, hk⟩

theorem get?_next : lookups.get? next = none := by
  cases hl : lookups.get? next with
  | none => rfl
  | some target => exact absurd (h.known next target.1 target.2 hl).1 (Int.lt_irrefl _)

/-- A request whose calls are not known has nothing looked up. -/
theorem lookups_eq_nil {t : Token} {inquiry : Inquiry} (hi : pending.get? t = some inquiry)
    (hc : inquiry.calls = []) : inquiry.lookups = [] := by
  rw [List.eq_nil_iff_forall_not_mem]
  intro l hl
  obtain ⟨index, hl⟩ := h.listed t inquiry hi l hl
  obtain ⟨-, -, other, ho, -, hlt⟩ := h.known l t index hl
  obtain rfl := Option.some.inj (hi.symm.trans ho)
  rw [hc] at hlt
  exact absurd hlt (Nat.not_lt_zero _)

/-- A request is entered. -/
theorem enter {t : Token} {inquiry : Inquiry} (hfresh : pending.get? t = none)
    (hnone : lookups.get? t = none) (hlookups : inquiry.lookups = [])
    (hfound : inquiry.found.length = inquiry.calls.length) :
    Looking (pending.put t inquiry) lookups next := by
  refine ⟨h.distinct, ?_, ?_, ?_, h.once⟩
  · intro k other hi
    rcases Table.of_get?_put hi with ⟨-, rfl⟩ | ⟨-, hi⟩
    · exact hfound
    · exact h.found k other hi
  · intro parent other hi l hl
    rcases Table.of_get?_put hi with ⟨-, rfl⟩ | ⟨-, hi⟩
    · rw [hlookups] at hl
      cases hl
    · exact h.listed parent other hi l hl
  · intro l parent index hl
    obtain ⟨hlt, hl', other, ho, hm, hx⟩ := h.known l parent index hl
    have hne : t ≠ l := by
      rintro rfl
      rw [hnone] at hl
      cases hl
    have hnp : t ≠ parent := by
      rintro rfl
      rw [hfresh] at ho
      cases ho
    rw [Table.get?_put, Table.get?_put, if_neg hne, if_neg hnp]
    exact ⟨hlt, hl', other, ho, hm, hx⟩

/-- A request is changed, but not what is looked up for it. -/
theorem put {t : Token} {old new : Inquiry} (hold : pending.get? t = some old)
    (hlookups : new.lookups = old.lookups) (hcalls : old.calls.length ≤ new.calls.length)
    (hfound : new.found.length = new.calls.length) : Looking (pending.put t new) lookups next := by
  refine ⟨h.distinct, ?_, ?_, ?_, h.once⟩
  · intro k inquiry hi
    rcases Table.of_get?_put hi with ⟨-, rfl⟩ | ⟨-, hi⟩
    · exact hfound
    · exact h.found k inquiry hi
  · intro parent inquiry hi l hl
    rcases Table.of_get?_put hi with ⟨rfl, rfl⟩ | ⟨-, hi⟩
    · exact h.listed t old hold l (hlookups ▸ hl)
    · exact h.listed parent inquiry hi l hl
  · intro l parent index hl
    obtain ⟨hlt, hnone, inquiry, hi, hm, hx⟩ := h.known l parent index hl
    have hne : t ≠ l := by
      rintro rfl
      rw [hnone] at hold
      cases hold
    rw [Table.get?_put, Table.get?_put, if_neg hne]
    refine ⟨hlt, hnone, ?_⟩
    by_cases he : t = parent
    · subst he
      obtain rfl := Option.some.inj (hold.symm.trans hi)
      rw [if_pos rfl]
      exact ⟨new, rfl, hlookups ▸ hm, Nat.lt_of_lt_of_le hx hcalls⟩
    · rw [if_neg he]
      exact ⟨inquiry, hi, hm, hx⟩

/-- A request is removed with all that is looked up for it. -/
theorem drop {inquiry : Inquiry} {t : Token} (hi : pending.get? t = some inquiry) :
    Looking (pending.erase t)
      (lookups.filter fun entry => !inquiry.lookups.contains entry.1) next := by
  have hfilter (l : Token) :
      Table.get? (lookups.filter fun entry => !inquiry.lookups.contains entry.1) l =
        if l ∈ inquiry.lookups then none else lookups.get? l := by
    rw [Table.get?_filter lookups l fun k => !inquiry.lookups.contains k]
    by_cases hl : l ∈ inquiry.lookups <;> simp [hl]
  refine ⟨Table.nodup_filter h.distinct,
    fun k other ho => h.found k other (Table.of_get?_erase ho).2, ?_, ?_, ?_⟩
  · intro parent other ho l hl
    obtain ⟨hne, ho⟩ := Table.of_get?_erase ho
    obtain ⟨index, hx⟩ := h.listed parent other ho l hl
    refine ⟨index, ?_⟩
    rw [hfilter, if_neg, hx]
    intro hm
    obtain ⟨i, hi'⟩ := h.listed t inquiry hi l hm
    rw [hx] at hi'
    exact hne (congrArg (fun target => (Option.getD target (0, 0)).1) hi').symm
  · intro l parent index hl
    rw [hfilter] at hl
    split at hl
    · cases hl
    · rename_i hm
      obtain ⟨hlt, hnone, other, ho, hl', hx⟩ := h.known l parent index hl
      have hne : t ≠ parent := by
        rintro rfl
        obtain rfl := Option.some.inj (hi.symm.trans ho)
        exact hm hl'
      rw [Table.get?_erase, Table.get?_erase, if_neg hne, hnone]
      exact ⟨hlt, by split <;> rfl, other, ho, hl', hx⟩
  · intro l k target hl hk
    rw [hfilter] at hl hk
    split at hl
    · cases hl
    · split at hk
      · cases hk
      · exact h.once l k target hl hk

/-- A call that is not looked up yet is looked up. -/
theorem look {parent : Token} {inquiry : Inquiry} {index : Nat}
    (hi : pending.get? parent = some inquiry) (hx : index < inquiry.calls.length)
    (hlt : parent < next) (hfresh : pending.get? next = none)
    (hnew : ∀ l, lookups.get? l ≠ some (parent, index)) :
    Looking (pending.put parent { inquiry with lookups := inquiry.lookups ++ [next] })
      (lookups.put next (parent, index)) (next + 1) := by
  have hnone := h.get?_next
  have hne : parent ≠ next := Int.ne_of_lt hlt
  refine ⟨Table.nodup_put h.distinct, ?_, ?_, ?_, ?_⟩
  · intro k other ho
    rcases Table.of_get?_put ho with ⟨-, rfl⟩ | ⟨-, ho⟩
    · exact h.found parent inquiry hi
    · exact h.found k other ho
  · intro p other ho l hl
    have hl' : l = next ∧ p = parent ∨ ∃ i, lookups.get? l = some (p, i) := by
      rcases Table.of_get?_put ho with ⟨rfl, rfl⟩ | ⟨-, ho⟩
      · rcases List.mem_append.1 hl with hl | hl
        · exact .inr (h.listed parent inquiry hi l hl)
        · exact .inl ⟨List.mem_singleton.1 hl, rfl⟩
      · exact .inr (h.listed p other ho l hl)
    rcases hl' with ⟨rfl, rfl⟩ | ⟨i, hl'⟩
    · exact ⟨index, Table.get?_put_self ..⟩
    · have hln : next ≠ l := by
        rintro rfl
        rw [hnone] at hl'
        cases hl'
      exact ⟨i, by rw [Table.get?_put, if_neg hln, hl']⟩
  · intro l p i hl
    rcases Table.of_get?_put hl with ⟨rfl, he⟩ | ⟨-, hl⟩
    · obtain ⟨rfl, rfl⟩ := Prod.mk.inj he
      rw [Table.get?_put, if_neg hne, Table.get?_put_self]
      exact ⟨Int.lt_succ _, hfresh, _, rfl, by simp, hx⟩
    · obtain ⟨hlt', hl', other, ho, hm, hx'⟩ := h.known l p i hl
      have hpl : parent ≠ l := by
        rintro rfl
        rw [hl'] at hi
        cases hi
      rw [Table.get?_put, Table.get?_put, if_neg hpl]
      refine ⟨Int.lt_trans hlt' (Int.lt_succ _), hl', ?_⟩
      by_cases hp : parent = p
      · subst hp
        obtain rfl := Option.some.inj (hi.symm.trans ho)
        rw [if_pos rfl]
        exact ⟨_, rfl, List.mem_append_left _ hm, hx'⟩
      · rw [if_neg hp]
        exact ⟨other, ho, hm, hx'⟩
  · intro l k target hl hk
    rcases Table.of_get?_put hl with ⟨rfl, rfl⟩ | ⟨-, hl⟩
    · rcases Table.of_get?_put hk with ⟨rfl, -⟩ | ⟨-, hk⟩
      · rfl
      · exact absurd hk (hnew k)
    · rcases Table.of_get?_put hk with ⟨rfl, rfl⟩ | ⟨-, hk⟩
      · exact absurd hl (hnew l)
      · exact h.once l k target hl hk

/-- A lookup is over. -/
theorem find {l parent : Token} {inquiry : Inquiry} {index : Nat}
    {found : List (Option LocatedSymbol)} (hl : lookups.get? l = some (parent, index))
    (hi : pending.get? parent = some inquiry) (hf : found.length = inquiry.found.length) :
    Looking (pending.put parent
        { inquiry with lookups := inquiry.lookups.filter (· ≠ l), found := found })
      (lookups.erase l) next := by
  refine ⟨Table.nodup_filter h.distinct, ?_, ?_, ?_,
    fun k j target hk hj => h.once k j target (Table.of_get?_erase hk).2 (Table.of_get?_erase hj).2⟩
  · intro k other ho
    rcases Table.of_get?_put ho with ⟨-, rfl⟩ | ⟨-, ho⟩
    · exact hf.trans (h.found parent inquiry hi)
    · exact h.found k other ho
  · intro p other ho k hk
    have hkl : l ≠ k ∧ ∃ i, lookups.get? k = some (p, i) := by
      rcases Table.of_get?_put ho with ⟨rfl, rfl⟩ | ⟨he, ho⟩
      · obtain ⟨hk, hne⟩ := List.mem_filter.1 hk
        exact ⟨Ne.symm (of_decide_eq_true hne), h.listed parent inquiry hi k hk⟩
      · obtain ⟨i, hx⟩ := h.listed p other ho k hk
        refine ⟨?_, i, hx⟩
        rintro rfl
        rw [hl] at hx
        exact he (congrArg Prod.fst (Option.some.inj hx))
    obtain ⟨hne, i, hx⟩ := hkl
    exact ⟨i, by rw [Table.get?_erase, if_neg hne, hx]⟩
  · intro k p i hk
    obtain ⟨hne, hk⟩ := Table.of_get?_erase hk
    obtain ⟨hlt, hk', other, ho, hm, hx⟩ := h.known k p i hk
    have hpk : parent ≠ k := by
      rintro rfl
      rw [hk'] at hi
      cases hi
    rw [Table.get?_put, Table.get?_put, if_neg hpk]
    refine ⟨hlt, hk', ?_⟩
    by_cases hp : parent = p
    · subst hp
      obtain rfl := Option.some.inj (hi.symm.trans ho)
      rw [if_pos rfl]
      exact ⟨_, rfl, List.mem_filter.2 ⟨hm, decide_eq_true (Ne.symm hne)⟩, hx⟩
    · rw [if_neg hp]
      exact ⟨other, ho, hm, hx⟩

end Looking

end SymbolTrees
