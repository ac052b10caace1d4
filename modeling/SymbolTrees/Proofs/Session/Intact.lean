import SymbolTrees.Proofs.Session.Fulfil
import SymbolTrees.Proofs.Session.Sending

/-!
# Trees that are left alone

Whatever is asked of one tree, or to open another, leaves every other open tree exactly as it is:
its nodes and its maps, its buffer, and the requests for its nodes with all that is looked up for
them. That holds also where an operation stops half-way.
-/

namespace SymbolTrees

/-- The request is for the nodes below a node of the tree. -/
def Inquiry.IsFor (inquiry : Inquiry) (id : TreeId) : Prop :=
  ∃ ref generation direction, inquiry.purpose = .expand id ref generation direction

namespace Session

variable {s t u : Session} {id target : TreeId} {ref : NodeRef} {inquiry : Inquiry} {α β : Type}

/-- The tree `id` is what it was, with its buffer, with the requests for its nodes and with what is
looked up for these. -/
structure Intact (id : TreeId) (s t : Session) : Prop where
  tree : t.tree id = s.tree id
  isOpen : t.isOpen id = s.isOpen id
  buffer : t.buffers.get? (s.tree id).handle = s.buffers.get? (s.tree id).handle
  pending : ∀ k (inquiry : Inquiry), inquiry.IsFor id →
    (t.pending.get? k = some inquiry ↔ s.pending.get? k = some inquiry)
  lookups : ∀ k inquiry, s.pending.get? k = some inquiry → inquiry.IsFor id → ∀ l index,
    (t.lookups.get? l = some (k, index) ↔ s.lookups.get? l = some (k, index))

/-- No request for the tree has the number. -/
def Foreign (id : TreeId) (pending : Table Token Inquiry) (k : Token) : Prop :=
  ∀ inquiry, pending.get? k = some inquiry → ¬inquiry.IsFor id

namespace Intact

theorem refl (id : TreeId) (s : Session) : Intact id s s :=
  ⟨rfl, rfl, rfl, fun _ _ _ => .rfl, fun _ _ _ _ _ _ => .rfl⟩

theorem trans (h : Intact id s t) (h' : Intact id t u) : Intact id s u where
  tree := h'.tree.trans h.tree
  isOpen := h'.isOpen.trans h.isOpen
  buffer := by
    have hb := h'.buffer
    rw [h.tree] at hb
    exact hb.trans h.buffer
  pending k inquiry hf := (h'.pending k inquiry hf).trans (h.pending k inquiry hf)
  lookups k inquiry hi hf l index :=
    (h'.lookups k inquiry ((h.pending k inquiry hf).2 hi) hf l index).trans
      (h.lookups k inquiry hi hf l index)

/-- Only trees and buffers change, and not those of the tree. -/
theorem of_trees (htree : t.tree id = s.tree id) (hopen : t.isOpen id = s.isOpen id)
    (hb : t.buffers.get? (s.tree id).handle = s.buffers.get? (s.tree id).handle)
    (hp : t.pending = s.pending) (hl : t.lookups = s.lookups) : Intact id s t :=
  ⟨htree, hopen, hb, fun _ _ _ => by rw [hp], fun _ _ _ _ _ _ => by rw [hl]⟩

/-- Neither trees nor requests change. -/
theorem of_same (hr : t.registry = s.registry) (hb : t.buffers = s.buffers)
    (hp : t.pending = s.pending) (hl : t.lookups = s.lookups) : Intact id s t :=
  .of_trees (congrArg (Registry.tree · id) hr) (congrArg (Registry.isOpen · id) hr) (by rw [hb])
    hp hl

/-- Only requests change, and only such as are for other trees. -/
theorem of_requests (hr : t.registry = s.registry) (hb : t.buffers = s.buffers)
    (hp : ∀ k, t.pending.get? k = s.pending.get? k ∨
      Foreign id s.pending k ∧ Foreign id t.pending k)
    (hl : ∀ l, t.lookups.get? l = s.lookups.get? l ∨
      ∀ k index, t.lookups.get? l = some (k, index) ∨ s.lookups.get? l = some (k, index) →
        Foreign id s.pending k) : Intact id s t where
  tree := congrArg (Registry.tree · id) hr
  isOpen := congrArg (Registry.isOpen · id) hr
  buffer := by rw [hb]
  pending k inquiry hf := by
    rcases hp k with hsame | ⟨hs, ht⟩
    · rw [hsame]
    · exact ⟨fun hi => absurd hf (ht inquiry hi), fun hi => absurd hf (hs inquiry hi)⟩
  lookups k inquiry hi hf l index := by
    rcases hl l with hsame | hforeign
    · rw [hsame]
    · exact ⟨fun hx => absurd hf (hforeign k index (.inl hx) inquiry hi),
        fun hx => absurd hf (hforeign k index (.inr hx) inquiry hi)⟩

/-- Another tree changes. -/
theorem of_update (hne : id ≠ target) {f : Tree → Tree}
    (hr : t.registry = s.registry.update target f)
    (hb : t.buffers.get? (s.tree id).handle = s.buffers.get? (s.tree id).handle)
    (hp : t.pending = s.pending) (hl : t.lookups = s.lookups) : Intact id s t := by
  have htree : t.tree id = s.tree id := by
    rw [Session.tree, hr]
    exact Registry.tree_update_of_ne hne
  refine .of_trees htree ?_ hb hp hl
  refine Registry.isOpen_congr (by rw [hr]; rfl) ?_ ?_
  · exact congrArg Tree.handle htree
  · exact congrArg Tree.closed htree

end Intact

/-! ### Changes of other trees -/

/-- Another tree is drawn. -/
theorem intact_shown (ho : s.isOpen id) (ht : s.isOpen target) (hne : id ≠ target) (view : View) :
    Intact id s (s.shown target view) := by
  refine .of_update hne rfl ((get?_buffers_shown s target view _).trans (if_neg fun he => ?_)) rfl rfl
  exact hne (handle_injective ho ht he.symm)

/-- A node of another tree changes. -/
theorem intact_updateNode (hne : id ≠ ref.tree) (f : Node → Node) :
    Intact id s { s with registry := s.registry.updateNode ref f } := .of_update hne rfl rfl rfl rfl

/-- A handle is given out. -/
theorem intact_newHandle : Intact id s
    { s with registry := { s.registry with nextHandle := s.registry.nextHandle + 1 } } :=
  .of_trees rfl rfl rfl rfl rfl

/-- A tree is planted. -/
theorem Plants.intact {new : TreeId} {tree : Tree} (h : s.Plants new tree t)
    (hlt : id < s.registry.trees.length) : Intact id s t := by
  obtain ⟨htree, hopen⟩ := h.others id hlt
  exact .of_trees htree hopen (by rw [h.buffers]) h.pending h.lookups

/-! ### Changes of requests for other trees -/

section Other

variable (hi : s.pending.get? inquiry.token = some inquiry) (hf : ¬inquiry.IsFor id)
include hi hf

theorem foreign_of_get? : Foreign id s.pending inquiry.token := fun other ho => by
  rwa [← Option.some.inj (hi.symm.trans ho)]

theorem foreign_put {new : Inquiry} (hn : ¬new.IsFor id) (k : Token) :
    Table.get? (s.pending.put inquiry.token new) k = s.pending.get? k ∨
      Foreign id s.pending k ∧ Foreign id (s.pending.put inquiry.token new) k := by
  by_cases hk : inquiry.token = k
  · subst hk
    refine .inr ⟨foreign_of_get? hi hf, fun other ho => ?_⟩
    rwa [← Option.some.inj ((Table.get?_put_self ..).symm.trans ho)]
  · exact .inl ((Table.get?_put ..).trans (if_neg hk))

/-- Something becomes known of a request. -/
theorem intact_put {new : Inquiry} (hn : ¬new.IsFor id) (hr : t.registry = s.registry)
    (hb : t.buffers = s.buffers) (hp : t.pending = s.pending.put inquiry.token new)
    (hl : t.lookups = s.lookups) : Intact id s t :=
  .of_requests hr hb (hp ▸ foreign_put hi hf hn) fun _ => .inl (by rw [hl])

/-- The symbol of a call is asked for. -/
theorem intact_looking (hfresh : s.lookups.get? s.nextToken = none) (index : Nat) {name : Text} :
    Intact id s ((s.looking inquiry.token inquiry index).posted s.nextToken true
      (.workspaceSymbols name)) := by
  refine .of_requests rfl rfl (foreign_put hi hf hf) fun l => ?_
  by_cases hl : s.nextToken = l
  · subst hl
    refine .inr fun k i hor => ?_
    rcases hor with hx | hx
    · obtain rfl := congrArg Prod.fst (Option.some.inj ((Table.get?_put_self ..).symm.trans hx))
      exact foreign_of_get? hi hf
    · cases hfresh.symm.trans hx
  · exact .inl ((Table.get?_put ..).trans (if_neg hl))

/-- The symbols of calls are asked for, one after the other. -/
theorem intact_seeking (calls : List Call) (index : Nat)
    (hfresh : ∀ l, s.nextToken ≤ l → s.lookups.get? l = none) :
    Intact id s (s.seeking inquiry calls index) := by
  induction calls generalizing s inquiry index with
  | nil => exact .refl id s
  | cons call rest ih =>
    have hf' : ¬({ inquiry with lookups := inquiry.lookups ++ [s.nextToken] } : Inquiry).IsFor id :=
      hf
    refine (intact_looking hi hf (hfresh _ (Int.le_refl _)) index).trans
      (ih (Table.get?_put_self ..) hf' (index + 1) fun l hle => ?_)
    have hlt : s.nextToken < l := Int.lt_of_lt_of_le (Int.lt_succ _) hle
    exact ((Table.get?_put ..).trans (if_neg (Int.ne_of_lt hlt))).trans (hfresh l (Int.le_of_lt hlt))

/-- A lookup is over. -/
theorem intact_matched {rest : List Arrival} {l : Token} {index : Nat}
    (hl : s.lookups.get? l = some (inquiry.token, index)) (found : List (Option LocatedSymbol)) :
    Intact id s (s.matched rest l inquiry found) := by
  refine .of_requests rfl rfl (foreign_put hi hf hf) fun l' => ?_
  by_cases hll : l = l'
  · subst hll
    refine .inr fun k i hor => ?_
    rcases hor with hx | hx
    · exact absurd rfl (Table.of_get?_erase hx).1
    · obtain rfl := congrArg Prod.fst (Option.some.inj (hl.symm.trans hx))
      exact foreign_of_get? hi hf
  · exact .inl ((Table.get?_erase ..).trans (if_neg hll))

variable (h : s.Sound)
include h

/-- A request is forgotten. -/
theorem intact_dropped : Intact id s (s.dropped inquiry) := by
  have hforeign := foreign_of_get? hi hf
  refine .of_requests rfl rfl (fun k => ?_) fun l => ?_
  · by_cases hk : inquiry.token = k
    · refine .inr ⟨hk ▸ hforeign, fun other ho => ?_⟩
      exact absurd hk (Table.of_get?_erase ho).1
    · exact .inl ((Table.get?_erase ..).trans (if_neg hk))
  · by_cases hl : l ∈ inquiry.lookups
    · obtain ⟨i, hx⟩ := h.looking.listed _ inquiry hi l hl
      refine .inr fun k index hor => ?_
      rcases hor with hy | hy
      · exact absurd hl (of_get?_dropped hy).1
      · obtain rfl := congrArg Prod.fst (Option.some.inj (hx.symm.trans hy))
        exact hforeign
    · exact .inl (get?_lookups_dropped inquiry hl)

/-- What a request is for is no node of the tree. -/
theorem ne_tree_of_purpose {other : TreeId} {generation : Nat} {direction : CallDirection}
    (hp : inquiry.purpose = .expand other ref generation direction) : id ≠ ref.tree := by
  rintro rfl
  exact hf ⟨ref, generation, direction, (h.bound hi hp).1 ▸ hp⟩

/-- A request ends without a result. -/
theorem intact_failed : Intact id s (s.failed inquiry) := by
  have hdropped := intact_dropped hi hf h
  unfold failed
  split
  · rename_i hp
    exact hdropped.trans (intact_updateNode (ne_tree_of_purpose hi hf h hp) _)
  · exact hdropped

/-- The nodes that a request brings are put below the node that waits for them. -/
theorem intact_grafted {other : TreeId} {generation : Nat} {direction : CallDirection}
    (hp : inquiry.purpose = .expand other ref generation direction) :
    Intact id s (s.grafted inquiry ref) :=
  (intact_dropped hi hf h).trans (intact_updateNode (ne_tree_of_purpose hi hf h hp) _)

end Other

/-- The request of a node of another tree is given up. -/
theorem intact_givenUp (h : s.Sound) (hm : s.Member target ref) (hne : id ≠ target) :
    Intact id s (s.givenUp ref) := by
  have hs := h.stands hm
  obtain ⟨-, rfl, -⟩ := hm
  unfold givenUp
  split
  · exact intact_updateNode hne _
  · rename_i inquiry hsome
    obtain ⟨k, hw, hi⟩ := Option.bind_eq_some_iff.1 hsome
    obtain rfl := (h.waiting.own k inquiry hi).1
    obtain ⟨node, direction, hp, -⟩ := (h.waiting.nodes _ _ _ _ hs.found hw).2 inquiry hi
    refine (intact_dropped hi ?_ h).trans (intact_updateNode hne _)
    rintro ⟨other, generation, direction', hp'⟩
    exact hne (Purpose.expand.inj (hp'.symm.trans hp)).1

/-- A request for another tree, or for none, is entered under the next number. -/
theorem intact_entered (h : s.Sound) {purpose : Purpose} (deadline : Number)
    (hf : ∀ ref generation direction, purpose ≠ .expand id ref generation direction) :
    Intact id s (s.entered s.nextToken purpose deadline) := by
  refine .of_requests rfl rfl (fun k => ?_) fun _ => .inl rfl
  by_cases hk : s.nextToken = k
  · subst hk
    refine .inr ⟨fun inquiry hi => ?_, fun inquiry hi => ?_⟩
    · rw [h.waiting.get?_next] at hi
      cases hi
    · obtain rfl := Option.some.inj ((Table.get?_put_self ..).symm.trans hi)
      rintro ⟨ref, generation, direction, hp⟩
      exact hf ref generation direction hp
  · exact .inl ((Table.get?_put ..).trans (if_neg hk))

/-- The nodes below a node of another tree are asked for. -/
theorem intact_asked (h : s.Sound) (hne : id ≠ target) (htree : ref.tree = target)
    {direction : CallDirection} {deadline : Number} {request : Server.Request} :
    Intact id s (((s.awaiting ref).entered s.nextToken
      (.expand target ref (s.tree target).generation direction) deadline).posted s.nextToken false
        request) := by
  have hentered : Intact id s (s.entered s.nextToken
      (.expand target ref (s.tree target).generation direction) deadline) :=
    intact_entered h deadline fun _ _ _ hp => hne (Purpose.expand.inj hp).1.symm
  exact hentered.trans (.of_update (htree ▸ hne) rfl rfl rfl rfl)

end Session

end SymbolTrees
