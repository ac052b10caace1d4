import SymbolTrees.Proofs.Action
import SymbolTrees.Proofs.Registry

/-!
# The slots of a registry

Which tree is the most recent one of its kind after a tree was opened, closed or only made. A kind
takes notice of its own trees alone, because no two trees have one handle.
-/

namespace SymbolTrees.Registry

/-- What a registry is after a tree was opened. -/
def opening (r : Registry) (id : TreeId) (kind : TreeKind) : Registry :=
  { r with slots := r.slots.put (r.tree id).handle id }.setRecent kind (some (r.tree id).handle)

variable {r q : Registry} {id other : TreeId} {kind : TreeKind} {handle : Int}

/-- A tree that was not closed is opened. -/
theorem ends_put (hc : (r.tree id).closed = false)
    (hk : (r.tree id).direction.kind? = some kind) :
    (put id).Ends r (fun k q => k = kind ∧ q = r.opening id kind) fun _ _ => False := by
  unfold put
  refine .bind (.get ?_)
  dsimp only
  rw [hc, Direction.kind_of_kind? hk]
  exact .bind (.modify (.bind (.lift (.bind (.modify (.pure ⟨rfl, rfl⟩))))))

/-- The tree of a handle is closed. -/
theorem ends_close (hs : r.slots.get? handle = some id)
    (hk : (r.tree id).direction.kind? = some kind) :
    (close handle).Ends r (fun p q => p = (id, kind) ∧ q = r.without handle id kind)
      fun _ _ => False := by
  have hdirection : (({ r with slots := r.slots.erase handle }.update id Tree.close).tree id).direction
      = (r.tree id).direction := tree_update_of_keeps Tree.direction rfl
  unfold close lookup
  refine .bind (.bind (.get ?_))
  rw [hs]
  refine .pure (.bind (.modify (.bind (.get ?_))))
  rw [hdirection, Direction.kind_of_kind? hk]
  refine .bind (.lift (.bind (.get ?_)))
  unfold without
  dsimp only
  split
  · exact .bind (.modify (.pure ⟨rfl, rfl⟩))
  · exact .pure ⟨rfl, rfl⟩

/-- Two registries with the same trees on the same slots, whatever else the trees are. -/
structure Akin (r q : Registry) : Prop where
  slots : q.slots = r.slots
  recent : ∀ kind, q.recent kind = r.recent kind
  length : q.trees.length = r.trees.length
  handle : ∀ id, (q.tree id).handle = (r.tree id).handle
  closed : ∀ id, (q.tree id).closed = (r.tree id).closed
  kind : ∀ id, (q.tree id).direction.kind? = (r.tree id).direction.kind?
  next : r.nextHandle ≤ q.nextHandle

theorem Akin.refl (r : Registry) : r.Akin r :=
  ⟨rfl, fun _ => rfl, rfl, fun _ => rfl, fun _ => rfl, fun _ => rfl, Int.le_refl _⟩

theorem akin_newHandle : r.Akin { r with nextHandle := r.nextHandle + 1 } :=
  ⟨rfl, fun kind => by cases kind <;> rfl, rfl, fun _ => rfl, fun _ => rfl, fun _ => rfl,
    Int.le_of_lt (Int.lt_succ _)⟩

theorem akin_update {f : Tree → Tree} (hh : (f (r.tree id)).handle = (r.tree id).handle)
    (hc : (f (r.tree id)).closed = (r.tree id).closed)
    (hk : (f (r.tree id)).direction.kind? = (r.tree id).direction.kind?) :
    r.Akin (r.update id f) :=
  ⟨rfl, fun kind => by cases kind <;> rfl, length_trees_update,
    fun _ => tree_update_of_keeps Tree.handle hh, fun _ => tree_update_of_keeps Tree.closed hc,
    fun _ => tree_update_of_keeps (fun t => t.direction.kind?) hk, Int.le_refl _⟩

theorem Akin.isOpen (h : r.Akin q) : q.isOpen id = r.isOpen id :=
  isOpen_congr h.slots (h.handle id) (h.closed id)

theorem Akin.get? (h : r.Akin q) : q.get? kind = r.get? kind := by
  rw [Registry.get?, Registry.get?, h.recent, h.slots]

theorem Akin.sound (h : r.Akin q) (hr : r.Sound) : q.Sound := by
  refine ⟨h.slots ▸ hr.distinct, ?_, ?_⟩
  · intro handle id hs
    rw [h.length, h.handle, h.closed]
    exact hr.slots handle id (h.slots ▸ hs)
  · intro id hid
    rw [h.handle]
    exact Int.lt_of_lt_of_le (hr.issued id (h.length ▸ hid)) h.next

/-! ### Trees that are opened and closed -/

@[simp] theorem tree_opening : (r.opening id kind).tree other = r.tree other := by
  cases kind <;> rfl

@[simp] theorem slots_opening :
    (r.opening id kind).slots = r.slots.put (r.tree id).handle id := slots_setRecent ..

@[simp] theorem trees_opening : (r.opening id kind).trees = r.trees := trees_setRecent ..

@[simp] theorem nextHandle_opening : (r.opening id kind).nextHandle = r.nextHandle :=
  nextHandle_setRecent ..

theorem recent_opening (other : TreeKind) :
    (r.opening id kind).recent other =
      if other = kind then some (r.tree id).handle else r.recent other := by
  cases kind <;> cases other <;> rfl

theorem recent_without (other : TreeKind) :
    (r.without handle id kind).recent other =
      if other = kind ∧ r.recent kind = some handle then none else r.recent other := by
  have hrest (k : TreeKind) :
      ({ r with slots := r.slots.erase handle }.update id Tree.close).recent k = r.recent k := by
    cases k <;> rfl
  have hset (q : Registry) : (q.setRecent kind none).recent other =
      if other = kind then none else q.recent other := by
    cases kind <;> cases other <;> rfl
  rw [without]
  simp only [hrest]
  by_cases hk : r.recent kind = some handle
  · rw [if_pos hk, hset, hrest]
    simp [hk]
  · rw [if_neg hk, hrest]
    simp [hk]

/-- No two trees have one handle. -/
def OneEach (r : Registry) : Prop := ∀ id < r.trees.length, ∀ other < r.trees.length,
  (r.tree id).handle = (r.tree other).handle → id = other

/-- Where a kind has a most recent handle, it is the handle of an open tree of that kind. -/
def Slotted (r : Registry) : Prop := ∀ kind handle, r.recent kind = some handle →
  ∃ id, r.get? kind = some id ∧ (r.tree id).direction.kind? = some kind

theorem Sound.opening (hr : r.Sound) (hlt : id < r.trees.length)
    (hc : (r.tree id).closed = false) : (r.opening id kind).Sound := by
  refine ⟨?_, ?_, ?_⟩
  · rw [slots_opening]
    exact Table.nodup_put hr.distinct
  · intro handle other hs
    rw [slots_opening] at hs
    rw [trees_opening, tree_opening]
    rcases Table.of_get?_put hs with ⟨hh, rfl⟩ | ⟨-, hs⟩
    · exact ⟨hlt, hh, hc⟩
    · exact hr.slots handle other hs
  · intro other ho
    rw [trees_opening] at ho
    rw [tree_opening, nextHandle_opening]
    exact hr.issued other ho

theorem lt_of_closed_eq_false (hc : (r.tree id).closed = false) : id < r.trees.length := by
  refine Nat.lt_of_not_le fun hle => ?_
  rw [tree_of_length_le hle] at hc
  cases hc

theorem isOpen_opening (ho : r.OneEach) (hc : (r.tree id).closed = false) :
    (r.opening id kind).isOpen other ↔ other = id ∨ r.isOpen other := by
  rw [isOpen_iff, isOpen_iff, tree_opening, slots_opening, Table.get?_put]
  by_cases he : other = id
  · subst he
    simp [hc]
  · have hne (hother : (r.tree other).closed = false) :
        (r.tree id).handle ≠ (r.tree other).handle := fun hh =>
      he (ho id (lt_of_closed_eq_false hc) other (lt_of_closed_eq_false hother) hh).symm
    constructor
    · rintro ⟨hother, hs⟩
      exact .inr ⟨hother, (if_neg (hne hother)).symm.trans hs⟩
    · rintro (h | ⟨hother, hs⟩)
      · exact absurd h he
      · exact ⟨hother, (if_neg (hne hother)).trans hs⟩

/-- What is found for a kind is in the slot of its most recent handle. -/
theorem of_get? (h : r.get? kind = some id) :
    ∃ handle, r.recent kind = some handle ∧ r.slots.get? handle = some id :=
  Option.bind_eq_some_iff.1 h

theorem Slotted.kind_of_get? (hs : r.Slotted) (h : r.get? kind = some id) :
    (r.tree id).direction.kind? = some kind := by
  obtain ⟨handle, hrecent, -⟩ := of_get? h
  obtain ⟨other, ho, hk⟩ := hs kind handle hrecent
  obtain rfl := Option.some.inj (ho.symm.trans h)
  exact hk

/-- A tree that is put is the most recent one of its kind, and no matter to the other kind. -/
theorem get?_opening (hr : r.Sound) (ho : r.OneEach) (hs : r.Slotted)
    (hc : (r.tree id).closed = false) (hk : (r.tree id).direction.kind? = some kind)
    (other : TreeKind) :
    (r.opening id kind).get? other = if other = kind then some id else r.get? other := by
  rw [Registry.get?, recent_opening, slots_opening]
  by_cases he : other = kind
  · rw [if_pos he, if_pos he]
    exact Table.get?_put_self ..
  · rw [if_neg he, if_neg he, Registry.get?]
    cases hrecent : r.recent other with
    | none => rfl
    | some handle =>
      obtain ⟨x, hx, hkx⟩ := hs other handle hrecent
      have hslot : r.slots.get? handle = some x := by
        rw [← hx, Registry.get?, hrecent]
        rfl
      obtain ⟨hlt, hh, -⟩ := hr.slots handle x hslot
      have hne : (r.tree id).handle ≠ handle := by
        intro heq
        obtain rfl := ho id (lt_of_closed_eq_false hc) x hlt (heq.trans hh.symm)
        exact he (Option.some.inj (hkx.symm.trans hk))
      exact (Table.get?_put ..).trans (if_neg hne)

/-- Closing a tree matters to its own kind alone, and only if it is the most recent one. -/
theorem get?_without (hr : r.Sound) (hs : r.Slotted) (hslot : r.slots.get? handle = some id)
    (hk : (r.tree id).direction.kind? = some kind) (other : TreeKind) :
    (r.without handle id kind).get? other =
      if r.get? other = some id then none else r.get? other := by
  rw [Registry.get?, recent_without, slots_without]
  cases hrecent : r.recent other with
  | none =>
    have hnone : r.get? other = none := by
      rw [Registry.get?, hrecent]
      rfl
    rw [hnone]
    simp
  | some h =>
    obtain ⟨x, hx, hkx⟩ := hs other h hrecent
    have hslotx : r.slots.get? h = some x := by
      rw [← hx, Registry.get?, hrecent]
      rfl
    rw [hx]
    by_cases he : x = id
    · subst he
      obtain rfl := Option.some.inj (hkx.symm.trans hk)
      have hh : h = handle := (hr.slots h x hslotx).2.1.symm.trans (hr.slots handle x hslot).2.1
      simp [hrecent, hh]
    · have hh : handle ≠ h := by
        rintro rfl
        exact he (Option.some.inj (hslotx.symm.trans hslot))
      have hn : ¬(other = kind ∧ r.recent kind = some handle) := by
        rintro ⟨rfl, hr'⟩
        exact hh (Option.some.inj (hr'.symm.trans hrecent))
      rw [if_neg hn, if_neg fun h => he (Option.some.inj h), Option.bind_some, Table.get?_erase,
        if_neg hh, hslotx]

theorem Slotted.opening (hr : r.Sound) (ho : r.OneEach) (hs : r.Slotted)
    (hc : (r.tree id).closed = false) (hk : (r.tree id).direction.kind? = some kind) :
    (r.opening id kind).Slotted := by
  intro other handle hrecent
  rw [get?_opening hr ho hs hc hk]
  rw [recent_opening] at hrecent
  by_cases he : other = kind
  · rw [if_pos he]
    exact ⟨id, rfl, by rw [tree_opening, he, hk]⟩
  · rw [if_neg he] at hrecent ⊢
    obtain ⟨x, hx, hkx⟩ := hs other handle hrecent
    exact ⟨x, hx, by rw [tree_opening, hkx]⟩

theorem Slotted.without (hr : r.Sound) (hs : r.Slotted) (hslot : r.slots.get? handle = some id)
    (hk : (r.tree id).direction.kind? = some kind) : (r.without handle id kind).Slotted := by
  intro other h hrecent
  rw [recent_without] at hrecent
  by_cases hn : other = kind ∧ r.recent kind = some handle
  · rw [if_pos hn] at hrecent
    cases hrecent
  · rw [if_neg hn] at hrecent
    obtain ⟨x, hx, hkx⟩ := hs other h hrecent
    have hne : x ≠ id := by
      rintro rfl
      obtain ⟨h', hrecent', hslot'⟩ := of_get? hx
      obtain rfl := Option.some.inj (hkx.symm.trans hk)
      have hh : h' = handle :=
        (hr.slots h' x hslot').2.1.symm.trans (hr.slots handle x hslot).2.1
      exact hn ⟨rfl, hh ▸ hrecent'⟩
    refine ⟨x, ?_, ?_⟩
    · rw [get?_without hr hs hslot hk, hx, if_neg fun h => hne (Option.some.inj h)]
    · rw [tree_without, tree_update_of_ne hne, hkx]

/-! ### A tree that is made -/

theorem tree_made (r : Registry) (id : TreeId) (t : Tree) :
    ({ r with trees := r.trees ++ [t] } : Registry).tree id = r.tree id ∨
      id = r.trees.length ∧ ({ r with trees := r.trees ++ [t] } : Registry).tree id = t :=
  tree_including_cases t .calls id

theorem tree_made_length (t : Tree) :
    ({ r with trees := r.trees ++ [t] } : Registry).tree r.trees.length = t :=
  tree_including_length t .calls

theorem tree_made_of_lt (t : Tree) (h : id < r.trees.length) :
    ({ r with trees := r.trees ++ [t] } : Registry).tree id = r.tree id :=
  tree_including_of_lt t .calls h

theorem Sound.made (hr : r.Sound) {t : Tree} (hlt : t.handle < r.nextHandle) :
    ({ r with trees := r.trees ++ [t] } : Registry).Sound := by
  refine ⟨hr.distinct, ?_, ?_⟩
  · intro handle id hs
    obtain ⟨hid, hh, hc⟩ := hr.slots handle id hs
    rw [tree_made_of_lt t hid, List.length_append, List.length_singleton]
    exact ⟨Nat.lt_succ_of_lt hid, hh, hc⟩
  · intro id hid
    rw [List.length_append, List.length_singleton] at hid
    rcases Nat.lt_succ_iff_lt_or_eq.1 hid with hid | rfl
    · rw [tree_made_of_lt t hid]
      exact hr.issued id hid
    · rw [tree_made_length]
      exact hlt

/-- A tree that was only made is not open. -/
theorem isOpen_made (hr : r.Sound) (t : Tree) :
    ({ r with trees := r.trees ++ [t] } : Registry).isOpen id = r.isOpen id := by
  by_cases hlt : id < r.trees.length
  · exact isOpen_congr rfl (congrArg Tree.handle (tree_made_of_lt t hlt))
      (congrArg Tree.closed (tree_made_of_lt t hlt))
  · have hfree (handle : Int) : r.slots.get? handle ≠ some id := fun hs =>
      hlt (hr.slots handle id hs).1
    rw [isOpen, isOpen, Bool.eq_iff_iff]
    simp [hfree]

end SymbolTrees.Registry
