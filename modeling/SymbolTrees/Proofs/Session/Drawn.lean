import Mathlib.Data.Set.Basic
import SymbolTrees.Proofs.Session.Account
import SymbolTrees.Proofs.View

/-!
# Trees that are drawn as they are

Every open tree has a buffer, and what stands there and in the maps of the tree is what the nodes of
the tree are drawn as now. Where a change shows, the tree is *stale* until it is drawn anew; all
other changes keep it drawn.
-/

namespace SymbolTrees

/-- What of a tree the editor shows, or needs to know, besides its nodes. -/
def Tree.face (t : Tree) :
    Int × Option Text × Bool × Bool × Table Int Place × Table Int SourceLine :=
  (t.handle, t.uri, t.hidden, t.closed, t.lineMap, t.sourceMap)

theorem Tree.face_modify {t : Tree} {p : Place} {f : Node → Node} :
    (t.modify p f).face = t.face := by
  unfold modify
  split <;> rfl

namespace Buffers

variable (buffers : Buffers) (handle other : Int)

theorem get?_replace (lines : List Text) (annotations : List (Int × Text)) :
    (buffers.replace handle lines annotations).get? other =
      if handle = other then
        some ⟨lines, .ofList annotations, (buffers.buffer handle).visible,
          (buffers.buffer handle).writes + 1⟩
      else buffers.get? other := Table.get?_put ..

theorem get?_setVisible (visible : Bool) :
    (buffers.setVisible handle visible).get? other =
      if handle = other then some { buffers.buffer handle with visible := visible }
      else buffers.get? other := Table.get?_put ..

theorem buffer_of_get? {buffers : Buffers} {handle : Int} {b : Buffer}
    (h : buffers.get? handle = some b) : buffers.buffer handle = b := by
  rw [buffer, h, Option.getD_some]

end Buffers

namespace Session

variable {s t u : Session} {id : TreeId} {ref : NodeRef} {stale touched : Set TreeId}
  {results : List Resolution}

/-- The buffer and the maps of a tree show what its nodes are drawn as now. -/
structure Depicts (s : Session) (id : TreeId) (buffer : Buffer) (view : View) : Prop where
  drawn : View.ofTree (s.tree id) s.style = .ok view
  lines : buffer.lines = view.lines
  annotations : buffer.annotations = view.annotations
  lineMap : (s.tree id).lineMap = view.lineMap (s.tree id)
  sourceMap : (s.tree id).sourceMap = view.sourceMap

/-- What is depicted stays so where the tree stays as it is. -/
theorem Depicts.of_tree {buffer : Buffer} {view : View} (h : s.Depicts id buffer view)
    (htree : t.tree id = s.tree id) (hstyle : t.style = s.style) : t.Depicts id buffer view := by
  refine ⟨?_, h.lines, h.annotations, ?_, ?_⟩
  · rw [htree, hstyle]
    exact h.drawn
  · rw [htree]
    exact h.lineMap
  · rw [htree]
    exact h.sourceMap

/-- A sound session in which all open trees but those of `stale` are drawn as they are. -/
structure Drawn (stale : Set TreeId) (s : Session) : Prop where
  sound : s.Sound
  owned : ∀ handle buffer, s.buffers.get? handle = some buffer →
    ∃ id, s.registry.slots.get? handle = some id
  visible : ∀ id, s.isOpen id →
    (s.buffers.buffer (s.tree id).handle).visible = !(s.tree id).hidden
  depicted : ∀ id, s.isOpen id → id ∉ stale → ∃ buffer view,
    s.buffers.get? (s.tree id).handle = some buffer ∧ s.Depicts id buffer view

theorem drawn_start (client : Client) (settings : Settings) (root : Path) (now : Number) :
    (start client settings root now).Drawn ∅ :=
  have hclosed (id : TreeId) : ¬(start client settings root now).isOpen id := Bool.false_ne_true
  ⟨sound_start .., fun _ _ h => (by cases h), fun id ho => absurd ho (hclosed id),
    fun id ho => absurd ho (hclosed id)⟩

theorem Drawn.mono {later : Set TreeId} (h : s.Drawn stale) (hs : stale ⊆ later) :
    s.Drawn later :=
  ⟨h.sound, h.owned, h.visible, fun id ho hn => h.depicted id ho fun hm => hn (hs hm)⟩

/-! ### Changes that are not seen -/

/-- Nothing that is on display changes but for the nodes of the trees of `touched`. -/
structure Keeps (touched : Set TreeId) (s t : Session) : Prop where
  style : t.style = s.style
  buffers : t.buffers = s.buffers
  slots : t.registry.slots = s.registry.slots
  face : ∀ id, (t.tree id).face = (s.tree id).face
  nodes : ∀ id ∉ touched, (t.tree id).root.idle = (s.tree id).root.idle ∧
    (t.tree id).generation = (s.tree id).generation

namespace Keeps

theorem refl (s : Session) : Keeps touched s s :=
  ⟨rfl, rfl, rfl, fun _ => rfl, fun _ _ => ⟨rfl, rfl⟩⟩

theorem trans (h : Keeps touched s t) (h' : Keeps touched t u) : Keeps touched s u := by
  refine ⟨h'.style.trans h.style, h'.buffers.trans h.buffers, h'.slots.trans h.slots,
    fun id => (h'.face id).trans (h.face id), fun id hn => ?_⟩
  obtain ⟨hroot, hg⟩ := h.nodes id hn
  obtain ⟨hroot', hg'⟩ := h'.nodes id hn
  exact ⟨hroot'.trans hroot, hg'.trans hg⟩

theorem mono {more : Set TreeId} (h : Keeps touched s t) (hs : touched ⊆ more) : Keeps more s t :=
  ⟨h.style, h.buffers, h.slots, h.face, fun id hn => h.nodes id fun hm => hn (hs hm)⟩

/-- Where the registry stays, nothing on display changes. -/
theorem of_registry (hstyle : t.style = s.style) (hbuffers : t.buffers = s.buffers)
    (hregistry : t.registry = s.registry) : Keeps touched s t := by
  have htree (id : TreeId) : t.tree id = s.tree id := congrArg (Registry.tree · id) hregistry
  refine ⟨hstyle, hbuffers, congrArg Registry.slots hregistry, fun id => ?_, fun id _ => ?_⟩
  · rw [htree]
  · rw [htree]
    exact ⟨rfl, rfl⟩

/-- A node of a tree changes, which is seen only if it is more than what it waits for. -/
theorem of_updateNode {f : Node → Node} (hr : s.Stands ref) (hstyle : t.style = s.style)
    (hbuffers : t.buffers = s.buffers) (hregistry : t.registry = s.registry.updateNode ref f)
    (hf : ref.tree ∈ touched ∨ ∀ m : Node, (f m).idle = m.idle) : Keeps touched s t := by
  have htree (id : TreeId) : t.tree id = (s.registry.updateNode ref f).tree id :=
    congrArg (Registry.tree · id) hregistry
  have hslots : t.registry.slots = s.registry.slots := by
    rw [hregistry]
    rfl
  refine ⟨hstyle, hbuffers, hslots, fun id => ?_, fun id hn => ?_⟩
  · rw [htree]
    exact Registry.tree_update_of_keeps Tree.face Tree.face_modify
  · rw [htree]
    refine ⟨?_, Registry.generation_updateNode hr.current⟩
    rcases hf with hf | hf
    · have hne : id ≠ ref.tree := fun he => hn (he ▸ hf)
      exact congrArg (fun t : Tree => t.root.idle) (Registry.tree_update_of_ne hne)
    · refine Registry.tree_update_of_keeps (fun t => t.root.idle) ?_
      have hc : (s.registry.tree ref.tree).IsCurrent ref.place := hr.current
      rw [Tree.modify_of_isCurrent hc]
      exact Node.idle_modifyAt fun m _ => hf m

/-- A tree changes in nothing but its nodes. -/
theorem of_update {f : Tree → Tree} (hstyle : t.style = s.style) (hbuffers : t.buffers = s.buffers)
    (hregistry : t.registry = s.registry.update id f)
    (hface : (f (s.tree id)).face = (s.tree id).face) : Keeps {id} s t := by
  have htree (other : TreeId) : t.tree other = (s.registry.update id f).tree other :=
    congrArg (Registry.tree · other) hregistry
  have hslots : t.registry.slots = s.registry.slots := by
    rw [hregistry]
    rfl
  refine ⟨hstyle, hbuffers, hslots, fun other => ?_, fun other hn => ?_⟩
  · rw [htree]
    exact Registry.tree_update_of_keeps Tree.face hface
  · have he : t.tree other = s.tree other := (htree other).trans (Registry.tree_update_of_ne hn)
    rw [he]
    exact ⟨rfl, rfl⟩

theorem handle (h : Keeps touched s t) (id : TreeId) : (t.tree id).handle = (s.tree id).handle :=
  congrArg Prod.fst (h.face id)

theorem isOpen (h : Keeps touched s t) (id : TreeId) : t.isOpen id = s.isOpen id :=
  Registry.isOpen_congr h.slots (h.handle id) (congrArg (·.2.2.2.1) (h.face id))

end Keeps

/-- **What is not seen keeps the trees drawn.** -/
theorem Drawn.keeps (h : s.Drawn stale) (ht : t.Sound) (hk : Keeps touched s t) :
    t.Drawn (stale ∪ touched) := by
  refine ⟨ht, ?_, ?_, ?_⟩
  · intro handle buffer hb
    rw [hk.buffers] at hb
    rw [hk.slots]
    exact h.owned handle buffer hb
  · intro id ho
    rw [hk.isOpen] at ho
    have hhidden : (t.tree id).hidden = (s.tree id).hidden := congrArg (·.2.2.1) (hk.face id)
    rw [hk.buffers, hk.handle, hhidden]
    exact h.visible id ho
  · intro id ho hn
    rw [hk.isOpen] at ho
    obtain ⟨hstale, htouched⟩ := not_or.1 hn
    obtain ⟨buffer, view, hb, hd⟩ := h.depicted id ho hstale
    obtain ⟨hroot, hg⟩ := hk.nodes id htouched
    obtain ⟨view', hv, hsame⟩ :=
      View.ofTree_of_idle hroot (congrArg (·.2.1) (hk.face id)) (hk.style ▸ hd.drawn)
    refine ⟨buffer, view', ?_, hv, ?_, ?_, ?_, ?_⟩
    · rw [hk.buffers, hk.handle]
      exact hb
    · rw [hd.lines, hsame.lines]
    · rw [hd.annotations, hsame.annotations]
    · have hmap : (t.tree id).lineMap = (s.tree id).lineMap :=
        congrArg (·.2.2.2.2.1) (hk.face id)
      rw [hmap, hd.lineMap]
      exact hsame.lineMap _ _ hg.symm
    · have hmap : (t.tree id).sourceMap = (s.tree id).sourceMap :=
        congrArg (·.2.2.2.2.2) (hk.face id)
      rw [hmap, hd.sourceMap, hsame.sourceMap]

/-- Nothing becomes stale of what is not seen. -/
theorem Drawn.same (h : s.Drawn stale) (ht : t.Sound) (hk : Keeps ∅ s t) : t.Drawn stale :=
  (h.keeps ht hk).mono (by simp)

/-! ### Drawing, showing, closing and planting -/

/-- No two open trees have one handle. -/
theorem handle_injective {other : TreeId} (ho : s.isOpen id) (ho' : s.isOpen other)
    (he : (s.tree id).handle = (s.tree other).handle) : id = other := by
  have hs := (Registry.isOpen_iff.1 ho).2
  have hs' := (Registry.isOpen_iff.1 ho').2
  rw [show (s.registry.tree id).handle = (s.registry.tree other).handle from he, hs'] at hs
  exact (Option.some.inj hs).symm

/-- At most one open tree changes, with its buffer. -/
structure Refits (id : TreeId) (s t : Session) : Prop where
  isOpen : s.isOpen id
  style : t.style = s.style
  slots : t.registry.slots = s.registry.slots
  handle : (t.tree id).handle = (s.tree id).handle
  closed : (t.tree id).closed = (s.tree id).closed
  trees : ∀ other ≠ id, t.tree other = s.tree other
  buffers : ∀ handle ≠ (s.tree id).handle, t.buffers.get? handle = s.buffers.get? handle

theorem Refits.isOpen_eq (hr : Refits id s t) (other : TreeId) : t.isOpen other = s.isOpen other := by
  by_cases he : other = id
  · subst he
    exact Registry.isOpen_congr hr.slots hr.handle hr.closed
  · exact Registry.isOpen_congr hr.slots (congrArg Tree.handle (hr.trees other he))
      (congrArg Tree.closed (hr.trees other he))

theorem Drawn.refit (h : s.Drawn stale) (ht : t.Sound) (hr : Refits id s t) {later : Set TreeId}
    (hs : stale ⊆ insert id later)
    (hvisible : (t.buffers.buffer (t.tree id).handle).visible = !(t.tree id).hidden)
    (hdepicted : id ∉ later → ∃ buffer view,
      t.buffers.get? (t.tree id).handle = some buffer ∧ t.Depicts id buffer view) :
    t.Drawn later := by
  have hne {i : TreeId} (hi : i ≠ id) (hoi : s.isOpen i) : (s.tree i).handle ≠ (s.tree id).handle :=
    fun he => hi (handle_injective hoi hr.isOpen he)
  refine ⟨ht, ?_, ?_, ?_⟩
  · intro handle buffer hb
    rw [hr.slots]
    by_cases he : handle = (s.tree id).handle
    · exact ⟨id, he ▸ (Registry.isOpen_iff.1 hr.isOpen).2⟩
    · exact h.owned handle buffer ((hr.buffers handle he).symm.trans hb)
  · intro i hoi
    rw [hr.isOpen_eq] at hoi
    by_cases hi : i = id
    · exact hi ▸ hvisible
    · rw [hr.trees i hi, Buffers.buffer, hr.buffers _ (hne hi hoi)]
      exact h.visible i hoi
  · intro i hoi hn
    rw [hr.isOpen_eq] at hoi
    by_cases hi : i = id
    · exact hi ▸ hdepicted (hi ▸ hn)
    · obtain ⟨buffer, view, hb, hd⟩ := h.depicted i hoi fun hm => (hs hm).elim hi hn
      have htree := hr.trees i hi
      refine ⟨buffer, view, ?_, hd.of_tree htree hr.style⟩
      rw [htree, hr.buffers _ (hne hi hoi)]
      exact hb

/-- A tree that is drawn has its maps from then on. -/
theorem tree_shown (ho : s.isOpen id) (h : s.Sound) (view : View) :
    (s.shown id view).tree id = (s.tree id).show view :=
  Registry.tree_update_self (h.registry.lt_of_isOpen ho)

/-- A tree that is drawn is written to its own buffer. -/
theorem get?_buffers_shown (s : Session) (id : TreeId) (view : View) (handle : Int) :
    (s.shown id view).buffers.get? handle =
      if (s.tree id).handle = handle then
        some ⟨view.lines, .ofList view.annotations, (s.buffers.buffer (s.tree id).handle).visible,
          (s.buffers.buffer (s.tree id).handle).writes + 1⟩
      else s.buffers.get? handle := Buffers.get?_replace ..

/-- **A tree that is drawn is not stale any more.** -/
theorem Drawn.shown (h : s.Drawn stale) (ho : s.isOpen id) {view : View}
    (hv : View.ofTree (s.tree id) s.style = .ok view) : (s.shown id view).Drawn (stale \ {id}) := by
  have hself := tree_shown ho h.sound view
  have hbuffer := (get?_buffers_shown s id view ((s.shown id view).tree id).handle).trans
    (if_pos (handle_shown s id view).symm)
  have hr : Refits id s (s.shown id view) := by
    refine ⟨ho, rfl, rfl, handle_shown s id view, by rw [hself]; rfl,
      fun other hn => tree_shown_of_ne s id view hn, fun handle hn => ?_⟩
    exact (get?_buffers_shown s id view handle).trans (if_neg (Ne.symm hn))
  have ht : (s.shown id view).Sound := h.sound.draw view _
  refine h.refit ht hr ?_ ?_ fun _ => ⟨_, view, hbuffer, ?_, rfl, ?_, ?_, ?_⟩
  · intro other hm
    by_cases he : other = id
    · exact .inl he
    · exact .inr ⟨hm, he⟩
  · rw [Buffers.buffer_of_get? hbuffer, hself]
    exact h.visible id ho
  · rw [hself]
    exact hv
  · exact Table.ofList_of_nodup view.nodup_annotations
  · rw [hself]
    rfl
  · rw [hself]
    rfl

/-- What is shown or hidden stays drawn. -/
theorem Drawn.hide (h : s.Drawn stale) {handle : Int} (slot : s.registry.slots.get? handle = some id)
    (hidden : Bool) : ({ s with
      registry := s.registry.update id fun t => { t with hidden := hidden }
      buffers := s.buffers.setVisible handle !hidden } : Session).Drawn stale := by
  obtain ⟨hlt, hhandle, -⟩ := h.sound.registry.slots handle id slot
  have ho : s.isOpen id := h.sound.registry.isOpen_of_slot slot
  have ht := h.sound.move (.hide hidden slot)
  generalize he : ({ s with
    registry := s.registry.update id fun t => { t with hidden := hidden }
    buffers := s.buffers.setVisible handle !hidden } : Session) = t at ht ⊢
  have hself : t.tree id = { s.tree id with hidden := hidden } := by
    rw [← he]
    exact Registry.tree_update_self hlt
  have hbuffer : t.buffers.get? (t.tree id).handle =
      some { s.buffers.buffer handle with visible := !hidden } := by
    rw [hself, ← he]
    exact (Buffers.get?_setVisible ..).trans (if_pos hhandle.symm)
  have hr : Refits id s t := by
    refine ⟨ho, by rw [← he], by rw [← he]; rfl, by rw [hself], by rw [hself], fun other hn => ?_,
      fun other hn => ?_⟩
    · rw [← he]
      exact Registry.tree_update_of_ne hn
    · rw [← he]
      exact (Buffers.get?_setVisible ..).trans (if_neg fun hh => hn (hh.symm.trans hhandle.symm))
  refine h.refit ht hr (fun _ hm => .inr hm) ?_ fun hn => ?_
  · rw [Buffers.buffer_of_get? hbuffer, hself]
  · obtain ⟨buffer, view, hb, hd⟩ := h.depicted id ho hn
    have hb' : s.buffers.buffer handle = buffer :=
      Buffers.buffer_of_get? (hhandle ▸ hb)
    refine ⟨_, view, hbuffer, ?_, ?_, ?_, ?_, ?_⟩
    · rw [hself, hr.style]
      exact hd.drawn
    · rw [hb']
      exact hd.lines
    · rw [hb']
      exact hd.annotations
    · rw [hself]
      exact hd.lineMap
    · rw [hself]
      exact hd.sourceMap

/-- When a tree is closed, its buffer goes with it. -/
theorem Drawn.close (h : s.Drawn stale) {handle : Int} {kind : TreeKind}
    (slot : s.registry.slots.get? handle = some id)
    (isKind : (s.tree id).direction.kind? = some kind) : ({ s with
      registry := s.registry.without handle id kind
      buffers := s.buffers.discard handle } : Session).Drawn stale := by
  obtain ⟨-, hhandle, -⟩ := h.sound.registry.slots handle id slot
  have hid : s.isOpen id := h.sound.registry.isOpen_of_slot slot
  have ht := h.sound.move (.close slot isKind)
  generalize he : ({ s with
    registry := s.registry.without handle id kind
    buffers := s.buffers.discard handle } : Session) = t at ht ⊢
  have hopen {i : TreeId} (hi : t.isOpen i) : s.isOpen i ∧ i ≠ id := by
    rw [← he] at hi
    exact (h.sound.registry.isOpen_without slot kind).1 hi
  have htree {i : TreeId} (hi : i ≠ id) : t.tree i = s.tree i := by
    rw [← he]
    exact Registry.tree_without .. |>.trans (Registry.tree_update_of_ne hi)
  have hbuffer (other : Int) :
      t.buffers.get? other = if handle = other then none else s.buffers.get? other := by
    rw [← he]
    exact Table.get?_erase ..
  have hne {i : TreeId} (hoi : s.isOpen i) (hi : i ≠ id) : handle ≠ (s.tree i).handle :=
    fun hh => hi (handle_injective hid hoi (hhandle.trans hh)).symm
  refine ⟨ht, ?_, ?_, ?_⟩
  · intro other buffer hb
    rw [hbuffer] at hb
    split at hb
    · cases hb
    · rename_i hn
      obtain ⟨i, hi⟩ := h.owned other buffer hb
      refine ⟨i, ?_⟩
      rw [← he]
      simp only [Registry.slots_without]
      exact (Table.get?_erase ..).trans ((if_neg hn).trans hi)
  · intro i hoi
    obtain ⟨hoi, hi⟩ := hopen hoi
    rw [htree hi, Buffers.buffer, hbuffer, if_neg (hne hoi hi)]
    exact h.visible i hoi
  · intro i hoi hn
    obtain ⟨hoi, hi⟩ := hopen hoi
    obtain ⟨buffer, view, hb, hd⟩ := h.depicted i hoi hn
    refine ⟨buffer, view, ?_, hd.of_tree (htree hi) (he ▸ rfl)⟩
    rw [htree hi, hbuffer, if_neg (hne hoi hi)]
    exact hb

/-- A new tree is to be drawn. -/
theorem Drawn.plant (h : s.Drawn stale) {handle : Int} {root : Node} {direction : Direction}
    (uri : Option Text) {kind : TreeKind} (issued : handle < s.registry.nextHandle)
    (unused : ∀ id < s.registry.trees.length, (s.tree id).handle < handle)
    (seed : Seed s direction root) (isKind : direction.kind? = some kind) : ({ s with
      registry :=
        s.registry.including ⟨handle, root, direction, uri, false, false, [], [], []⟩ kind } :
      Session).Drawn (insert s.registry.trees.length stale) := by
  have hmove : Move s { s with
      registry :=
        s.registry.including ⟨handle, root, direction, uri, false, false, [], [], []⟩ kind } :=
    .plant issued unused seed isKind
  have ht := h.sound.move hmove
  have hnone : s.buffers.get? handle = none := by
    by_contra hn
    obtain ⟨buffer, hb⟩ := Option.ne_none_iff_exists'.1 hn
    obtain ⟨id, hs⟩ := h.owned handle buffer hb
    obtain ⟨hlt, hh, -⟩ := h.sound.registry.slots handle id hs
    exact Int.ne_of_lt (unused id hlt) hh
  generalize htr : (⟨handle, root, direction, uri, false, false, [], [], []⟩ : Tree) = tree at ht ⊢
  have hhandle : tree.handle = handle := by rw [← htr]
  have hhidden : tree.hidden = false := by rw [← htr]
  have hclosed : tree.closed = false := by rw [← htr]
  generalize he : ({ s with registry := s.registry.including tree kind } : Session) = t at ht ⊢
  have hstyle : t.style = s.style := by rw [← he]
  have hbuffers : t.buffers = s.buffers := by rw [← he]
  have hnew : t.tree s.registry.trees.length = tree := by
    rw [← he]
    exact Registry.tree_including_length tree kind
  have hold {i : TreeId} (hi : t.isOpen i) (hn : i ≠ s.registry.trees.length) :
      s.isOpen i ∧ t.tree i = s.tree i := by
    rw [← he] at hi ⊢
    have ho := ((Registry.isOpen_including hclosed (hhandle ▸ unused) kind).1 hi).resolve_right hn
    exact ⟨ho, Registry.tree_including_of_lt _ _ (h.sound.registry.lt_of_isOpen ho)⟩
  refine ⟨ht, ?_, ?_, ?_⟩
  · intro other buffer hb
    rw [hbuffers] at hb
    obtain ⟨id, hs⟩ := h.owned other buffer hb
    refine ⟨id, ?_⟩
    rw [← he]
    simp only [Registry.slots_including]
    rw [Table.get?_put, if_neg, hs]
    intro heq
    rw [← hhandle, heq, hb] at hnone
    cases hnone
  · intro i hoi
    by_cases hi : i = s.registry.trees.length
    · rw [hi, hnew, hbuffers, Buffers.buffer, hhandle, hnone, hhidden]
      rfl
    · obtain ⟨hoi, htree⟩ := hold hoi hi
      rw [htree, hbuffers]
      exact h.visible i hoi
  · intro i hoi hn
    obtain ⟨hi, hstale⟩ := not_or.1 hn
    obtain ⟨hoi, htree⟩ := hold hoi hi
    obtain ⟨buffer, view, hb, hd⟩ := h.depicted i hoi hstale
    refine ⟨buffer, view, ?_, hd.of_tree htree hstyle⟩
    rw [htree, hbuffers]
    exact hb

/-! ### Runs -/

theorem keeps_turn {direction : CallDirection} : Keeps {id} s
    { s with registry := s.registry.update id fun t => t.turned direction.flip } :=
  .of_update rfl rfl rfl rfl

/-- Buffers and trees belong together after every move, whether they are drawn or not. -/
theorem Drawn.move (h : s.Drawn Set.univ) (hm : Move s t) : t.Drawn Set.univ := by
  have ht := h.sound.move hm
  have all (touched : Set TreeId) (hk : Keeps touched s t) : t.Drawn Set.univ :=
    (h.keeps ht hk).mono (Set.subset_univ _)
  have node {ref : NodeRef} {f : Node → Node} (hr : s.Stands ref) (hstyle : t.style = s.style)
      (hbuffers : t.buffers = s.buffers) (hregistry : t.registry = s.registry.updateNode ref f) :
      t.Drawn Set.univ :=
    all Set.univ (.of_updateNode hr hstyle hbuffers hregistry (.inl trivial))
  cases hm with
  | draw isOpen drawn => exact (h.shown isOpen drawn).mono (Set.subset_univ _)
  | hide hidden slot => exact h.hide slot hidden
  | close slot isKind => exact h.close slot isKind
  | plant issued unused seed isKind =>
    exact (h.plant _ issued unused seed isKind).mono (Set.subset_univ _)
  | issue => exact all ∅ ⟨rfl, rfl, rfl, fun _ => rfl, fun _ _ => ⟨rfl, rfl⟩⟩
  | ask askable => exact node (h.sound.stands askable.member) rfl rfl rfl
  | askInVain askable => exact node (h.sound.stands askable.member) rfl rfl rfl
  | giveUp member =>
    refine node (h.sound.stands member) ?_ ?_ (registry_givenUp ..) <;>
      unfold givenUp <;> split <;> rfl
  | unfold member => exact node (h.sound.stands member) rfl rfl rfl
  | turn => exact all _ keeps_turn
  | @fail inquiry pending live =>
    have hframe : Frame s (s.failed inquiry) := frame_failed
    cases hp : inquiry.purpose with
    | expand id ref generation direction =>
      refine node (h.sound.stands (h.sound.live pending hp live).1) hframe.style hframe.buffers
        (f := fun node => { node with pending := none }) ?_
      rw [failed, hp]
      rfl
    | _ =>
      refine all ∅ (.of_registry hframe.style hframe.buffers ?_)
      rw [failed, hp]
      rfl
  | graft pending live purpose =>
    exact node (h.sound.stands (h.sound.live pending purpose live).1) rfl rfl rfl
  | _ => exact all ∅ (.of_registry rfl rfl rfl)

theorem Drawn.ticked (h : s.Drawn stale) (now : Number) : (s.ticked now).Drawn stale :=
  h.same (h.sound.ticked now) (.of_registry rfl rfl rfl)

theorem Drawn.moves (h : s.Drawn Set.univ) (hm : Moves s t) : t.Drawn Set.univ := by
  induction hm with
  | refl => exact h
  | tail _ hmove ih => exact ih.move hmove

/-- **Buffers and trees belong together after every run**, also where operations failed. -/
theorem drawn_steps (client : Client) (settings : Settings) (root : Path) (now : Number)
    (events : List Event) : ((start client settings root now).steps events).Drawn Set.univ := by
  have hs := sound_start client settings root now
  refine steps_induction (P := fun _ t => t.Drawn Set.univ) hs
    ((drawn_start ..).mono (Set.subset_univ _)) (fun _ _ _ h => h) (fun _ _ now h => h.ticked now)
    (fun _ _ _ _ h hm => h.move hm) (fun before i request outcome h hr ho => ?_) events
  exact h.same (h.sound.arrived outcome hr ho) (.of_registry rfl rfl rfl)

end Session

end SymbolTrees
