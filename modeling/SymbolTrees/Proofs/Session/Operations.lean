import Mathlib.Data.List.Induction
import SymbolTrees.Proofs.Session.Drain
import SymbolTrees.Proofs.Session.Run
import SymbolTrees.Proofs.Slots

/-!
# Operations in lockstep, one by one

Whatever a user asks for is done in lockstep to sessions that look alike. Only that an outcome
arrives is a step that a session does not take by itself.
-/

namespace SymbolTrees.Session

open SymbolTrees.Server (Outcome)

variable {dead : Token → Bool} {s t s' t' : Session} {id : TreeId} {ref : NodeRef}

/-! ### New trees -/

section Plant

variable {handle : Int} {root : Node} {direction : Direction} {uri : Option Text} {kind : TreeKind}

/-- A tree that was planted is opened. -/
theorem ends_put {r : Registry} {tree : Tree} (hc : tree.closed = false)
    (hk : tree.direction.kind? = some kind) :
    (Registry.put r.trees.length).Ends { r with trees := r.trees ++ [tree] }
      (fun k r' => k = kind ∧ r' = r.including tree kind) fun _ _ => False := by
  have htree : ({ r with trees := r.trees ++ [tree] } : Registry).tree r.trees.length = tree := by
    simp [Registry.tree, List.getD_eq_getElem?_getD]
  rw [← htree] at hc hk
  refine (Registry.ends_put hc hk).mono ?_ fun _ _ h => h
  rintro k _ ⟨rfl, rfl⟩
  refine ⟨rfl, ?_⟩
  rw [Registry.opening, htree]
  rfl

theorem ends_onRegistry {α : Type} {act : RegistryM α} {Q : α → Registry → Prop}
    {E : Fault → Registry → Prop} (h : act.Ends s.registry Q E) :
    (onRegistry act).Ends s (fun a s' => ∃ r, Q a r ∧ s' = { s with registry := r })
      fun e s' => ∃ r, E e r ∧ s' = { s with registry := r } := by
  unfold Action.Ends onRegistry at *
  cases ha : act s.registry with
  | ok a r =>
    rw [ha] at h
    exact ⟨r, h, rfl⟩
  | error e r =>
    rw [ha] at h
    exact ⟨r, h, rfl⟩

theorem ends_putTree (tree : Tree) (hc : tree.closed = false)
    (hk : tree.direction.kind? = some kind) :
    (putTree tree).Ends s (fun id s' => id = s.registry.trees.length ∧
      s' = { s with
        registry := s.registry.including tree kind
        journal := s.journal.write .debug s!"registered {kind.text} tree {tree.handle}" })
      fun _ _ => False := by
  have hplant : (Registry.plant tree).Ends s.registry (fun id r => id = s.registry.trees.length ∧
      r = { s.registry with trees := s.registry.trees ++ [tree] }) fun _ _ => False := ⟨rfl, rfl⟩
  unfold putTree
  refine .bind ((ends_onRegistry hplant).mono ?_ fun _ _ h => h.elim fun _ h => h.1)
  rintro _ _ ⟨_, ⟨rfl, rfl⟩, rfl⟩
  refine .bind ((ends_onRegistry (ends_put hc hk)).mono ?_ fun _ _ h => h.elim fun _ h => h.1)
  rintro _ _ ⟨r, ⟨rfl, rfl⟩, rfl⟩
  exact .bind (.modify (.pure ⟨rfl, rfl⟩))

variable (h : Twins dead s t)
include h

/-- A handle is given out. -/
theorem lock_newHandle : Lock dead (onRegistry Registry.newHandle) (onRegistry Registry.newHandle)
    s t fun handle s' _ => handle = s.registry.nextHandle ∧
      s' = { s with registry := { s.registry with nextHandle := s.registry.nextHandle + 1 } } := by
  have hr := h.alike.registry
  have hs : onRegistry Registry.newHandle s = .ok s.registry.nextHandle { s with
      registry := { s.registry with nextHandle := s.registry.nextHandle + 1 } } := rfl
  have ht : onRegistry Registry.newHandle t = .ok s.registry.nextHandle { t with
      registry := { s.registry with nextHandle := s.registry.nextHandle + 1 } } := by
    rw [hr]
    rfl
  refine Action.Pair.ok hs ht ⟨⟨.single (.issue s), ?_, h.alike.withRegistry _⟩, rfl, rfl⟩
  rw [hr]
  exact .single (.issue t)

omit h in
theorem Seed.alike (ha : s.Alike dead t) (hs : Seed s direction root) : Seed t direction root := by
  cases hs with
  | call item direction => exact .call item direction
  | copy isOpen found =>
    rw [ha.tree]
    exact .copy (ha.isOpen _ ▸ isOpen) (ha.tree _ ▸ found)
  | outline made => exact .outline made

/-- A tree is planted and opened. -/
theorem lock_putTree (issued : handle < s.registry.nextHandle)
    (unused : ∀ id < s.registry.trees.length, (s.tree id).handle < handle)
    (seed : Seed s direction root) (hk : direction.kind? = some kind) :
    Lock dead (putTree ⟨handle, root, direction, uri, false, false, [], [], []⟩)
      (putTree ⟨handle, root, direction, uri, false, false, [], [], []⟩) s t fun id s' _ =>
        s'.isOpen id := by
  have hr := h.alike.registry
  have hlength := congrArg (fun r : Registry => r.trees.length) hr
  have ht := ends_putTree (s := t) ⟨handle, root, direction, uri, false, false, [], [], []⟩ rfl hk
  rw [← hlength] at ht
  apply lock_of_ends (ends_putTree _ rfl hk) ht
  rintro _ _ rfl rfl
  have unused' : ∀ id < t.registry.trees.length, (t.tree id).handle < handle := fun id hlt => by
    rw [← h.alike.tree]
    exact unused id (hlength ▸ hlt)
  refine ⟨After.written (h.move (.plant issued unused seed hk)
    (.plant (hr ▸ issued) unused' (seed.alike h.alike) hk) fun ha => ?_) h.alike.notes, ?_⟩
  · exact { ha with registry := congrArg (Registry.including · _ kind) hr }
  · exact (Registry.isOpen_including rfl unused kind).2 (.inr rfl)

end Plant

/-- What a tree is made of. -/
theorem of_make {handle : Int} {root : Node} {direction : Direction} {uri : Option Text}
    {tree : Tree} (hm : Tree.make handle root direction uri = .ok tree) :
    ∃ kind, direction.kind? = some kind ∧
      tree = ⟨handle, { root with depth := 0 }, direction, uri, false, false, [], [], []⟩ := by
  unfold Tree.make at hm
  obtain ⟨kind, hk, hm⟩ := Except.of_bind hm
  refine ⟨kind, ?_, (Except.ok.inj hm).symm⟩
  unfold Direction.kind at hk
  split at hk
  · rename_i k hk'
    obtain rfl := Except.ok.inj hk
    exact hk'
  · cases hk

theorem member_rootOf (ho : s.isOpen id) : s.Member id (s.rootOf id) :=
  ⟨ho, rfl, Tree.contains_iff.2 ⟨.inl rfl, _, rfl⟩⟩

/-- A node stays part of its tree when its request is given up. -/
theorem member_givenUp (h : s.Sound) (hm : s.Member id ref) : (s.givenUp ref).Member id ref := by
  have hs := h.stands hm
  obtain ⟨ho, rfl, -⟩ := hm
  have htree : (s.givenUp ref).tree ref.tree = (s.tree ref.tree).modify ref.place
      fun node => { node with pending := none } := by
    rw [Session.tree, registry_givenUp]
    exact Registry.tree_updateNode_self hs.planted
  refine ⟨?_, rfl, ?_⟩
  · rw [Session.isOpen, registry_givenUp, Registry.isOpen_updateNode]
    exact ho
  · rw [htree, Tree.modify_of_isCurrent hs.current, Tree.contains_iff]
    refine ⟨hs.current, ?_⟩
    rw [Node.at?_modifyAt, hs.found]
    exact ⟨_, rfl⟩

theorem tree_givenUp_root (h : s.Sound) (ho : s.isOpen id) :
    (s.givenUp (s.rootOf id)).tree id =
      { s.tree id with root := { (s.tree id).root with pending := none } } := by
  have hs := h.stands (member_rootOf ho)
  rw [Session.tree, registry_givenUp]
  apply (Registry.tree_updateNode_self hs.planted).trans
  exact Tree.modify_of_isCurrent hs.current

/-! ### What a user asks for -/

section Ask

variable (h : Twins dead s t)
include h

/-- No tree has a handle that is given out next. -/
theorem handle_lt_nextHandle (id : TreeId) (hlt : id < s.registry.trees.length) :
    (s.tree id).handle < s.registry.nextHandle := h.left.registry.issued id hlt

theorem lock_openCalls (item : CallItem) (direction : Direction) :
    Lock dead (openCalls item direction) (openCalls item direction) s t Anyhow := by
  unfold openCalls
  cases direction with
  | outline => exact Lock.throwBind h _
  | unknown name => exact Lock.throwBind h _
  | calls direction =>
    apply Lock.bind h (lock_newHandle h)
    rintro _ s' t' h' ⟨rfl, rfl⟩
    refine (Reads.liftFault _).bind h' fun root hroot => ?_
    obtain rfl := Except.ok.inj hroot
    refine (Reads.liftFault _).bind h' fun tree htree => ?_
    obtain ⟨kind, hk, rfl⟩ := of_make htree
    refine Lock.bind h' (lock_putTree h' (Int.lt_succ _) (handle_lt_nextHandle h)
      (.call item direction) hk) ?_
    intro id s t h ho
    apply Lock.get
    rw [← h.alike.rootOf]
    refine Lock.bind h (lock_askChildren h (member_rootOf ho)) fun _ _ _ h _ => ?_
    exact Lock.returns h (lock_render h id)

theorem lock_openOutline (uri : Text) {root : Except Fault Node}
    (hr : ∀ node, root = .ok node → ∃ entries, Node.outline uri entries = .ok node) :
    Lock dead (openOutline uri root) (openOutline uri root) s t Anyhow := by
  unfold openOutline
  apply Lock.bind h (lock_newHandle h)
  rintro _ s' t' h' ⟨rfl, rfl⟩
  refine (Reads.liftFault _).bind h' fun node hnode => ?_
  obtain ⟨entries, hmade⟩ := hr node hnode
  refine (Reads.liftFault _).bind h' fun tree htree => ?_
  obtain ⟨kind, hk, rfl⟩ := of_make htree
  refine Lock.bind h' (lock_putTree h' (Int.lt_succ _) (handle_lt_nextHandle h)
    (.outline hmade) hk) ?_
  intro id s t h _
  exact Lock.returns h (lock_render h id)

/-- A node is opened or closed, and the tree is drawn anew. -/
theorem lock_unfold (hm : s.Member id ref) {expanded : Bool}
    (hk : expanded = true → (s.node ref).children ≠ [] ∨ (s.node ref).payload.callItem? = none) :
    Lock dead (setExpanded ref expanded) (setExpanded ref expanded) s t Anyhow := by
  have hn := h.alike.node ref
  exact Lock.modify (h.move (.unfold hm hk) (.unfold (h.alike.member hm) (hn ▸ hk))
    fun ha => ha.unfolded ref expanded) trivial

theorem lock_expand (id : TreeId) (ref : NodeRef) :
    Lock dead (expand id ref) (expand id ref) s t Anyhow := by
  unfold expand
  refine (reads_requireMember h id ref).bind h fun _ hm => Lock.get ?_
  rw [← h.alike.node]
  dsimp only
  split
  · rename_i hknown
    split
    · refine Lock.bind h (lock_unfold h hm fun _ => ?_) fun _ _ _ h _ => ?_
      · simpa using hknown
      · exact Lock.returns h (lock_render h id)
    · exact Lock.pure h trivial
  · split
    · exact Lock.pure h trivial
    · exact lock_askChildren h hm

theorem lock_collapse (id : TreeId) (ref : NodeRef) :
    Lock dead (collapse id ref) (collapse id ref) s t Anyhow := by
  have hn := h.alike.node ref
  unfold collapse
  refine (reads_requireMember h id ref).bind h fun _ hm => Lock.get ?_
  rw [← hn]
  dsimp only
  split
  · exact Lock.throwBind h _
  apply Lock.bind h (lock_giveUp h hm)
  rintro _ s' t' h' ⟨rfl, rfl⟩
  split
  · refine Lock.bind h' (lock_unfold h' (member_givenUp h.left hm) fun he => by cases he)
      fun _ _ _ h _ => ?_
    exact Lock.returns h (lock_render h id)
  · exact Lock.pure h' trivial

theorem lock_toggle (id : TreeId) (ref : NodeRef) :
    Lock dead (toggle id ref) (toggle id ref) s t Anyhow := by
  unfold toggle
  apply Lock.get
  rw [← h.alike.node]
  dsimp only
  split
  · exact Lock.returns h (lock_collapse h id ref)
  · exact lock_expand h id ref

theorem lock_focus (id : TreeId) (ref : NodeRef) :
    Lock dead (focus id ref) (focus id ref) s t Anyhow := by
  unfold focus
  refine (reads_requireMember h id ref).bind h fun _ hm => ?_
  apply Lock.bind h (lock_newHandle h)
  rintro _ s' t' h' ⟨rfl, rfl⟩
  apply Lock.get
  rw [← h'.alike.tree, ← h'.alike.node]
  refine (Reads.liftFault _).bind h' fun tree htree => ?_
  obtain ⟨kind, hk, rfl⟩ := of_make htree
  -- A handle given out makes no difference to the nodes of the trees.
  have hseed := h'.left.seed_copy ⟨hm.isOpen, hm.tree, hm.contains⟩
  obtain ⟨-, rfl, -⟩ := hm
  refine Lock.bind h' (lock_putTree h' (Int.lt_succ _) (handle_lt_nextHandle h) hseed hk) ?_
  intro new s t h ho
  split
  · apply Lock.get
    rw [← h.alike.rootOf]
    refine Lock.bind h (lock_askChildren h (member_rootOf ho)) fun _ _ _ h _ => ?_
    exact Lock.returns h (lock_render h new)
  · exact Lock.returns h (lock_render h new)

/-- A tree is cut off below its root, and then turned round. -/
theorem Twins.turned {direction : CallDirection} (ho : s.isOpen id)
    (hd : (s.tree id).direction = .calls direction) (hidle : (s.tree id).root.pending = none) :
    After dead s t
      { s with registry := (s.registry.update id Tree.discardBelowRoot).update id fun t =>
        { t with direction := .calls direction.flip } }
      { t with registry := (t.registry.update id Tree.discardBelowRoot).update id fun t =>
        { t with direction := .calls direction.flip } } := by
  rw [Registry.update_update, Registry.update_update]
  exact h.move (.turn ho hd hidle)
    (.turn (h.alike.isOpen id ▸ ho) (h.alike.tree id ▸ hd) (h.alike.tree id ▸ hidle)) fun ha =>
    { ha with registry := congrArg (Registry.update · id _) ha.registry }

theorem lock_switchDirection (id : TreeId) :
    Lock dead (switchDirection id) (switchDirection id) s t Anyhow := by
  unfold switchDirection
  refine (reads_requireOpen h id).bind h fun _ ho => Lock.get ?_
  rw [← h.alike.tree]
  dsimp only
  split
  · exact Lock.throwBind h _
  split
  · exact Lock.throwBind h _
  rename_i hcalls _
  have hcalls : (s.tree id).direction.calls?.isSome := by
    rw [Tree.isCallTree] at hcalls
    simpa only [Bool.not_eq_true, Bool.not_eq_false'] using hcalls
  obtain ⟨direction, hd⟩ := Option.isSome_iff_exists.1 hcalls
  have hd := Direction.eq_of_calls? hd
  apply Lock.get
  rw [← h.alike.rootOf, hd]
  apply Lock.bind h (lock_giveUp h (member_rootOf ho))
  rintro _ s' t' h' ⟨rfl, rfl⟩
  have htree := tree_givenUp_root h.left ho
  have ho' := (member_givenUp h.left (member_rootOf ho)).isOpen
  have hafter := h'.turned ho' (by rw [htree]; exact hd) (by rw [htree])
  have h'' := h'.after hafter
  apply Action.Pair.modifyBind
  refine Action.Pair.bind (Q := fun d p q => d = .calls direction.flip ∧ p = _ ∧ q = _)
    ⟨rfl, rfl, rfl, rfl⟩ ?_
  rintro _ _ _ ⟨rfl, rfl, rfl⟩
  refine Action.Pair.modifyBind (Action.Pair.get ?_)
  rw [← h''.alike.rootOf]
  have hopen : Session.isOpen { s.givenUp (s.rootOf id) with
      registry := ((s.givenUp (s.rootOf id)).registry.update id Tree.discardBelowRoot).update id
        fun t => { t with direction := .calls direction.flip } } id := by
    rw [isOpen, Registry.update_update, Registry.isOpen_update rfl rfl]
    exact ho'
  have hrest := Lock.bind h'' (lock_askChildren h'' (member_rootOf hopen)) fun token _ _ h _ =>
    Lock.bind h (lock_render h id) fun _ _ _ h _ => Lock.pure (a := token) (Q := Anyhow) h trivial
  exact hrest.since hafter

theorem lock_jump (id : TreeId) (ref : NodeRef) :
    Lock dead (jump id ref) (jump id ref) s t Anyhow := by
  unfold jump
  refine (reads_requireMember h id ref).bind h fun _ hm => Lock.get ?_
  rw [← h.alike.node, ← h.alike.tree]
  dsimp only
  split
  · exact Lock.pure h trivial
  · exact Lock.throw h _

theorem lock_details (id : TreeId) (ref : NodeRef) :
    Lock dead (details id ref) (details id ref) s t Anyhow := by
  unfold details
  refine (reads_requireMember h id ref).bind h fun _ hm => Lock.get ?_
  rw [← h.alike.node, ← h.alike.tree, ← h.alike.style]
  dsimp only
  refine (Reads.lift _).bind h fun detail _ => ?_
  cases (s.node ref).payload.location? (s.tree id).uri false with
  | none => exact Lock.pure h trivial
  | some location =>
    refine Lock.bind h (Q := Anyhow) ?_ fun _ _ _ h _ => Lock.pure h trivial
    refine Lock.bind h (Q := Anyhow) ?_ fun _ _ _ h _ => Lock.pure h trivial
    refine (Reads.lift _).bind h fun place _ => ?_
    split
    · exact Lock.pure h trivial
    · exact Lock.throw h _

omit h in
/-- A tree is closed. -/
theorem ends_close {handle : Int} (slot : s.registry.slots.get? handle = some id) {kind : TreeKind}
    (hk : (s.tree id).direction.kind? = some kind) :
    (close handle).Ends s (fun a s' => a = true ∧ s' = { s with
      registry := s.registry.without handle id kind
      buffers := s.buffers.discard handle
      journal := s.journal.write .debug s!"closed {kind.text} tree {handle}" })
      fun _ _ => False := by
  unfold close
  refine .bind (.get ?_)
  rw [slot]
  refine .bind ((ends_onRegistry (Registry.ends_close slot hk)).mono ?_
    fun _ _ h => h.elim fun _ h => h.1)
  rintro _ _ ⟨_, ⟨rfl, rfl⟩, rfl⟩
  exact .bind (.modify (.bind (.modify (.pure ⟨rfl, rfl⟩))))

omit h in
/-- That there is nothing to close is told and is no failure, unless it cannot be told. -/
theorem ends_close_of_none {handle : Int} (slot : s.registry.slots.get? handle = none)
    {Q : Bool → Session → Prop} {E : Fault → Session → Prop}
    (told : (Missing.openTree handle).isTold → Q false
      { s with journal := s.journal.notify .warning (Missing.openTree handle).message })
    (untold : ¬(Missing.openTree handle).isTold → E (.malformed .tooLong) s) :
    (close handle).Ends s Q E := by
  unfold close
  refine .bind (.get ?_)
  rw [slot]
  by_cases htold : (Missing.openTree handle).isTold
  · rw [Missing.fault_of_isTold htold]
    exact .bind (.modify (.pure (told htold)))
  · rw [Missing.fault_of_not_isTold htold]
    exact .throw (untold htold)

theorem lock_close (handle : Int) : Lock dead (close handle) (close handle) s t Anyhow := by
  have hr := h.alike.registry
  cases slot : s.registry.slots.get? handle with
  | none =>
    unfold close
    apply Lock.get
    rw [← hr, slot]
    dsimp only
    split
    · exact Lock.returns h (lock_notify h _ _)
    · exact Lock.throw h _
  | some id =>
    have slot' : t.registry.slots.get? handle = some id := hr ▸ slot
    obtain ⟨kind, hk⟩ := (h.left.grown id).known
    have hk' : (t.tree id).direction.kind? = some kind := h.alike.tree id ▸ hk
    apply lock_of_ends (ends_close slot hk) (ends_close slot' hk')
    rintro _ _ rfl rfl
    have hafter := h.move (.close slot hk) (.close slot' hk') fun ha =>
      { ha with
        registry := congrArg (Registry.without · handle id kind) hr
        buffers := congrArg (Buffers.discard · handle) ha.buffers }
    exact ⟨hafter.written h.alike.notes, trivial⟩

omit h in
/-- A tree is shown or hidden. -/
theorem ends_hide {handle : Int} (slot : s.registry.slots.get? handle = some id) (hidden : Bool) :
    (setHidden handle hidden).Ends s (fun a s' => a = id ∧ s' = { s with
      registry := s.registry.update id fun t => { t with hidden := hidden }
      buffers := s.buffers.setVisible handle !hidden }) fun _ _ => False := by
  have hset : (Registry.setHidden handle hidden).Ends s.registry (fun a r => a = id ∧
      r = s.registry.update id fun t => { t with hidden := hidden }) fun _ _ => False := by
    unfold Registry.setHidden Registry.lookup
    refine .bind (.bind (.get ?_))
    rw [slot]
    exact .pure (.bind (.modify (.pure ⟨rfl, rfl⟩)))
  unfold setHidden
  refine .bind ((ends_onRegistry hset).mono ?_ fun _ _ h => h.elim fun _ h => h.1)
  rintro _ _ ⟨_, ⟨rfl, rfl⟩, rfl⟩
  exact .bind (.modify (.pure ⟨rfl, rfl⟩))

omit h in
/-- Nothing is shown or hidden that is not there. -/
theorem setHidden_of_none {handle : Int} (slot : s.registry.slots.get? handle = none)
    (hidden : Bool) : setHidden handle hidden s = .error (Missing.openTree handle).fault s := by
  have hset : (Registry.setHidden handle hidden).Ends s.registry (fun _ _ => False) fun e r =>
      e = (Missing.openTree handle).fault ∧ r = s.registry := by
    unfold Registry.setHidden Registry.lookup
    refine .bind (.bind (.get ?_))
    rw [slot]
    exact .throw ⟨rfl, rfl⟩
  apply Action.Ends.eq_error
  unfold setHidden
  refine .bind ((ends_onRegistry hset).mono (fun _ _ h => h.elim fun _ h => h.1.elim) ?_)
  rintro _ _ ⟨_, ⟨rfl, rfl⟩, rfl⟩
  exact ⟨rfl, rfl⟩

theorem lock_setHidden (handle : Int) (hidden : Bool) :
    Lock dead (setHidden handle hidden) (setHidden handle hidden) s t Anyhow := by
  have hr := h.alike.registry
  cases slot : s.registry.slots.get? handle with
  | none =>
    have slot' : t.registry.slots.get? handle = none := hr ▸ slot
    unfold Lock Action.Pair
    rw [setHidden_of_none slot, setHidden_of_none slot']
    exact ⟨rfl, h.refl⟩
  | some id =>
    have slot' : t.registry.slots.get? handle = some id := hr ▸ slot
    apply lock_of_ends (ends_hide slot hidden) (ends_hide slot' hidden)
    rintro _ _ rfl rfl
    refine ⟨h.move (.hide hidden slot) (.hide hidden slot') fun ha => ?_, trivial⟩
    exact { ha with
      registry := congrArg (Registry.update · id _) ha.registry
      buffers := congrArg (Buffers.setVisible · handle _) ha.buffers }

theorem lock_toggleHidden (kind : Text) :
    Lock dead (toggleHidden kind) (toggleHidden kind) s t Anyhow := by
  unfold toggleHidden
  refine (Reads.liftFault _).bind h fun kind _ => Lock.get ?_
  rw [← h.alike.registry]
  split
  · exact Lock.pure h trivial
  · rw [← h.alike.tree, map_eq_pure_bind]
    exact Lock.returns h (lock_setHidden h _ _)

/-! ### Pumping -/

omit h in
theorem outline_of_outlineOfJson {uri : Text} {answer : Json} {root : Node}
    (hr : Node.outlineOfJson uri answer = .ok root) :
    ∃ entries, Node.outline uri entries = .ok root := by
  unfold Node.outlineOfJson at hr
  obtain ⟨_, -, hr⟩ := Except.of_bind hr
  obtain ⟨entries, -, hr⟩ := Except.of_bind hr
  exact ⟨_, hr⟩

theorem lock_act (resolution : Resolution) :
    Lock dead (act resolution) (act resolution) s t Anyhow := by
  unfold act
  split
  · exact Lock.returns h (lock_notify h _ _)
  · exact Lock.returns h (lock_openCalls h _ _)
  · refine Lock.returns h (lock_openOutline h _ fun node hn => ?_)
    exact outline_of_outlineOfJson hn
  · exact Lock.pure h trivial
  · exact Lock.pure h trivial

omit h in
theorem lock_acts (resolutions : List Resolution) (h : Twins dead s t) :
    Lock dead (resolutions.filterMapM act) (resolutions.filterMapM act) s t Anyhow := by
  induction resolutions generalizing s t with
  | nil => exact Lock.pure h trivial
  | cons resolution rest ih =>
    rw [List.filterMapM_cons]
    refine Lock.bind h (lock_act h resolution) fun grown _ _ h _ => ?_
    cases grown with
    | none => exact ih h
    | some id => exact Lock.returns h (ih h)

omit h in
theorem lock_redraw (ids : List TreeId) (h : Twins dead s t) :
    Lock dead (ids.forM fun id => do if (← get).isOpen id then let _ ← render id)
      (ids.forM fun id => do if (← get).isOpen id then let _ ← render id) s t Anyhow := by
  induction ids generalizing s t with
  | nil => exact Lock.pure h trivial
  | cons id ids ih =>
    refine Lock.bind h (Q := Anyhow) ?_ fun _ _ _ h _ => ih h
    apply Lock.get
    rw [← h.alike.isOpen]
    split
    · exact Lock.returns h (lock_render h id)
    · exact Lock.pure h trivial

theorem lock_pump : Lock dead pump pump s t Anyhow := by
  unfold pump
  refine Lock.bind h (lock_drain h) fun resolutions _ _ h _ => ?_
  refine Lock.bind h (lock_acts resolutions h) fun grown _ _ h _ => ?_
  exact Lock.returns h (lock_redraw _ h)

end Ask

/-! ### Events -/

/-- Whether an event is something that a session does, and not the server or the clock. -/
def Event.isOwn : Event → Bool
  | .settle .. | .tick _ => false
  | _ => true

/-- **Whatever two sessions that look alike are made to do is a row of moves in both, has one
answer, and leaves sessions that look alike.** -/
theorem lock_event (h : Twins dead s t) (event : Event) (ho : event.isOwn) :
    Lock dead event.act event.act s t Anyhow := by
  cases event with
  | openCalls item direction =>
    exact Lock.returns h (lock_openCalls h item direction)
  | startCalls uri line character direction =>
    exact Lock.returns h (lock_askItems h uri line character direction)
  | openOutline uri entries =>
    exact Lock.returns h (lock_openOutline h uri fun node hn => ⟨entries, hn⟩)
  | showOutline uri answer =>
    exact Lock.returns h (lock_openOutline h uri fun node hn => outline_of_outlineOfJson hn)
  | startOutline uri =>
    exact Lock.returns h (lock_askOutline h uri)
  | expand id ref => exact Lock.returns h (lock_expand h id ref)
  | collapse id ref =>
    exact Lock.returns h (lock_collapse h id ref)
  | toggle id ref => exact Lock.returns h (lock_toggle h id ref)
  | focus id ref => exact Lock.returns h (lock_focus h id ref)
  | switchDirection id =>
    exact Lock.returns h (lock_switchDirection h id)
  | jump id ref => exact Lock.returns h (lock_jump h id ref)
  | details id ref =>
    exact Lock.returns h (lock_details h id ref)
  | render id => exact Lock.returns h (lock_render h id)
  | close handle => exact Lock.returns h (lock_close h handle)
  | setHidden handle hidden =>
    exact Lock.returns h (lock_setHidden h handle hidden)
  | toggleHidden kind =>
    exact Lock.returns h (lock_toggleHidden h kind)
  | pump => exact Lock.returns h (lock_pump h)
  | settle request outcome => cases ho
  | tick now => cases ho

/-- An outcome arrives for a request that is still open. -/
theorem settle_of_isOpen {i : Nat} {request : Sent} (hr : s.sent[i]? = some request)
    (ho : request.isOpen) (outcome : Outcome) :
    (Event.settle i outcome).act s = .ok (.done true) (s.arrived i request outcome) := by
  apply Action.Ends.eq_ok
  unfold Event.act settle
  refine .bind (.bind (.get ?_))
  rw [hr]
  dsimp only
  rw [if_pos ho]
  exact .bind (.modify (.bind (.modify (.pure (.pure ⟨rfl, rfl⟩)))))

/-- No outcome arrives twice, and none for what was never sent. -/
theorem settle_of_not_isOpen {i : Nat} (hr : ∀ request, s.sent[i]? = some request → ¬request.isOpen)
    (outcome : Outcome) : (Event.settle i outcome).act s = .ok (.done false) s := by
  apply Action.Ends.eq_ok
  unfold Event.act settle
  refine .bind (.bind (.get ?_))
  cases hi : s.sent[i]? with
  | none => exact .pure (.pure ⟨rfl, rfl⟩)
  | some request =>
    dsimp only
    rw [if_neg (hr request hi)]
    exact .pure (.pure ⟨rfl, rfl⟩)

theorem Lock.after {α : Type} {x y : SessionM α} {Q : α → Session → Session → Prop}
    (h : Lock dead x y s t Q) :
    After dead s t (x.after s) (y.after t) ∧ x.answer s = y.answer t := by
  unfold Lock Action.Pair at h
  unfold Action.after Action.answer
  cases hx : x s <;> cases hy : y t <;> rw [hx, hy] at h
  · exact ⟨h.2.1, congrArg _ h.1⟩
  · exact h.elim
  · exact h.elim
  · exact ⟨h.2, congrArg _ h.1⟩

/-- **All that a session does by itself is a row of moves.** -/
theorem Sound.moves_step (h : s.Sound) {event : Event} (ho : event.isOwn) :
    Moves s (s.step event) :=
  (lock_event (twins_self h) event ho).after.1.left

/-- After an event a session has done some moves, or an outcome has arrived, or time has gone by. -/
theorem Sound.step_cases (h : s.Sound) (event : Event) : Moves s (s.step event) ∨
    (∃ i outcome request, event = .settle i outcome ∧ s.sent[i]? = some request ∧ request.isOpen ∧
      s.step event = s.arrived i request outcome) ∨
    ∃ now, event = .tick now ∧ s.step event = s.ticked now := by
  cases event with
  | tick now => exact .inr (.inr ⟨now, rfl, rfl⟩)
  | settle i outcome =>
    by_cases hr : ∃ request, s.sent[i]? = some request ∧ request.isOpen
    · obtain ⟨request, hr, ho⟩ := hr
      refine .inr (.inl ⟨i, outcome, request, rfl, hr, ho, ?_⟩)
      rw [step, Action.after, settle_of_isOpen hr ho]
    · left
      rw [step, Action.after, settle_of_not_isOpen fun request hi ho => hr ⟨request, hi, ho⟩]
      exact .refl
  | _ => exact .inl (h.moves_step rfl)

/-- **Every event keeps a session sound.** -/
theorem Sound.step (h : s.Sound) (event : Event) : (s.step event).Sound := by
  rcases h.step_cases event with hm | ⟨i, outcome, request, rfl, hr, ho, he⟩ | ⟨now, rfl, he⟩
  · exact h.moves hm
  · rw [he]
    exact h.arrived outcome hr ho
  · rw [he]
    exact h.ticked now

theorem Sound.steps (h : s.Sound) (events : List Event) : (s.steps events).Sound := by
  induction events generalizing s with
  | nil => exact h
  | cons event events ih => exact ih (h.step event)

/-- What holds at the start and is kept by moves, arrivals and time holds after every run. It may
speak of the events so far. -/
theorem steps_induction {P : List Event → Session → Prop} (hs : s.Sound) (h : P [] s)
    (event : ∀ before event s, P before s → P (before ++ [event]) s)
    (tick : ∀ before s now, P (before ++ [.tick now]) s → P (before ++ [.tick now]) (s.ticked now))
    (move : ∀ before s t, s.Sound → P before s → Move s t → P before t)
    (arrival : ∀ before i request outcome, P (before ++ [.settle i outcome]) (s.steps before) →
      (s.steps before).sent[i]? = some request → request.isOpen →
        P (before ++ [.settle i outcome]) ((s.steps before).arrived i request outcome))
    (events : List Event) : P events (s.steps events) := by
  have moves {before : List Event} {s t : Session} (hs : s.Sound) (h : P before s)
      (hm : Moves s t) : P before t := by
    induction hm with
    | refl => exact h
    | tail hm hmove ih => exact move _ _ _ (hs.moves hm) ih hmove
  induction events using List.reverseRec with
  | nil => exact h
  | append_singleton before e ih =>
    have hp := event before e _ ih
    have hb := hs.steps before
    rw [steps_concat]
    rcases hb.step_cases e with hm | ⟨i, outcome, request, rfl, hr, ho, he⟩ | ⟨now, rfl, he⟩
    · exact moves hb hp hm
    · rw [he]
      exact arrival before i request outcome hp hr ho
    · rw [he]
      exact tick before _ now hp

end SymbolTrees.Session
