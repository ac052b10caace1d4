import SymbolTrees.Proofs.Session.Ask
import SymbolTrees.Proofs.Session.Occurs

/-!
# Rules for operations

An operation checks what it is asked of, changes the session in one known way, and then asks the
server or draws a tree. So how it ends is told from how it ends on each of the ways that it can
take, and what is told of operations later need not look into them again.
-/

namespace SymbolTrees.Session

variable {s : Session} {id : TreeId} {ref : NodeRef} {E : Fault → Session → Prop}

/-! ### New trees -/

section New

variable {handle : Int} {root : Node} {direction : Direction} {uri : Option Text} {kind : TreeKind}
  {Q : TreeId → Session → Prop}

theorem make_of_kind? (hk : direction.kind? = some kind) : Tree.make handle root direction uri =
    .ok ⟨handle, { root with depth := 0 }, direction, uri, false, false, [], [], []⟩ := by
  rw [Tree.make, Direction.kind_of_kind? hk]
  rfl

theorem ends_newHandle {Q : Int → Session → Prop} (h : Q s.registry.nextHandle
      { s with registry := { s.registry with nextHandle := s.registry.nextHandle + 1 } }) :
    (onRegistry Registry.newHandle).Ends s Q E := h

/-- What is done with a new tree: it is drawn, and asked for before if it is to be. -/
def present (asks : Bool) (new : TreeId) : SessionM TreeId := do
  if asks then
    let _ ← askChildren new ((← get).rootOf new) none
  let _ ← render new
  pure new

theorem present_true (new : TreeId) : present true new = (do
    let _ ← askChildren new ((← get).rootOf new) none
    let _ ← render new
    pure new) := rfl

/-- A tree of calls is planted on its item. -/
theorem ends_openCalls {item : CallItem} {direction : CallDirection}
    (planted : Action.Ends (putTree ⟨s.registry.nextHandle, .leaf (.call item) 0 [],
        .calls direction, none, false, false, [], [], []⟩ >>= present true)
      { s with registry := { s.registry with nextHandle := s.registry.nextHandle + 1 } } Q E) :
    (openCalls item (.calls direction)).Ends s Q E := by
  unfold openCalls
  refine Action.Ends.bind (x := onRegistry Registry.newHandle) (ends_newHandle ?_)
  refine .bindFault (fun root hroot => ?_) fun _ he => (by cases he)
  obtain rfl := Except.ok.inj hroot
  have hkind : (Direction.calls direction).kind? = some .calls := rfl
  rw [make_of_kind? hkind]
  exact .bind (.lift planted)

/-- The outline of a document is planted on the root that was made. -/
theorem ends_openOutline {uri : Text} {root : Except Fault Node}
    (failed : ∀ e, root = .error e → E e
      { s with registry := { s.registry with nextHandle := s.registry.nextHandle + 1 } })
    (planted : ∀ node, root = .ok node → Action.Ends (putTree ⟨s.registry.nextHandle,
        { node with depth := 0 }, .outline, some uri, false, false, [], [], []⟩ >>= present false)
      { s with registry := { s.registry with nextHandle := s.registry.nextHandle + 1 } } Q E) :
    (openOutline uri root).Ends s Q E := by
  unfold openOutline
  refine .bind (ends_newHandle (.bindFault (fun node hnode => ?_) failed))
  have hkind : Direction.outline.kind? = some .outline := rfl
  rw [make_of_kind? hkind]
  exact .bind (.lift (planted node hnode))

/-- A copy of the node is planted if the direction of its tree is known. It is to be asked for if
nothing is known below it. -/
theorem focus_rule (absent : ¬s.Member id ref → ∀ what : Missing, E what.fault s)
    (unknown : ∀ e, (s.tree id).direction.kind = .error e → E e
      { s with registry := { s.registry with nextHandle := s.registry.nextHandle + 1 } })
    (planted : ∀ kind, (s.tree id).direction.kind? = some kind → s.Member id ref →
      Action.Ends (putTree ⟨s.registry.nextHandle,
        { (s.node ref).copy 0 with depth := 0 }, (s.tree id).direction, (s.tree id).uri, false,
          false, [], [], []⟩ >>= present ((s.tree id).isCallTree && !(s.node ref).isResolved))
      { s with registry := { s.registry with nextHandle := s.registry.nextHandle + 1 } } Q E) :
    (focus id ref).Ends s Q E := by
  unfold focus
  refine .bind (checks_member.mono ?_ fun e t he => ?_)
  · rintro _ s ⟨rfl, hm⟩
    refine .bind (ends_newHandle (.bind (.get ?_)))
    change Action.Ends (liftM (Tree.make s.registry.nextHandle ((s.node ref).copy 0)
      (s.tree id).direction (s.tree id).uri) >>= _) _ _ _
    cases hk : (s.tree id).direction.kind? with
    | none =>
      have hmake : Tree.make s.registry.nextHandle ((s.node ref).copy 0) (s.tree id).direction
          (s.tree id).uri = .error (.unknownDirection (s.tree id).direction.text) := by
        rw [Tree.make, Direction.kind, hk]
        rfl
      rw [hmake]
      refine .bind (unknown _ ?_)
      rw [Direction.kind, hk]
      rfl
    | some kind =>
      have hplanted := planted kind hk hm
      rw [← Node.copy_isResolved 0] at hplanted
      rw [make_of_kind? hk]
      exact .bind (.lift hplanted)
  · obtain ⟨rfl, ⟨what, rfl⟩, hm⟩ := he
    exact absent hm what

theorem ends_focus (h : s.Sound) (absent : ¬s.Member id ref → ∀ what : Missing, E what.fault s)
    (planted : s.Member id ref → Action.Ends (putTree ⟨s.registry.nextHandle,
        { (s.node ref).copy 0 with depth := 0 }, (s.tree id).direction, (s.tree id).uri, false,
          false, [], [], []⟩ >>= present ((s.tree id).isCallTree && !(s.node ref).isResolved))
      { s with registry := { s.registry with nextHandle := s.registry.nextHandle + 1 } } Q E) :
    (focus id ref).Ends s Q E := by
  obtain ⟨kind, hk⟩ : ∃ kind, (s.tree id).direction.kind? = some kind := (h.grown id).known
  refine focus_rule absent (fun e he => ?_) fun _ _ hm => planted hm
  rw [Direction.kind_of_kind? hk] at he
  cases he

end New

/-! ### What a user asks for -/

/-- What is known below the node is shown, or else it is asked for. -/
theorem expand_rule {Q : Option Token → Session → Prop}
    (absent : ¬s.Member id ref → ∀ what : Missing, E what.fault s)
    (idle : s.Member id ref → (s.node ref).expanded → Q none s)
    (opened : s.Member id ref →
      (s.node ref).children ≠ [] ∨ (s.node ref).payload.callItem? = none →
        (render id).Ends (s.unfolded ref true) (fun _ t => Q none t) E)
    (asked : s.Member id ref → (s.node ref).children = [] →
      (s.node ref).payload.callItem? ≠ none → (askChildren id ref none).Ends s Q E) :
    (expand id ref).Ends s Q E := by
  unfold expand
  refine .bind (checks_member.mono ?_ fun e t he => ?_)
  · rintro _ s ⟨rfl, hm⟩
    refine .bind (.get ?_)
    dsimp only
    split
    · rename_i hknown
      split
      · refine .bind (.modify (.bind ((opened hm ?_).mono (fun _ _ h => .pure h) fun _ _ h => h)))
        simpa using hknown
      · rename_i hexpanded
        exact .pure (idle hm (by simpa using hexpanded))
    · rename_i hunknown
      obtain ⟨hleaf, hitem⟩ : (s.node ref).children = [] ∧ (s.node ref).payload.callItem? ≠ none := by
        simpa using hunknown
      split
      · rename_i hexpanded
        exact .pure (idle hm hexpanded)
      · exact asked hm hleaf hitem
  · obtain ⟨rfl, ⟨what, rfl⟩, hm⟩ := he
    exact absent hm what

/-- In a sound session the nodes of trees of calls have items, and no others. -/
theorem ends_expand (h : s.Sound) {Q : Option Token → Session → Prop}
    (absent : ¬s.Member id ref → ∀ what : Missing, E what.fault s)
    (idle : s.Member id ref → (s.node ref).expanded → Q none s)
    (opened : s.Member id ref →
      (s.node ref).children ≠ [] ∨ (s.node ref).payload.callItem? = none →
        (render id).Ends (s.unfolded ref true) (fun _ t => Q none t) E)
    (asked : s.Member id ref → (s.node ref).children = [] →
      (s.tree id).direction.calls?.isSome → (askChildren id ref none).Ends s Q E) :
    (expand id ref).Ends s Q E := by
  refine expand_rule absent idle opened fun hm hleaf hitem => asked hm hleaf ?_
  rw [← (h.fits (hm.occurs h)).item]
  exact Option.isSome_iff_ne_none.2 hitem

/-- The request for what is below the node is given up, and the node is closed if it is open. `P`
tells what giving up comes to. -/
theorem collapse_rule {P : Session → Prop} {Q : Unit → Session → Prop}
    (gives : (giveUp ref).Ends s (fun _ t => P t) fun _ _ => False)
    (absent : ¬s.Member id ref → ∀ what : Missing, E what.fault s)
    (root : s.Member id ref → (s.node ref).depth = 0 → E (.refused .fixedRoot) s)
    (idle : ∀ t, P t → s.Member id ref → (s.node ref).expanded = false → Q () t)
    (closed : ∀ t, P t → s.Member id ref →
      (render id).Ends (t.unfolded ref false) (fun _ u => Q () u) E) :
    (collapse id ref).Ends s Q E := by
  unfold collapse
  refine .bind (checks_member.mono ?_ fun e t he => ?_)
  · rintro _ s ⟨rfl, hm⟩
    refine .bind (.get ?_)
    dsimp only
    split
    · rename_i hdepth
      exact .bind (.throw (root hm hdepth))
    · refine .bind (gives.mono ?_ fun _ _ h => h.elim)
      intro _ t ht
      split
      · exact .bind (.modify (.bind ((closed t ht hm).mono (fun _ _ h => .pure h) fun _ _ h => h)))
      · rename_i hexpanded
        exact .pure (idle t ht hm (by simpa using hexpanded))
  · obtain ⟨rfl, ⟨what, rfl⟩, hm⟩ := he
    exact absent hm what

theorem ends_collapse (h : s.Sound) {Q : Unit → Session → Prop}
    (absent : ¬s.Member id ref → ∀ what : Missing, E what.fault s)
    (root : s.Member id ref → (s.node ref).depth = 0 → E (.refused .fixedRoot) s)
    (idle : s.Member id ref → (s.node ref).expanded = false → Q () (s.givenUp ref))
    (closed : s.Member id ref →
      (render id).Ends ((s.givenUp ref).unfolded ref false) (fun _ t => Q () t) E) :
    (collapse id ref).Ends s Q E := by
  refine collapse_rule (ends_giveUp h ref) absent root ?_ ?_
  · rintro _ rfl
    exact idle
  · rintro _ rfl
    exact closed

theorem ends_toggle {Q : Option Token → Session → Prop}
    (closes : (s.node ref).expanded → 0 < (s.node ref).depth →
      (collapse id ref).Ends s (fun _ t => Q none t) E)
    (opens : (expand id ref).Ends s Q E) : (toggle id ref).Ends s Q E := by
  unfold toggle
  refine .bind (.get ?_)
  dsimp only
  split
  · rename_i hopen
    obtain ⟨hexpanded, hdepth⟩ : (s.node ref).expanded ∧ 0 < (s.node ref).depth := by
      simpa using hopen
    exact .bind ((closes hexpanded hdepth).mono (fun _ _ h => .pure h) fun _ _ h => h)
  · exact opens

section Turn

variable {direction : CallDirection}

/-- A tree turned round, once the request of its root is given up. -/
def turnedRound (s : Session) (id : TreeId) (direction : CallDirection) : Session :=
  { s.givenUp (s.rootOf id) with
    registry := (s.givenUp (s.rootOf id)).registry.update id fun t => t.turned direction.flip }

theorem isOpen_turnedRound (h : s.Sound) (ho : s.isOpen id) :
    (s.turnedRound id direction).isOpen id := by
  rw [isOpen, turnedRound, Registry.isOpen_update rfl rfl]
  exact (member_givenUp h (member_rootOf ho)).isOpen

theorem tree_turnedRound (h : s.Sound) (ho : s.isOpen id) : (s.turnedRound id direction).tree id =
    { s.tree id with root := { (s.tree id).root with pending := none } }.turned direction.flip := by
  have hm := member_givenUp h (member_rootOf ho)
  rw [← tree_givenUp_root h ho]
  exact Registry.tree_update_self ((h.givenUp (member_rootOf ho)).registry.lt_of_isOpen hm.isOpen)

/-- An open tree of calls whose root has an item is turned round, and then its first level is asked
for anew. `P` tells what giving up comes to. -/
theorem switchDirection_rule {P : Session → Prop} {Q : Option Token → Session → Prop}
    (gives : (giveUp (s.rootOf id)).Ends s (fun _ t => P t) fun _ _ => False)
    (absent : ¬s.isOpen id → ∀ what : Missing, E what.fault s)
    (outline : (s.tree id).direction.calls? = none → E (.refused .outlineSwitch) s)
    (bare : ∀ direction, (s.tree id).direction = .calls direction →
      (s.tree id).root.payload.callItem? = none →
        E (.refused (.noCallRoot (s.tree id).root.name)) s)
    (turned : ∀ t, P t → ∀ direction, s.isOpen id → (s.tree id).direction = .calls direction →
      (s.tree id).root.payload.callItem? ≠ none →
      ∀ u, u = { t with registry := t.registry.update id fun t => t.turned direction.flip } →
        Action.Ends (do
          let token ← askChildren id (u.rootOf id) none
          let _ ← render id
          pure token) u Q E) :
    (switchDirection id).Ends s Q E := by
  unfold switchDirection
  refine .bind (checks_open.mono ?_ fun e t he => ?_)
  · rintro _ s ⟨rfl, ho⟩
    refine .bind (.get ?_)
    dsimp only
    rw [Tree.isCallTree]
    cases hc : (s.tree id).direction.calls? with
    | none => exact .bind (.throw (outline hc))
    | some direction =>
      have hd := Direction.eq_of_calls? hc
      cases hitem : (s.tree id).root.payload.callItem? with
      | none => exact .bind (.throw (bare direction hd hitem))
      | some item =>
        rw [hd]
        refine .bind (.get (.bind (gives.mono ?_ fun _ _ h => h.elim)))
        intro _ t ht
        refine .bind (.modify (.bind (.lift (.bind (.modify ?_)))))
        dsimp only
        rw [Registry.update_update]
        refine .bind (.get (turned t ht direction ho hd ?_ _ rfl))
        rw [hitem]
        exact Option.some_ne_none item
  · obtain ⟨rfl, ⟨what, rfl⟩, ho⟩ := he
    exact absent ho what

/-- The root of a tree of calls of a sound session has an item, so that this is checked in vain. -/
theorem ends_switchDirection (h : s.Sound) {Q : Option Token → Session → Prop}
    (absent : ¬s.isOpen id → ∀ what : Missing, E what.fault s)
    (outline : (s.tree id).direction.calls? = none → E (.refused .outlineSwitch) s)
    (turned : ∀ direction, s.isOpen id → (s.tree id).direction = .calls direction →
      Action.Ends (do
        let token ← askChildren id ((s.turnedRound id direction).rootOf id) none
        let _ ← render id
        pure token) (s.turnedRound id direction) Q E) :
    (switchDirection id).Ends s Q E := by
  refine switchDirection_rule (ends_giveUp h _) absent outline (fun direction hd hbare => ?_) ?_
  · have hitem : (s.tree id).root.payload.callItem?.isSome = (s.tree id).direction.calls?.isSome :=
      (h.grown id).fits.root.item
    rw [hbare, hd] at hitem
    cases hitem
  · rintro _ rfl direction ho hd - _ rfl
    exact turned direction ho hd

end Turn

/-- Trees are drawn anew one after another, if they are open; `I` tells what holds while some are
left. -/
theorem ends_redrawing {I : List TreeId → Session → Prop} {ids : List TreeId} (hs : I ids s)
    (closed : ∀ id rest t, I (id :: rest) t → ¬t.isOpen id → I rest t)
    (drawn : ∀ id rest t, I (id :: rest) t → t.isOpen id →
      (render id).Ends t (fun _ u => I rest u) E) :
    Action.Ends (ids.forM fun id => do if (← get).isOpen id then let _ ← render id) s
      (fun _ t => I [] t) E := by
  refine .forM (fun id rest t ht => .bind (.get ?_)) hs
  split
  · rename_i ho
    exact .bind ((drawn id rest t ht ho).mono (fun _ _ h => .pure h) fun _ _ h => h)
  · rename_i ho
    exact .pure (closed id rest t ht ho)

/-- A node is looked at, and nothing is done. -/
theorem ends_jump : (jump id ref).Ends s (fun _ t => t = s)
    fun e t => t = s ∧ e.isUnaskable = false := by
  unfold jump
  refine .bind (checks_member.mono ?_ ?_)
  · rintro _ s ⟨rfl, -⟩
    refine .bind (.get ?_)
    dsimp only
    split
    · exact .pure rfl
    · exact .throw ⟨rfl, rfl⟩
  · rintro e t ⟨rfl, ⟨what, rfl⟩, -⟩
    exact ⟨rfl, what.fault_isUnaskable⟩

theorem ends_details : (details id ref).Ends s (fun _ t => t = s)
    fun e t => t = s ∧ e.isUnaskable = false := by
  unfold details
  refine .bind (checks_member.mono ?_ ?_)
  · rintro _ s ⟨rfl, -⟩
    refine .bind (.get (.bindRead (fun detail _ => ?_) fun e _ => ⟨rfl, rfl⟩))
    cases (s.node ref).payload.location? (s.tree id).uri false with
    | none => exact .pure rfl
    | some location =>
      refine .bind (.bind (.bindRead (fun place _ => ?_) fun e _ => ⟨rfl, rfl⟩))
      split
      · exact .pure (.pure rfl)
      · exact .throw ⟨rfl, rfl⟩
  · rintro e t ⟨rfl, ⟨what, rfl⟩, -⟩
    exact ⟨rfl, what.fault_isUnaskable⟩

/-- The most recent tree of a kind is shown or hidden, if there is one. -/
theorem ends_toggleHidden {name : Text} {Q : Option TreeId → Session → Prop}
    (unknown : ∀ e, TreeKind.ofText name = .error e → E e s) (absent : Q none s)
    (recent : ∀ kind id, TreeKind.ofText name = .ok kind → s.registry.get? kind = some id →
      (setHidden (s.tree id).handle !(s.tree id).hidden).Ends s (fun a t => Q (some a) t) E) :
    (toggleHidden name).Ends s Q E := by
  unfold toggleHidden
  refine .bindFault (fun kind hk => .bind (.get ?_)) unknown
  split
  · exact .pure absent
  · rename_i id hid
    rw [map_eq_pure_bind]
    exact .bind ((recent kind id hk hid).mono (fun _ _ h => .pure h) fun _ _ h => h)

end SymbolTrees.Session
