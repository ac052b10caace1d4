import SymbolTrees.Proofs.Session.Economy
import SymbolTrees.Proofs.Session.Serve

/-!
# What is done with reports

When a session is drained, its user is told of every failure, a tree is opened for the items and for
the symbols of an answer, and the trees that grew are drawn anew. All that is said in one relation
(`Enacts`), which is built up report by report and tree by tree. Where it cannot be done, one of
four things is the reason (`Thwarts`).
-/

namespace SymbolTrees

/-- A tree that is to be opened. -/
structure Plan where
  root : Node
  direction : Direction
  uri : Option Text

/-- The tree that a request opens. -/
def Resolution.plan? (r : Resolution) : Option Plan :=
  match r.result, r.purpose with
  | .items (item :: _), .openCalls _ direction =>
    some ⟨.leaf (.call item) 0 [], .calls direction, none⟩
  | .symbols symbols, .openOutline uri =>
    match Node.outlineOfJson uri (.arr symbols) with
    | .ok root => some ⟨{ root with depth := 0 }, .outline, some uri⟩
    | .error _ => none
  | _, _ => none

namespace Session

variable {s t u : Session} {id : TreeId} {plan : Plan} {plans more : List Plan}
  {notes later : List Note} {results : List Resolution} {r : Resolution} {stale : Set TreeId}

/-- An open tree is as it was planned; it may wait for its first level. -/
structure Hosts (s : Session) (id : TreeId) (plan : Plan) : Prop where
  isOpen : s.isOpen id
  root : (s.tree id).root.idle = plan.root.idle
  direction : (s.tree id).direction = plan.direction
  uri : (s.tree id).uri = plan.uri

/-- A tree is what it was but for its maps. -/
structure Remains (s t : Session) (id : TreeId) : Prop where
  root : (t.tree id).root = (s.tree id).root
  frame : (t.tree id).frame = (s.tree id).frame
  isOpen : t.isOpen id = s.isOpen id

theorem Remains.refl (s : Session) (id : TreeId) : Remains s s id := ⟨rfl, rfl, rfl⟩

theorem Remains.trans (h : Remains s t id) (h' : Remains t u id) : Remains s u id :=
  ⟨h'.root.trans h.root, h'.frame.trans h.frame, h'.isOpen.trans h.isOpen⟩

theorem Hosts.remains (h : s.Hosts id plan) (hl : Remains s t id) : t.Hosts id plan where
  isOpen := hl.isOpen ▸ h.isOpen
  root := hl.root ▸ h.root
  direction := (congrArg (·.2.1) hl.frame).trans h.direction
  uri := (congrArg (·.2.2.1) hl.frame).trans h.uri

/-- The planned trees were opened in their order and no others, the user was told the notes, and the
trees that were there are as they were but for their maps. -/
structure Enacts (s : Session) (plans : List Plan) (notes : List Note) (t : Session) : Prop where
  moves : Moves s t
  told : t.journal.notes = s.journal.notes ++ notes
  length : t.registry.trees.length = s.registry.trees.length + plans.length
  remains : ∀ id < s.registry.trees.length, Remains s t id
  hosts : ∀ i plan, plans[i]? = some plan → t.Hosts (s.registry.trees.length + i) plan

namespace Enacts

theorem refl (s : Session) : s.Enacts [] [] s where
  moves := .refl
  told := (List.append_nil _).symm
  length := rfl
  remains id _ := .refl s id
  hosts _ _ hi := by cases hi

theorem trans (h : s.Enacts plans notes t) (h' : t.Enacts more later u) :
    s.Enacts (plans ++ more) (notes ++ later) u := by
  refine ⟨h.moves.trans h'.moves, ?_, ?_, fun id hlt => ?_, fun i plan hi => ?_⟩
  · rw [h'.told, h.told, List.append_assoc]
  · rw [h'.length, h.length, List.length_append, Nat.add_assoc]
  · exact (h.remains id hlt).trans (h'.remains id (h.length ▸ Nat.lt_add_right _ hlt))
  · by_cases hlt : i < plans.length
    · rw [List.getElem?_append_left hlt] at hi
      exact (h.hosts i plan hi).remains (h'.remains _ (h.length ▸ Nat.add_lt_add_left hlt _))
    · have hle := Nat.le_of_not_lt hlt
      rw [List.getElem?_append_right hle] at hi
      have hhosts := h'.hosts _ plan hi
      rw [h.length, Nat.add_assoc, Nat.add_sub_cancel' hle] at hhosts
      exact hhosts

/-- What is given does not change. -/
theorem given (h : s.Enacts plans notes t) :
    t.settings = s.settings ∧ t.client = s.client ∧ t.now = s.now := by
  have hmoves := h.moves
  clear h
  induction hmoves with
  | refl => exact ⟨rfl, rfl, rfl⟩
  | tail _ hm ih =>
    obtain ⟨hsettings, hclient, hnow⟩ := hm.given
    exact ⟨hsettings.trans ih.1, hclient.trans ih.2.1, hnow.trans ih.2.2⟩

/-- The user is told something. -/
theorem notify (s : Session) (urgency : Urgency) (message : Text) :
    s.Enacts [] [⟨urgency, message⟩] { s with journal := s.journal.notify urgency message } where
  moves := .single (.journal ..)
  told := rfl
  length := rfl
  remains _ _ := ⟨rfl, rfl, rfl⟩
  hosts _ _ hi := by cases hi

/-- A tree is drawn. -/
theorem shown (h : s.Enacts plans notes t) (ho : t.isOpen id) {view : View}
    (hv : View.ofTree (t.tree id) t.style = .ok view) : s.Enacts plans notes (t.shown id view) := by
  have hstep : t.Enacts [] [] (t.shown id view) := by
    refine ⟨.single (.draw ho hv), (List.append_nil _).symm, ?_, fun other _ => ⟨?_, ?_, ?_⟩,
      fun _ _ hi => by cases hi⟩
    · exact List.length_modify ..
    · exact root_shown t id view
    · exact frame_shown view other
    · exact isOpen_shown t id view
  simpa using h.trans hstep

/-- The first level of a tree that was opened is asked for. -/
theorem asked (h : s.Enacts [plan] [] t) {ref : NodeRef} {token : Option Token}
    (hr : t.Stands ref) (htree : ref.tree = s.registry.trees.length)
    (hasks : Asks t s.registry.trees.length ref token u) : s.Enacts [plan] [] u := by
  cases hasks with
  | known => exact h
  | @sent direction item deadline askable timely =>
    have hmove := h.moves.tail (.ask askable timely)
    generalize hu : ((t.awaiting ref).entered t.nextToken _ deadline).posted t.nextToken false _ = u
      at hmove ⊢
    have hregistry : u.registry = (t.awaiting ref).registry := by
      rw [← hu]
      rfl
    have hopen (other : TreeId) : u.isOpen other = t.isOpen other := by
      rw [Session.isOpen, hregistry]
      exact Registry.isOpen_updateNode
    refine ⟨hmove, ?_, ?_, fun other hlt => ?_, fun i plan' hi => ?_⟩
    · rw [← hu]
      exact h.told
    · rw [hregistry]
      exact (List.length_modify ..).trans h.length
    · have hsame : u.tree other = t.tree other := by
        rw [Session.tree, hregistry]
        exact Registry.tree_update_of_ne (htree ▸ Nat.ne_of_lt hlt)
      refine (h.remains other hlt).trans ⟨?_, ?_, hopen other⟩ <;> rw [hsame]
    · have hhosts := h.hosts i plan' hi
      obtain rfl : i = 0 := by
        have hlt := (List.getElem?_eq_some_iff.1 hi).1
        simpa using hlt
      have hframe : (u.tree s.registry.trees.length).frame =
          (t.tree s.registry.trees.length).frame := by
        rw [Session.tree, hregistry]
        exact Registry.tree_update_of_keeps Tree.frame (Tree.frame_modify hr.current)
      have hkeeps : Keeps ∅ t u := by
        refine .of_updateNode (f := fun node => { node with pending := some t.nextToken }) hr ?_ ?_
          hregistry (.inr fun m => m.idle_pending _) <;> rw [← hu] <;> rfl
      refine ⟨(hopen _).trans hhosts.isOpen, ?_, ?_, ?_⟩
      · exact (hkeeps.nodes _ (Set.notMem_empty _)).1.trans hhosts.root
      · exact (congrArg (·.2.1) hframe).trans hhosts.direction
      · exact (congrArg (·.2.2.1) hframe).trans hhosts.uri

end Enacts

/-- A tree is planted as it was planned. -/
theorem Plants.enacts {tree : Tree} (h : s.Plants s.registry.trees.length tree t)
    (hroot : tree.root = plan.root) (hdirection : tree.direction = plan.direction)
    (huri : tree.uri = plan.uri) : s.Enacts [plan] [] t := by
  refine ⟨h.moves, h.notes.trans (List.append_nil _).symm, h.length, fun id hlt => ?_,
    fun i plan' hi => ?_⟩
  · obtain ⟨htree, hopen⟩ := h.others id hlt
    exact ⟨by rw [htree], by rw [htree], hopen⟩
  · cases i with
    | succ i => simp at hi
    | zero =>
      obtain rfl : plan = plan' := by simpa using hi
      exact ⟨h.isOpen, by rw [Nat.add_zero, h.tree, hroot], by rw [Nat.add_zero, h.tree, hdirection],
        by rw [Nat.add_zero, h.tree, huri]⟩

/-! ### Reports one by one -/

/-- Why it cannot be done what reports lead to: symbols are none, the deadline of the request for the
first level of a tree cannot be told, a recording cannot be asked for it, or a tree that is new or
that grew cannot be drawn. -/
inductive Thwarts (s : Session) (results : List Resolution) (t : Session) : Prop where
  | outline {r : Resolution} {uri : Text} {symbols : List Json} {e : Fault} (reported : r ∈ results)
    (purpose : r.purpose = .openOutline uri) (result : r.result = .symbols symbols)
    (unreadable : Node.outlineOfJson uri (.arr symbols) = .error e)
  | untimely {r : Resolution} {request : Server.Request} {reason : Malformed}
    (reported : r ∈ results) (opening : r.opening? = some request)
    (late : s.now.add s.settings.timeout = .error reason)
  | baffled {r : Resolution} {request : Server.Request} (reported : r ∈ results)
    (opening : r.opening? = some request) (baffled : s.client.Baffled request)
  | undrawn {id : TreeId} {reason : Malformed} (isOpen : t.isOpen id)
    (drawn : s.registry.trees.length ≤ id ∨ id ∈ enlarged results)
    (undrawable : View.ofTree (t.tree id) t.style = .error reason)

theorem Thwarts.after {some : List Resolution} (h : t.Thwarts some u)
    (h' : s.Enacts plans notes t) (hs : ∀ r ∈ some, r ∈ results) : s.Thwarts results u := by
  obtain ⟨hsettings, hclient, hnow⟩ := h'.given
  cases h with
  | outline reported purpose result unreadable =>
    exact .outline (hs _ reported) purpose result unreadable
  | untimely reported opening late =>
    exact .untimely (hs _ reported) opening (hnow ▸ hsettings ▸ late)
  | baffled reported opening baffled => exact .baffled (hs _ reported) opening (hclient ▸ baffled)
  | undrawn isOpen drawn undrawable =>
    refine .undrawn isOpen (drawn.imp (fun hle => ?_) fun hm => ?_) undrawable
    · exact Nat.le_trans (h'.length ▸ Nat.le_add_right ..) hle
    · obtain ⟨r, hr, hg⟩ := List.mem_filterMap.1 hm
      exact List.mem_filterMap.2 ⟨r, hs r hr, hg⟩

/-- A tree that was opened is drawn. -/
theorem enacts_render (h : s.Enacts plans notes t) (ho : t.isOpen id)
    (hid : s.registry.trees.length ≤ id ∨ id ∈ enlarged results) :
    (render id).Ends t (fun _ u => s.Enacts plans notes u) fun _ u => s.Thwarts results u := by
  refine (ends_render ho).mono ?_ ?_
  · rintro view _ ⟨hv, rfl⟩
    exact h.shown ho hv
  · rintro e _ ⟨rfl, -, reason, hv⟩
    exact .undrawn ho hid hv

theorem enacts_openCalls (h : s.Sound) {item : CallItem} {direction : CallDirection}
    (hr : r ∈ results) (ho : r.opening? = some (.calls direction item)) :
    (openCalls item (.calls direction)).Ends s
      (fun _ t => s.Enacts [⟨.leaf (.call item) 0 [], .calls direction, none⟩] [] t)
      fun _ t => s.Thwarts results t := by
  refine ends_openCalls (ends_plant h (.call item direction) rfl fun t hp => ?_)
  have ht := h.moves hp.moves
  have hm := member_rootOf hp.isOpen
  have hwants := wants_root direction item hp.isOpen (by rw [hp.tree])
    (by rw [hp.tree]; rfl) (by rw [hp.tree]; rfl) (by rw [hp.tree]; rfl) (by rw [hp.tree]; rfl)
  have henacts : s.Enacts [⟨.leaf (.call item) 0 [], .calls direction, none⟩] [] t :=
    hp.enacts rfl rfl rfl
  obtain ⟨hsettings, hclient, hnow⟩ := henacts.given
  rw [present_true]
  refine .bind (.get (.bind ((ends_askChildren ht hm).mono ?_ ?_)))
  · intro token u hasks
    have hasked := henacts.asked (ht.stands hm) rfl hasks
    have ho : u.isOpen s.registry.trees.length := (hasked.hosts 0 _ rfl).isOpen
    exact .bind ((enacts_render hasked ho (.inl (Nat.le_refl _))).mono (fun _ _ h => .pure h)
      fun _ _ h => h)
  · intro e u hbalks
    cases hbalks with
    | refused rejection bare =>
      have hitem := (ht.fits (hm.occurs ht)).item
      have hcalls : (t.tree s.registry.trees.length).direction.calls? = some direction := by
        rw [hp.tree]
        rfl
      rcases bare with bare | bare
      · cases bare.symm.trans hcalls
      · rw [bare, hcalls] at hitem
        cases hitem
    | untimely askable late => exact .untimely hr ho (hnow ▸ hsettings ▸ late)
    | baffled askable timely baffled =>
      exact .baffled hr ho (hclient ▸ (hwants _).1 (.calls askable) ▸ baffled)

theorem enacts_openOutline (h : s.Sound) {uri : Text} {symbols : List Json}
    (hr : r ∈ results) (hp : r.purpose = .openOutline uri) (hs : r.result = .symbols symbols) :
    (openOutline uri (Node.outlineOfJson uri (.arr symbols))).Ends s
      (fun _ t => ∃ plan, r.plan? = some plan ∧ s.Enacts [plan] [] t)
      fun _ t => s.Thwarts results t := by
  refine ends_openOutline (fun e he => .outline hr hp hs he) fun root hroot => ?_
  obtain ⟨entries, hmade⟩ := outline_of_outlineOfJson hroot
  refine ends_plant h (.outline hmade) rfl fun t hplants => ?_
  have henacts : s.Enacts [⟨{ root with depth := 0 }, .outline, some uri⟩] [] t :=
    hplants.enacts rfl rfl rfl
  have hplan : r.plan? = some ⟨{ root with depth := 0 }, .outline, some uri⟩ := by
    simp only [Resolution.plan?, hp, hs, hroot]
  exact .bind ((enacts_render henacts hplants.isOpen (.inl (Nat.le_refl _))).mono
    (fun _ _ h => .pure ⟨_, hplan, h⟩) fun _ _ h => h)

/-- What a report leads to: the user is told of it, or a tree is opened, or a tree is to be drawn. -/
theorem enacts_act (h : s.Sound) (hr : r ∈ results) : (act r).Ends s
    (fun id t => id = r.grown? ∧ s.Enacts r.plan?.toList r.note?.toList t ∧
      ∀ uri symbols, r.purpose = .openOutline uri → r.result = .symbols symbols → r.plan?.isSome)
    fun _ t => s.Thwarts results t := by
  obtain ⟨token, purpose, result⟩ := r
  have bare {plan : Option Plan} (hn : ∀ symbols, result ≠ .symbols symbols) :
      ∀ uri symbols, purpose = .openOutline uri → result = .symbols symbols → plan.isSome :=
    fun _ symbols _ he => absurd he (hn symbols)
  cases result with
  | failure reason =>
    exact .bind (.modify (.pure ⟨rfl, .notify s .warning _, bare (by simp)⟩))
  | children nodes => cases purpose <;> exact .pure ⟨rfl, .refl s, bare (by simp)⟩
  | items items =>
    cases items with
    | nil => cases purpose <;> exact .pure ⟨rfl, .refl s, bare (by simp)⟩
    | cons item rest =>
      cases purpose with
      | openCalls uri direction =>
        exact .bind ((enacts_openCalls h hr rfl).mono
          (fun _ _ h => .pure ⟨rfl, h, bare (by simp)⟩) fun _ _ h => h)
      | _ => exact .pure ⟨rfl, .refl s, bare (by simp)⟩
  | symbols symbols =>
    cases purpose with
    | openOutline uri =>
      refine .bind ((enacts_openOutline h hr rfl rfl).mono ?_ fun _ _ h => h)
      rintro _ t ⟨plan, hplan, henacts⟩
      rw [hplan]
      exact .pure ⟨rfl, henacts, fun _ _ _ _ => rfl⟩
    | _ => exact .pure ⟨rfl, .refl s, fun _ _ he => by cases he⟩

/-! ### All reports -/

/-- What reports lead to, one after the other. -/
theorem enacts_acts (rest : List Resolution) (h : s.Sound) (hs : ∀ r ∈ rest, r ∈ results) :
    (rest.filterMapM act).Ends s (fun ids t => ids = rest.filterMap Resolution.grown? ∧
      s.Enacts (rest.filterMap Resolution.plan?) (rest.filterMap Resolution.note?) t ∧
        ∀ r ∈ rest, ∀ uri symbols, r.purpose = .openOutline uri → r.result = .symbols symbols →
          r.plan?.isSome) fun _ t => s.Thwarts results t := by
  induction rest generalizing s with
  | nil => exact .pure ⟨rfl, .refl s, fun _ hr => by cases hr⟩
  | cons r rest ih =>
    obtain ⟨hr, hrest⟩ := List.forall_mem_cons.1 hs
    rw [List.filterMapM_cons, filterMap_cons_toList, filterMap_cons_toList, filterMap_cons_toList]
    refine .bind ((enacts_act h hr).mono ?_ fun _ _ h => h)
    rintro _ t ⟨rfl, ht, hplanned⟩
    have hall := (ih (h.moves ht.moves) hrest).mono (F := fun _ u => s.Thwarts results u)
      (R := fun ids u => ids = rest.filterMap Resolution.grown? ∧
        s.Enacts (r.plan?.toList ++ rest.filterMap Resolution.plan?)
          (r.note?.toList ++ rest.filterMap Resolution.note?) u ∧
        ∀ r' ∈ r :: rest, ∀ uri symbols, r'.purpose = .openOutline uri →
          r'.result = .symbols symbols → r'.plan?.isSome)
      (fun _ _ hu => ⟨hu.1, ht.trans hu.2.1, List.forall_mem_cons.2 ⟨hplanned, hu.2.2⟩⟩)
      fun _ _ hu => hu.after ht fun _ hr => hr
    cases r.grown? with
    | none => exact hall
    | some id =>
      refine .bind (hall.mono ?_ fun _ _ h => h)
      rintro _ u ⟨rfl, hu⟩
      exact .pure ⟨rfl, hu⟩

/-- The trees that grew are drawn anew. -/
theorem enacts_redraw (ids : List TreeId) (h : s.Enacts plans notes t)
    (hids : ∀ id ∈ ids, id ∈ enlarged results) :
    Action.Ends (ids.forM fun id => do if (← get).isOpen id then let _ ← render id) t
      (fun _ u => s.Enacts plans notes u) fun _ u => s.Thwarts results u := by
  refine (ends_redrawing (I := fun rest u => s.Enacts plans notes u ∧
    ∀ id ∈ rest, id ∈ enlarged results) ⟨h, hids⟩ ?_ ?_).mono (fun _ _ h => h.1) fun _ _ h => h
  · exact fun id rest u hu _ => ⟨hu.1, (List.forall_mem_cons.1 hu.2).2⟩
  · rintro id rest u ⟨hu, hids⟩ ho
    obtain ⟨hid, hrest⟩ := List.forall_mem_cons.1 hids
    exact (enacts_render hu ho (.inr hid)).mono (fun _ _ hv => ⟨hv, hrest⟩) fun _ _ h => h

/-- Everything that was reported is done: the user knows of it, its tree is opened, or the tree that
grew is drawn with what it grew by. -/
structure Enacted (s : Session) (results : List Resolution) (t : Session) : Prop where
  enacts : s.Enacts (results.filterMap Resolution.plan?) (results.filterMap Resolution.note?) t
  planned : ∀ r ∈ results, ∀ uri symbols, r.purpose = .openOutline uri →
    r.result = .symbols symbols → r.plan?.isSome
  grown : ∀ id ∈ enlarged results, t.isOpen id → ∃ buffer view, t.Shows id buffer view
  opened : ∀ id, s.registry.trees.length ≤ id → t.isOpen id →
    ∃ buffer view, t.Shows id buffer view

/-- **What is reported is done in full**, unless there is a reason why it cannot be done. -/
theorem ends_conclude (h : s.Drawn Set.univ) (results : List Resolution) :
    (conclude results).Ends s (fun more t => more = results ∧ s.Enacted results t)
      fun _ t => s.Thwarts results t := by
  -- of the trees that are there none need be drawn by now
  have hold : s.Drawn {id | id < s.registry.trees.length} :=
    ⟨h.sound, h.owned, h.visible, fun id ho hn => absurd (h.sound.registry.lt_of_isOpen ho) hn⟩
  unfold conclude
  refine .bind (((enacts_acts results h.sound fun _ hr => hr).and (draws_acts hold results)).mono ?_
    fun _ _ h => h.1)
  rintro _ t ⟨⟨rfl, henacts, hplanned⟩, -, hdrawn⟩
  refine .bind (((enacts_redraw _ henacts fun id hid => List.mem_eraseDups.1 hid).and
    (draws_redraw hdrawn _)).mono ?_ fun _ _ h => h.1)
  rintro _ u ⟨henacts, hdrawn⟩
  refine .pure ⟨rfl, henacts, hplanned, fun id hid ho => hdrawn.shows ho ?_,
    fun id hle ho => hdrawn.shows ho ?_⟩
  · exact fun hm => hm.2 (List.mem_eraseDups.2 hid)
  · exact fun hm => Nat.not_lt.2 hle hm.1

end Session

end SymbolTrees
