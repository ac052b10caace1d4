import SymbolTrees.Proofs.Session.Isolation
import SymbolTrees.Proofs.Session.Pumping
import SymbolTrees.Proofs.Session.Sources

/-!
# Requests echo objects

A server may put more into the object of an item than is read from it, and expects it back as it
was. It gets it back: whatever becomes of a node, its item stays what it was when it was read, and a
request for calls is only ever sent for a node and with the object of its item (`echoes_steps`).

That is told in two parts. At every event what is sent is waited for by a node after it, and trees
are planted only for items that are given, copied or answered (`Steady.voices_step`). And the item
of every node has its object from the run, that of a root since its tree was planted and that of any
other node from the answer that it came with (`Rooted.source`).
-/

namespace SymbolTrees

open SymbolTrees.Server (Request)

/-- A change of a node leaves the root what it stands for. -/
theorem Tree.payload_modify {t : Tree} {p : Place} {f : Node → Node}
    (hf : ∀ m, (f m).payload = m.payload) : (t.modify p f).root.payload = t.root.payload := by
  unfold modify
  split
  · cases p.path with
    | nil => exact hf t.root
    | cons i path => rfl
  · rfl

namespace Session

variable {s t u : Session} {id : TreeId} {ref : NodeRef} {r : Sent} {known : CallItem → Prop}
  {α : Type}

/-! ### Roots -/

/-- The root of a tree stands for what it stood for. -/
theorem Move.root_payload (hm : Move s t) (hid : id < s.registry.trees.length) :
    (t.tree id).root.payload = (s.tree id).root.payload := by
  have update {other : TreeId} {f : Tree → Tree}
      (hr : t.registry = s.registry.update other f)
      (hf : (f (s.tree other)).root.payload = (s.tree other).root.payload) :
      (t.tree id).root.payload = (s.tree id).root.payload := by
    rw [Session.tree, hr]
    exact Registry.tree_update_of_keeps (fun t => t.root.payload) hf
  have node {ref : NodeRef} {f : Node → Node} (hr : t.registry = s.registry.updateNode ref f)
      (hf : ∀ m, (f m).payload = m.payload) :
      (t.tree id).root.payload = (s.tree id).root.payload :=
    update hr (Tree.payload_modify hf)
  cases hm with
  | draw => exact update rfl rfl
  | hide => exact update rfl rfl
  | turn => exact update rfl rfl
  | close =>
    rw [Session.tree, Registry.tree_without]
    exact Registry.tree_update_of_keeps (fun t => t.root.payload) rfl
  | plant => exact congrArg (fun t => t.root.payload) (Registry.tree_including_of_lt _ _ hid)
  | ask => exact node rfl fun _ => rfl
  | askInVain => exact node rfl fun _ => rfl
  | giveUp => exact node (registry_givenUp ..) fun _ => rfl
  | unfold => exact node rfl fun _ => rfl
  | @fail inquiry =>
    cases hp : inquiry.purpose with
    | expand id ref generation direction =>
      have hr : (s.failed inquiry).registry = (s.released ref).registry := by
        rw [Session.failed, hp]
        rfl
      exact node hr fun _ => rfl
    | _ => rw [Session.failed, hp]; rfl
  | graft => exact node rfl fun _ => rfl
  | _ => rfl

theorem Sound.root_payload (h : s.Sound) (hm : Moves s t) :
    s.registry.trees.length ≤ t.registry.trees.length ∧ ∀ id < s.registry.trees.length,
      (t.tree id).root.payload = (s.tree id).root.payload := by
  induction hm with
  | refl => exact ⟨Nat.le_refl _, fun _ _ => rfl⟩
  | tail before next ih =>
    obtain ⟨hle, hsame⟩ := ih
    refine ⟨Nat.le_trans hle ((h.moves before).ages next).length, fun id hid => ?_⟩
    exact (next.root_payload (Nat.lt_of_lt_of_le hid hle)).trans (hsame id hid)

/-! ### Who waits for a request -/

/-- The request asks for the calls of the item of a node, in the direction of its tree, and the node
waits for it. -/
inductive Voiced (s : Session) (r : Sent) : Prop where
  | node {id : TreeId} {path : List Nat} {n : Node} {d : CallDirection} {item : CallItem}
    (occurs : s.Occurs id path n) (waits : n.pending = some r.token)
    (isCalls : (s.tree id).direction = .calls d) (isItem : n.payload.callItem? = some item)
    (request : r.request = .calls d item)

theorem Voiced.method (hv : s.Voiced r) : ∃ d, r.request.method = .calls d := by
  cases hv with
  | @node _ _ _ d _ _ _ _ _ request =>
    rw [request]
    exact ⟨d, rfl⟩

theorem Voiced.intact (hv : s.Voiced r) (hi : ∀ id, s.isOpen id → Intact id s t) : t.Voiced r := by
  cases hv with
  | @node id path n d item occurs waits isCalls isItem request =>
    have hsame := hi id occurs.isOpen
    have hoccurs : t.Occurs id path n := by
      refine ⟨hsame.isOpen.trans occurs.isOpen, ?_⟩
      rw [hsame.tree]
      exact occurs.found
    refine .node hoccurs waits ?_ isItem request
    rw [hsame.tree]
    exact isCalls

theorem Voiced.shown (hv : s.Voiced r) (id : TreeId) (view : View) :
    (s.shown id view).Voiced r := by
  cases hv with
  | @node other path n d item occurs waits isCalls isItem request =>
    have hoccurs : (s.shown id view).Occurs other path n := by
      refine ⟨(isOpen_shown s id view).trans occurs.isOpen, ?_⟩
      rw [root_shown]
      exact occurs.found
    exact .node hoccurs waits ((Registry.tree_update_of_keeps Tree.direction rfl).trans isCalls)
      isItem request

/-- The node that a request is sent for waits for it. -/
theorem Askable.voiced (h : s.Sound) {d : CallDirection} {item : CallItem}
    (ha : s.Askable id ref d item) (deadline : Number) :
    (((s.awaiting ref).entered s.nextToken (.expand id ref (s.tree id).generation d)
      deadline).posted s.nextToken false (.calls d item)).Voiced
        ⟨s.nextToken, false, .calls d item, s.client.isServer⟩ := by
  have hs := h.stands ha.member
  obtain rfl := ha.member.tree
  have htree : (s.awaiting ref).tree ref.tree = (s.tree ref.tree).modify ref.place
      fun node => { node with pending := some s.nextToken } :=
    Registry.tree_updateNode_self hs.planted
  have hoccurs : (s.awaiting ref).Occurs ref.tree ref.place.path
      { s.node ref with pending := some s.nextToken } := by
    refine ⟨Registry.isOpen_updateNode.trans ha.member.isOpen, ?_⟩
    rw [htree, Tree.modify_of_isCurrent hs.current]
    exact (Node.at?_modifyAt ..).trans (congrArg (Option.map _) hs.found)
  have hdirection : ((s.awaiting ref).tree ref.tree).direction = .calls d := by
    rw [htree, Tree.direction_modify]
    exact ha.direction
  exact .node ⟨hoccurs.isOpen, hoccurs.found⟩ rfl hdirection ha.item rfl

/-- For every request for calls that was sent a node waits, and the trees that were planted stand at
their roots for items that are `known`, or for none. -/
structure Voices (known : CallItem → Prop) (s t : Session) : Prop where
  sent : ∃ posts, t.sent = s.sent ++ posts ∧
    ∀ r ∈ posts, ∀ d, r.request.method = .calls d → t.Voiced r
  planted : ∀ id item, s.registry.trees.length ≤ id → id < t.registry.trees.length →
    (t.tree id).root.payload.callItem? = some item → known item

namespace Voices

theorem of_same (hs : t.sent = s.sent) (hl : t.registry.trees.length = s.registry.trees.length) :
    Voices known s t :=
  ⟨⟨[], by simp [hs], by simp⟩, fun _ _ hle hlt => absurd (hl ▸ hlt) (Nat.not_lt.2 hle)⟩

theorem refl (s : Session) : Voices known s s := .of_same rfl rfl

/-- What is asked for stays asked for as long as its node waits. -/
theorem trans (h : Voices known s t) (ht : t.Sound) (hm : Moves t u) (h' : Voices known t u)
    (hk : ∀ r, t.Voiced r → r ∈ t.sent.drop s.sent.length → u.Voiced r) : Voices known s u := by
  obtain ⟨posts, hsent, hposts⟩ := h.sent
  obtain ⟨more, hsent', hmore⟩ := h'.sent
  refine ⟨⟨posts ++ more, by rw [hsent', hsent, List.append_assoc], fun r hr d hd => ?_⟩,
    fun id item hle hlt hi => ?_⟩
  · rcases List.mem_append.1 hr with hr | hr
    · refine hk r (hposts r hr d hd) ?_
      rwa [hsent, List.drop_left]
    · exact hmore r hr d hd
  · by_cases hid : id < t.registry.trees.length
    · rw [(ht.root_payload hm).2 id hid] at hi
      exact h.planted id item hle hid hi
    · exact h'.planted id item (Nat.le_of_not_lt hid) hlt hi

/-- Nothing was sent before. -/
theorem after (h : Voices known s t) (hs : t.sent = s.sent) (ht : t.Sound) (hm : Moves t u)
    (h' : Voices known t u) : Voices known s u := by
  refine h.trans ht hm h' fun r _ hr => ?_
  rw [hs, List.drop_length] at hr
  cases hr

end Voices

/-! ### Operations -/

theorem voices_render (h : Voices known s t) (id : TreeId) :
    (render id).Ends t (fun _ u => Voices known s u) fun _ u => Voices known s u := by
  by_cases ho : t.isOpen id
  · refine (ends_render ho).mono ?_ ?_
    · rintro view _ ⟨-, rfl⟩
      obtain ⟨posts, hsent, hposts⟩ := h.sent
      refine ⟨⟨posts, hsent, fun r hr d hd => (hposts r hr d hd).shown id view⟩, ?_⟩
      intro other item hle hlt hi
      rw [root_shown] at hi
      exact h.planted other item hle (Registry.length_trees_update ▸ hlt) hi
    · rintro e _ ⟨rfl, -⟩
      exact h
  · refine .bind (checks_open.mono (fun _ _ hopen => absurd hopen.2 ho) ?_)
    rintro e _ ⟨rfl, -⟩
    exact h

/-- The nodes below a node are asked for. -/
theorem voices_askChildren (known : CallItem → Prop) (h : s.Sound) (hm : s.Member id ref) :
    (askChildren id ref none).Ends s (fun _ t => Moves s t ∧ Voices known s t)
      fun _ t => Moves s t ∧ Voices known s t := by
  have asked {d : CallDirection} {item : CallItem} (deadline : Number)
      (ha : s.Askable id ref d item) : Voices known s (((s.awaiting ref).entered s.nextToken
        (.expand id ref (s.tree id).generation d) deadline).posted s.nextToken false
          (.calls d item)) := by
    refine ⟨⟨_, rfl, fun r hr _ _ => ?_⟩, fun other i hle hlt => ?_⟩
    · obtain rfl := List.mem_singleton.1 hr
      exact ha.voiced h deadline
    · exact absurd (Registry.length_trees_update ▸ hlt) (Nat.not_lt.2 hle)
  refine (ends_askChildren h hm).mono ?_ ?_
  · intro token t hasks
    cases hasks with
    | known => exact ⟨.refl, .refl s⟩
    | sent askable timely => exact ⟨.single (.ask askable timely), asked _ askable⟩
  · intro e t hbalks
    cases hbalks with
    | refused => exact ⟨.refl, .refl s⟩
    | untimely askable late =>
      exact ⟨.single (.askInVain askable late), .of_same rfl Registry.length_trees_update⟩
    | baffled askable timely => exact ⟨.single (.ask askable timely), asked _ askable⟩

/-- The nodes below a node are asked for where nothing was sent before, and the tree is drawn. -/
theorem voices_askAndRender (ht : t.Sound) (hm : t.Member id ref) (h : Voices known s t)
    (hs : t.sent = s.sent) (f : Option Token → α) :
    Action.Ends (do
      let token ← askChildren id ref none
      let _ ← render id
      pure (f token)) t (fun _ u => Voices known s u) fun _ u => Voices known s u := by
  refine .bind ((voices_askChildren known ht hm).mono ?_ ?_)
  · rintro token u ⟨hmoves, hu⟩
    exact .bind ((voices_render (h.after hs ht hmoves hu) id).mono (fun _ _ h => .pure h)
      fun _ _ h => h)
  · rintro e u ⟨hmoves, hu⟩
    exact h.after hs ht hmoves hu

theorem voices_present (ht : t.Sound) (ho : t.isOpen id) (h : Voices known s t)
    (hs : t.sent = s.sent) (asks : Bool) : (present asks id).Ends t (fun _ u => Voices known s u)
      fun _ u => Voices known s u := by
  cases asks with
  | true =>
    rw [present_true]
    exact .bind (.get (voices_askAndRender ht (member_rootOf ho) h hs fun _ => id))
  | false => exact .bind ((voices_render h id).mono (fun _ _ h => .pure h) fun _ _ h => h)

/-- A tree is opened on a root. -/
theorem voices_opening (h : s.Sound) {root : Node} {direction : Direction} {uri : Option Text}
    {kind : TreeKind} (seed : Seed s direction root) (hk : direction.kind? = some kind)
    (hr : ∀ item, root.payload.callItem? = some item → known item) (asks : Bool) :
    (putTree ⟨s.registry.nextHandle, root, direction, uri, false, false, [], [], []⟩ >>=
      present asks).Ends
      { s with registry := { s.registry with nextHandle := s.registry.nextHandle + 1 } }
      (fun _ t => Voices known s t) fun _ t => Voices known s t := by
  refine ends_plant h seed hk fun t hp => ?_
  have hsent : t.sent = s.sent := hp.makes.sent.trans (List.append_nil _)
  refine voices_present (h.moves hp.moves) hp.isOpen ?_ hsent asks
  refine ⟨⟨[], hp.makes.sent, by simp⟩, fun id item hle hlt hi => ?_⟩
  obtain rfl : id = s.registry.trees.length := by
    rw [hp.length] at hlt
    omega
  rw [hp.tree] at hi
  exact hr item hi

theorem voices_openCalls (h : s.Sound) {item : CallItem} (hi : known item)
    (direction : Direction) : (openCalls item direction).Ends s (fun _ t => Voices known s t)
      fun _ t => Voices known s t := by
  cases direction with
  | calls direction =>
    refine ends_openCalls (voices_opening h (.call item direction) rfl ?_ true)
    rintro other hother
    rwa [← Option.some.inj hother]
  | outline => exact .bind (.throw (.refl s))
  | unknown name => exact .bind (.throw (.refl s))

/-- Nothing in an outline stands for an item. -/
theorem voices_openOutline (h : s.Sound) (uri : Text) {root : Except Fault Node}
    (hr : ∀ node, root = .ok node → ∃ entries, Node.outline uri entries = .ok node) :
    (openOutline uri root).Ends s (fun _ t => Voices known s t) fun _ t => Voices known s t := by
  refine ends_openOutline (fun _ _ => .of_same rfl rfl) fun node hnode => ?_
  obtain ⟨entries, hmade⟩ := hr node hnode
  refine voices_opening h (.outline hmade) rfl (fun item hi => ?_) false
  have hitem := (h.seed (.outline hmade)).2.1.root.item
  rw [hi] at hitem
  cases hitem

theorem voices_focus (h : s.Sound) (hi : ∀ item, s.Member id ref →
      (s.node ref).payload.callItem? = some item → known item) :
    (focus id ref).Ends s (fun _ t => Voices known s t) fun _ t => Voices known s t := by
  obtain ⟨kind, hk⟩ := (h.grown id).known
  refine ends_focus h (fun _ _ => .refl s) fun hm => ?_
  refine voices_opening h (h.seed_copy hm) hk (fun item hitem => hi item hm ?_) _
  exact (congrArg Payload.callItem? (Node.copy_payload 0 _)).symm.trans hitem

theorem voices_expand (h : s.Sound) (id : TreeId) (ref : NodeRef) :
    (expand id ref).Ends s (fun _ t => Voices known s t) fun _ t => Voices known s t := by
  refine ends_expand h (fun _ _ => .refl s) (fun _ _ => .refl s) (fun _ _ => ?_) fun hm _ _ => ?_
  · have hopened : Voices known s (s.unfolded ref true) :=
      .of_same rfl Registry.length_trees_update
    exact voices_render hopened id
  · exact (voices_askChildren known h hm).mono (fun _ _ h => h.2) fun _ _ h => h.2

/-- To give a request up sends nothing. -/
theorem sent_givenUp (ref : NodeRef) : (s.givenUp ref).sent = s.sent :=
  (Makes.givenUp s ref).sent.trans (List.append_nil _)

theorem length_trees_givenUp (ref : NodeRef) :
    (s.givenUp ref).registry.trees.length = s.registry.trees.length := by
  rw [registry_givenUp]
  exact Registry.length_trees_update

theorem voices_collapse (h : s.Sound) (id : TreeId) (ref : NodeRef) :
    (collapse id ref).Ends s (fun _ t => Voices known s t) fun _ t => Voices known s t := by
  refine ends_collapse h (fun _ _ => .refl s) (fun _ _ => .refl s)
    (fun _ _ => .of_same (sent_givenUp ref) (length_trees_givenUp ref)) fun _ => ?_
  have hclosed : Voices known s ((s.givenUp ref).unfolded ref false) :=
    .of_same (sent_givenUp ref) (Registry.length_trees_update.trans (length_trees_givenUp ref))
  exact voices_render hclosed id

theorem voices_toggle (h : s.Sound) (id : TreeId) (ref : NodeRef) :
    (toggle id ref).Ends s (fun _ t => Voices known s t) fun _ t => Voices known s t :=
  ends_toggle (fun _ _ => voices_collapse h id ref) (voices_expand h id ref)

theorem voices_switchDirection (h : s.Sound) (id : TreeId) :
    (switchDirection id).Ends s (fun _ t => Voices known s t) fun _ t => Voices known s t := by
  refine ends_switchDirection h (fun _ _ => .refl s) (fun _ => .refl s) fun d ho hd => ?_
  obtain ⟨hturn, -⟩ := moves_switchDirection h ho hd
  have hturned := (h.givenUp (member_rootOf ho)).move hturn
  have hsent : (s.turnedRound id d).sent = s.sent := sent_givenUp (s.rootOf id)
  have hlength : (s.turnedRound id d).registry.trees.length = s.registry.trees.length :=
    Registry.length_trees_update.trans (length_trees_givenUp (s.rootOf id))
  exact voices_askAndRender hturned (member_rootOf (isOpen_turnedRound h ho))
    (.of_same hsent hlength) hsent fun token => token

theorem voices_close (h : s.Sound) (handle : Int) :
    (close handle).Ends s (fun _ t => Voices known s t) fun _ t => Voices known s t := by
  cases slot : s.registry.slots.get? handle with
  | none =>
    exact ends_close_of_none slot (fun _ => .of_same rfl rfl) fun _ => .refl s
  | some id =>
    obtain ⟨kind, hk⟩ := (h.grown id).known
    refine (ends_close slot hk).mono ?_ fun _ _ h => h.elim
    rintro _ _ ⟨-, rfl⟩
    exact .of_same rfl (Registry.length_trees_without ..)

theorem voices_setHidden (handle : Int) (hidden : Bool) :
    (setHidden handle hidden).Ends s (fun _ t => Voices known s t) fun _ t => Voices known s t := by
  cases slot : s.registry.slots.get? handle with
  | none =>
    unfold Action.Ends
    rw [setHidden_of_none slot]
    exact .refl s
  | some id =>
    refine (ends_hide slot hidden).mono ?_ fun _ _ h => h.elim
    rintro _ _ ⟨-, rfl⟩
    exact .of_same rfl Registry.length_trees_update

/-- What is asked for no node is no request for calls. -/
theorem voices_inquire {purpose : Purpose} {request : Request} (ho : Opens purpose request) :
    (inquire purpose request).Ends s (fun _ t => Voices known s t) fun _ t => Voices known s t := by
  have posted {deadline : Number} : Voices known s
      (({ s with nextToken := s.nextToken + 1 }.entered s.nextToken purpose deadline).posted
        s.nextToken false request) := by
    refine ⟨⟨_, rfl, fun r hr d hd => ?_⟩, fun _ _ hle hlt => absurd hlt (Nat.not_lt.2 hle)⟩
    obtain rfl := List.mem_singleton.1 hr
    cases ho <;> cases hd
  refine (ends_inquire ho).mono ?_ ?_
  · intro k t hinquires
    cases hinquires
    exact posted
  · intro e t hdefers
    cases hdefers with
    | untimely => exact .of_same rfl rfl
    | baffled => exact posted

/-! ### Pumping -/

/-- All that is added to a session while reports are dealt with: what is there already stays as it
is. -/
structure Adds (known : CallItem → Prop) (s t : Session) : Prop where
  moves : Moves s t
  voices : Voices known s t
  spares : ∀ id, s.isOpen id → Intact id s t

theorem Adds.refl (s : Session) : Adds known s s := ⟨.refl, .refl s, fun id _ => .refl id s⟩

theorem Adds.trans (h : Adds known s t) (hs : s.Sound) (h' : Adds known t u) : Adds known s u where
  moves := h.moves.trans h'.moves
  voices := h.voices.trans (hs.moves h.moves) h'.moves h'.voices fun _ hv _ => hv.intact h'.spares
  spares id ho := (h.spares id ho).trans (h'.spares id ((h.spares id ho).isOpen.trans ho))

theorem voices_act (h : s.Sound) {r : Resolution}
    (hr : ∀ d item, r.opening? = some (.calls d item) → known item) :
    (act r).Ends s (fun _ t => Voices known s t) fun _ t => Voices known s t := by
  obtain ⟨token, purpose, result⟩ := r
  cases result with
  | failure reason => exact .bind (.modify (.pure (.of_same rfl rfl)))
  | children nodes => cases purpose <;> exact .pure (.refl s)
  | items items =>
    cases items with
    | nil => cases purpose <;> exact .pure (.refl s)
    | cons item rest =>
      cases purpose with
      | openCalls uri direction =>
        exact .bind ((voices_openCalls h (hr direction item rfl) _).mono (fun _ _ h => .pure h)
          fun _ _ h => h)
      | _ => exact .pure (.refl s)
  | symbols symbols =>
    cases purpose with
    | openOutline uri =>
      exact .bind ((voices_openOutline h uri fun _ hn => outline_of_outlineOfJson hn).mono
        (fun _ _ h => .pure h) fun _ _ h => h)
    | _ => exact .pure (.refl s)

theorem adds_act (h : s.Sound) {r : Resolution}
    (hr : ∀ d item, r.opening? = some (.calls d item) → known item) :
    (act r).Ends s (fun _ t => Adds known s t) fun _ t => Adds known s t := by
  have hspares := Action.Ends.forall fun id : { id // s.isOpen id } => skirts_act h id.2 r
  refine (((voices_act h hr).and hspares).and (lock_act (twins_self h) r).moves).mono ?_ ?_
  · rintro _ t ⟨⟨hvoices, hspares⟩, hmoves⟩
    exact ⟨hmoves, hvoices, fun id ho => (hspares ⟨id, ho⟩).1⟩
  · rintro _ t ⟨⟨hvoices, hspares⟩, hmoves⟩
    exact ⟨hmoves, hvoices, fun id ho => hspares ⟨id, ho⟩⟩

theorem adds_acts (results : List Resolution) (h : s.Sound)
    (hr : ∀ r ∈ results, ∀ d item, r.opening? = some (.calls d item) → known item) :
    (results.filterMapM act).Ends s (fun _ t => Adds known s t) fun _ t => Adds known s t := by
  induction results generalizing s with
  | nil => exact .pure (.refl s)
  | cons r rest ih =>
    obtain ⟨hfirst, hrest⟩ := List.forall_mem_cons.1 hr
    rw [List.filterMapM_cons]
    refine .bind ((adds_act h hfirst).mono ?_ fun _ _ h => h)
    intro grown t ht
    have hmore := (ih (h.moves ht.moves) hrest).mono (R := fun _ u => Adds known s u)
      (F := fun _ u => Adds known s u) (fun _ _ hu => ht.trans h hu) fun _ _ hu => ht.trans h hu
    cases grown with
    | none => exact hmore
    | some id => exact .bind (hmore.mono (fun _ _ h => .pure h) fun _ _ h => h)

theorem voices_redraw (h : Voices known s t) (ids : List TreeId) :
    Action.Ends (ids.forM fun id => do if (← get).isOpen id then let _ ← render id) t
      (fun _ u => Voices known s u) fun _ u => Voices known s u :=
  ends_redrawing (I := fun _ u => Voices known s u) h (fun _ _ _ ht _ => ht)
    fun id _ _ ht _ => voices_render ht id

theorem voices_conclude (h : s.Sound) {results : List Resolution}
    (hr : ∀ r ∈ results, ∀ d item, r.opening? = some (.calls d item) → known item) :
    (conclude results).Ends s (fun _ t => Voices known s t) fun _ t => Voices known s t := by
  refine .bind ((adds_acts results h hr).mono (fun grown t ht => ?_) fun _ _ h => h.voices)
  exact .bind ((voices_redraw ht.voices _).mono (fun _ _ h => .pure h) fun _ _ h => h)

/-- Lookups are no requests for calls. -/
theorem Seeks.method_ne {posts : List Sent} (hs : s.Seeks posts t) (hr : r ∈ posts)
    (d : CallDirection) : r.request.method ≠ .calls d := by
  obtain ⟨-, ⟨name, hname⟩, -⟩ := hs.lookups r hr
  rw [hname]
  nofun

theorem Seeks.voices {posts : List Sent} (hs : s.Seeks posts t)
    (hl : t.registry.trees.length = s.registry.trees.length) : Voices known s t :=
  ⟨⟨posts, hs.sent, fun _ hr d hd => absurd hd (hs.method_ne hr d)⟩,
    fun _ _ hle hlt => absurd (hl ▸ hlt) (Nat.not_lt.2 hle)⟩

/-- What a session that is pumped asks for are the calls of items that came as answers. -/
theorem voices_pump (h : s.Steady) :
    Voices (fun item => ∃ d, s.Elicits (.calls d item)) s (s.step .pump) := by
  have hends := (ends_drain h).and (seeks_drain h)
  unfold Action.Ends at hends
  cases hd : drain s with
  | ok results u =>
    rw [hd] at hends
    obtain ⟨hdrains, posts, hseeks⟩ := hends
    have hu := hdrains.chain.sound lawful_progress h.sound
    have hlength : u.registry.trees.length = s.registry.trees.length :=
      congrArg (·.2.2.2.2) (hdrains.chain.registryFrame lawful_progress h.sound).1
    have hconclude : Voices (fun item => ∃ d, s.Elicits (.calls d item)) u (s.step .pump) := by
      apply after_of_ends (P := fun t => Voices _ u t)
      unfold Event.act
      rw [pump_eq]
      refine .bind (.bind ((ends_of_eq hd).mono ?_ fun _ _ h => h.elim))
      rintro results u ⟨rfl, rfl⟩
      refine (voices_conclude hu fun r hr d item hopening => ?_).mono (fun _ _ h => .pure h)
        fun _ _ h => h
      exact ⟨d, (hdrains.chain.stems h.sound hr).elicits hopening⟩
    -- no node waits for what was sent while the queue was worked off
    refine (hseeks.voices hlength).trans hu (moves_pump hu hd) hconclude fun r hv hr => ?_
    rw [hseeks.sent, List.drop_left] at hr
    obtain ⟨d, hmethod⟩ := hv.method
    exact absurd hmethod (hseeks.method_ne hr d)
  | error e t =>
    rw [hd] at hends
    obtain ⟨⟨-, results, u, hchain, hstumbles⟩, -, posts, hseeks⟩ := hends
    have hstep : s.step .pump = t := by
      rw [Session.step, Action.after, Event.act, pump_eq,
        Action.bind_of_error (Action.bind_of_error hd)]
    rw [hstep]
    refine hseeks.voices ?_
    rw [hstumbles.registry]
    exact congrArg (·.2.2.2.2) (hchain.registryFrame lawful_effect h.sound).1

/-! ### Events -/

/-- The items that are new to a session at an event. -/
inductive Introduces (s : Session) : Event → CallItem → Prop where
  | opened (item : CallItem) (direction : Direction) :
    Introduces s (.openCalls item direction) item
  | copied {id : TreeId} {ref : NodeRef} {item : CallItem} (member : s.Member id ref)
    (isItem : (s.node ref).payload.callItem? = some item) : Introduces s (.focus id ref) item
  | elicited {d : CallDirection} {item : CallItem} (elicits : s.Elicits (.calls d item)) :
    Introduces s .pump item

/-- **Whatever is asked for at an event is waited for after it**, also where it fails. -/
theorem Steady.voices_step (h : s.Steady) {event : Event} (ho : event.isOwn) :
    Voices (Introduces s event) s (s.step event) := by
  have hs := h.sound
  have returns {α : Type} {x : SessionM α} {f : α → Report}
      (hx : x.Ends s (fun _ t => Voices (Introduces s event) s t)
        fun _ t => Voices (Introduces s event) s t) :
      Voices (Introduces s event) s ((x >>= fun a => pure (f a)).after s) :=
    after_of_ends (P := fun t => Voices _ s t)
      (.bind (hx.mono (fun _ _ h => .pure h) fun _ _ h => h))
  have still {α : Type} {x : SessionM α} {E : Fault → Session → Prop} {f : α → Report}
      (hx : x.Ends s (fun _ t => t = s) E) (hE : ∀ e t, E e t → t = s) :
      Voices (Introduces s event) s ((x >>= fun a => pure (f a)).after s) :=
    have same {t : Session} (ht : t = s) : Voices (Introduces s event) s t := by
      rw [ht]
      exact .refl s
    returns (hx.mono (fun _ _ h => same h) fun e t h => same (hE e t h))
  cases event with
  | openCalls item direction =>
    exact returns (voices_openCalls hs (.opened item direction) direction)
  | startCalls uri line character direction =>
    cases direction with
    | calls direction => exact returns (voices_inquire (.calls uri line character direction))
    | outline => exact .refl s
    | unknown name => exact .refl s
  | openOutline uri entries => exact returns (voices_openOutline hs uri fun _ hn => ⟨entries, hn⟩)
  | showOutline uri answer =>
    exact returns (voices_openOutline hs uri fun _ hn => outline_of_outlineOfJson hn)
  | startOutline uri => exact returns (voices_inquire (.outline uri))
  | expand id ref => exact returns (voices_expand hs id ref)
  | collapse id ref => exact returns (f := fun _ => .nothing) (voices_collapse hs id ref)
  | toggle id ref => exact returns (voices_toggle hs id ref)
  | focus id ref => exact returns (voices_focus hs fun item hm hi => .copied hm hi)
  | switchDirection id => exact returns (voices_switchDirection hs id)
  | jump id ref => exact still ends_jump fun _ _ h => h.1
  | details id ref => exact still ends_details fun _ _ h => h.1
  | render id => exact returns (voices_render (.refl s) id)
  | close handle => exact returns (voices_close hs handle)
  | setHidden handle hidden => exact returns (voices_setHidden handle hidden)
  | toggleHidden kind =>
    exact returns (ends_toggleHidden (fun _ _ => .refl s) (.refl s)
      fun _ _ _ _ => voices_setHidden _ _)
  | pump =>
    have hpump := voices_pump h
    refine ⟨hpump.sent, fun id item hle hlt hi => ?_⟩
    obtain ⟨d, helicits⟩ := hpump.planted id item hle hlt hi
    exact .elicited helicits
  | settle request outcome => cases ho
  | tick now => cases ho

/-- What comes from outside plants no tree and sends nothing. -/
theorem still_step {event : Event} (ho : event.isOwn = false) :
    (s.step event).registry = s.registry ∧ (s.step event).sent.length = s.sent.length := by
  cases event with
  | settle i outcome =>
    by_cases hr : ∃ request, s.sent[i]? = some request ∧ request.isOpen
    · obtain ⟨request, hr, hopen⟩ := hr
      rw [Session.step, Action.after, settle_of_isOpen hr hopen]
      exact ⟨rfl, List.length_modify ..⟩
    · have hsettled := settle_of_not_isOpen fun request hi ho => hr ⟨request, hi, ho⟩
      rw [Session.step, Action.after, hsettled]
      exact ⟨rfl, rfl⟩
  | tick now => exact ⟨rfl, rfl⟩
  | _ => cases ho

/-! ### Items and their objects -/

variable {events : List Event} {path : List Nat} {n : Node} {item : CallItem}

/-- The roots of all trees stand for items that have their objects from the run. -/
def Rooted (s : Session) (events : List Event) : Prop :=
  ∀ id < (s.steps events).registry.trees.length, ∀ item,
    ((s.steps events).tree id).root.payload.callItem? = some item → ∃ o, Source s events item o

/-- The item of every node has its object from the run; that of a node below another has it from
its call. -/
theorem Rooted.source (hr : Rooted s events) (h : (s.steps events).Sound)
    {since : TreeId → List Nat → Token → Prop}
    (ht : Traced (Answered s events) since (s.steps events))
    (ho : (s.steps events).Occurs id path n) (hi : n.payload.callItem? = some item) :
    ∃ o, Source s events item o := by
  induction path using List.reverseRecOn with
  | nil =>
    obtain rfl := Option.some.inj ho.found
    exact hr id (h.registry.lt_of_isOpen ho.isOpen) item hi
  | append_singleton above i =>
    obtain ⟨d, hd⟩ : ∃ d, ((s.steps events).tree id).direction = .calls d := by
      have hitem := (h.fits ho).item
      rw [hi] at hitem
      obtain ⟨d, hd⟩ := Option.isSome_iff_exists.1 hitem.symm
      exact ⟨d, Direction.eq_of_calls? hd⟩
    obtain ⟨-, parent, o, -, -, hcalled⟩ := ht.called ho hd hi
    exact ⟨o, .called hcalled⟩

/-- An item that is new has its object from the run. -/
theorem Introduces.source {event : Event} (hi : Introduces (s.steps events) event item)
    (hs : s.Sound) (hr : Rooted s events) (hf : (s.steps events).Filed)
    {since : TreeId → List Nat → Token → Prop}
    (ht : Traced (Answered s events) since (s.steps events)) :
    ∃ o, Source s (events ++ [event]) item o := by
  have h := hs.steps events
  cases hi with
  | opened item direction =>
    exact ⟨item.source, .given (List.mem_append_right _ List.mem_cons_self) rfl⟩
  | copied member isItem =>
    obtain ⟨o, ho⟩ := hr.source h ht (member.occurs h) isItem
    exact ⟨o, ho.append hs _⟩
  | elicited elicits =>
    obtain ⟨o, ho⟩ := elicits.source h hf ht
    exact ⟨o, ho.append hs _⟩

theorem rooted_steps (client : Client) (settings : Settings) (root : Path) (now : Number)
    (events : List Event) : Rooted (start client settings root now) events := by
  have hs := sound_start client settings root now
  induction events using List.reverseRecOn with
  | nil => exact fun id hid => absurd hid (Nat.not_lt_zero id)
  | append_singleton events event ih =>
    have h := (Steady.of_start client settings root now).steps events
    obtain ⟨-, ht⟩ := traced_steps client settings root now events
    have hf := filed_steps client settings root now events
    intro id hid item hi
    rw [steps_concat] at hid hi
    cases ho : event.isOwn with
    | false =>
      rw [(still_step ho).1] at hid
      rw [Session.tree, (still_step ho).1] at hi
      obtain ⟨o, hsource⟩ := ih id hid item hi
      exact ⟨o, hsource.append hs _⟩
    | true =>
      -- a tree that is there keeps its root, and a new one stands for what is new at the event
      by_cases hold : id < ((start client settings root now).steps events).registry.trees.length
      · rw [(h.sound.root_payload (h.sound.moves_step ho)).2 id hold] at hi
        obtain ⟨o, hsource⟩ := ih id hold item hi
        exact ⟨o, hsource.append hs _⟩
      · have hnew := (h.voices_step ho).planted id item (Nat.le_of_not_lt hold) hid hi
        exact hnew.source hs ih hf ht

/-! ### After every run -/

/-- What is sent at an event. -/
def Event.posts (s : Session) (event : Event) : List Sent :=
  (s.step event).sent.drop s.sent.length

/-- After the run of `events` from `s` a node waits for the request. The request has one parameter:
the object from which the item of the node was read or, if that is empty, the object of its parsed
fields. For a node below another it is the object of the call that led to the node, and for any node
it is what its item was read from, if it was read at all. -/
inductive Echoes (s : Session) (events : List Event) (r : Sent) (d : CallDirection) : Prop where
  | node {id : TreeId} {path : List Nat} {n : Node} {item : CallItem} {o : Json.Fields}
    (occurs : (s.steps events).Occurs id path n) (waits : n.pending = some r.token)
    (isCalls : ((s.steps events).tree id).direction = .calls d)
    (isItem : n.payload.callItem? = some item) (source : Source s events item o)
    (below : ∀ above i, path = above ++ [i] → ∃ m parent, (s.steps events).Occurs id above m ∧
      m.payload.callItem? = some parent ∧ Called s events d parent i item o)
    (read : ∀ object, CallItem.ofJson object = .ok item → object = .obj o)
    (params : r.request.params =
      .obj [("item", .obj (if o.isEmpty then item.parsedFields else o))])

/-- **Requests echo objects unchanged.** In every run, every request for calls is sent for a node
and hands the object back that the item of the node was read from, with all that it holds: also for
nodes whose symbol was looked up, for copies of nodes and for trees that were turned round. -/
theorem echoes_steps (client : Client) (settings : Settings) (root : Path) (now : Number)
    (events : List Event) (event : Event) {s : Session} (hs : s = start client settings root now)
    {r : Sent} (hr : r ∈ event.posts (s.steps events)) {d : CallDirection}
    (hd : r.request.method = .calls d) : Echoes s (events ++ [event]) r d := by
  subst hs
  have h := (Steady.of_start client settings root now).steps events
  have hrooted := rooted_steps client settings root now (events ++ [event])
  obtain ⟨-, ht⟩ := traced_steps client settings root now (events ++ [event])
  have hsound := (sound_start client settings root now).steps (events ++ [event])
  have hvoiced : ((start client settings root now).steps (events ++ [event])).Voiced r := by
    rw [Event.posts] at hr
    rw [steps_concat]
    cases ho : event.isOwn with
    | false =>
      rw [← (still_step ho).2, List.drop_length] at hr
      cases hr
    | true =>
      obtain ⟨posts, hsent, hposts⟩ := (h.voices_step ho).sent
      rw [hsent, List.drop_left] at hr
      exact hposts r hr d hd
  cases hvoiced with
  | @node id path n e item occurs waits isCalls isItem request =>
    obtain rfl : e = d := by
      rw [request] at hd
      exact Server.Method.calls.inj hd
    have params {o : Json.Fields}
        (hsource : Source (start client settings root now) (events ++ [event]) item o) :
        r.request.params = .obj [("item", .obj (if o.isEmpty then item.parsedFields else o))] := by
      rw [request, ← hsource.kept]
      rfl
    -- a root has its object from before its tree, any other node from the call above it
    rcases List.eq_nil_or_concat' path with rfl | ⟨above, i, rfl⟩
    · obtain ⟨o, hsource⟩ := hrooted.source hsound ht occurs isItem
      refine .node occurs waits isCalls isItem hsource (fun above i hpath => ?_)
        (fun _ => hsource.object) (params hsource)
      exact absurd hpath.symm (List.append_ne_nil_of_right_ne_nil _ (by simp))
    · obtain ⟨m, parent, o, hm, hparent, hcalled⟩ := ht.called occurs isCalls isItem
      refine .node occurs waits isCalls isItem (.called hcalled) (fun above' i' hpath => ?_)
        (fun _ => (Source.called hcalled).object) (params (.called hcalled))
      obtain ⟨rfl, hlast⟩ := List.append_inj' hpath rfl
      obtain rfl := List.singleton_inj.1 hlast
      exact ⟨m, parent, hm, hparent, hcalled⟩

/-- The caller of a function comes with a field that nothing is read from. -/
def taggedRun : List Event :=
  [.openCalls ⟨"f", none, [], ⟨⟨0, 0⟩, ⟨0, 0⟩⟩, ⟨⟨0, 0⟩, ⟨0, 0⟩⟩, none, []⟩ (.calls .incoming),
    .settle 0 (.answer
      (.arr [.obj [("from", .obj [("name", .str "g"), ("data", .num (.int 7))])]])),
    .pump]

/-- A copy of the caller is asked for. -/
theorem echoes_taggedRun : ∃ r ∈ (Event.focus 0 ⟨0, 0, [0]⟩).posts (freshSession.steps taggedRun),
    r.request.method = .calls .incoming ∧
      Echoes freshSession (taggedRun ++ [.focus 0 ⟨0, 0, [0]⟩]) r .incoming := by
  have hmethods : ((Event.focus 0 ⟨0, 0, [0]⟩).posts (freshSession.steps taggedRun)).map
      (fun r => r.request.method) = [.calls .incoming] := by decide +kernel
  obtain ⟨r, rest, hposts, hmethod, -⟩ := List.map_eq_cons_iff.1 hmethods
  have hr : r ∈ (Event.focus 0 ⟨0, 0, [0]⟩).posts (freshSession.steps taggedRun) :=
    hposts ▸ List.mem_cons_self
  exact ⟨r, hr, hmethod, echoes_steps .server _ _ _ taggedRun _ rfl hr hmethod⟩

end Session

end SymbolTrees
