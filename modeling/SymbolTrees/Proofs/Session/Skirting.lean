import SymbolTrees.Proofs.Session.Intact

/-!
# Operations that leave trees alone

Whatever is asked of one tree, or to open another, leaves every other open tree as it is, also where
it stops half-way. To look at a node, or to copy it into a tree of its own, leaves all trees as they
are.
-/

namespace SymbolTrees.Session

variable {s t u : Session} {id target : TreeId} {ref : NodeRef} {α β : Type}

/-! ### Actions that leave a tree alone -/

/-- The action leaves the tree `id` as it is, also where it stops early, and ends in `Q`. -/
def Skirts (id : TreeId) (s : Session) (x : SessionM α) (Q : α → Session → Prop) : Prop :=
  x.Ends s (fun a t => Intact id s t ∧ Q a t) fun _ t => Intact id s t

variable {x : SessionM α} {f : α → SessionM β} {P Q : α → Session → Prop} {R : β → Session → Prop}

namespace Skirts

theorem mono (h : Skirts id s x P) (hQ : ∀ a t, P a t → Q a t) : Skirts id s x Q :=
  Action.Ends.mono h (fun a t ht => ⟨ht.1, hQ a t ht.2⟩) fun _ _ ht => ht

/-- What goes on from a state in which the tree is what it was. -/
theorem since (h : Skirts id t x Q) (hi : Intact id s t) :
    x.Ends t (fun a u => Intact id s u ∧ Q a u) fun _ u => Intact id s u :=
  Action.Ends.mono h (fun _ _ hu => ⟨hi.trans hu.1, hu.2⟩) fun _ _ hu => hi.trans hu

theorem bind (h : Skirts id s x P) (hf : ∀ a t, Intact id s t → P a t → Skirts id t (f a) R) :
    Skirts id s (x >>= f) R :=
  Action.Ends.bind
    (Action.Ends.mono h (fun a t ht => (hf a t ht.1 ht.2).since ht.1) fun _ _ ht => ht)

theorem pure {a : α} (h : Q a s) : Skirts id s (Pure.pure a) Q := ⟨.refl id s, h⟩

theorem throw (e : Fault) : Skirts id s (MonadExcept.throw e : SessionM α) Q := .refl id s

theorem throwBind (e : Fault) : Skirts id s (MonadExcept.throw e >>= f) R := .refl id s

theorem get {g : Session → SessionM β} (h : Skirts id s (g s) R) :
    Skirts id s (MonadState.get >>= g) R := h

/-- A check changes nothing. -/
theorem check {x : SessionM Unit} {p : Prop} {E : Fault → Session → Prop} {g : Unit → SessionM β}
    (hx : x.Ends s (fun _ t => t = s ∧ p) E) (hE : ∀ e t, E e t → t = s)
    (h : p → Skirts id s (g ()) R) : Skirts id s (x >>= g) R := by
  refine Action.Ends.bind (hx.mono ?_ ?_)
  · rintro _ _ ⟨rfl, hp⟩
    exact h hp
  · intro e t he
    rw [hE e t he]
    exact .refl id s

/-- What follows has an answer that nothing is said of. -/
theorem returns (h : Skirts id s x P) {g : α → β} :
    Skirts id s (x >>= fun a => Pure.pure (g a)) fun _ _ => True :=
  h.bind fun _ _ _ _ => .pure trivial

end Skirts

section Skirts

variable (h : s.Sound) (ho : s.isOpen id)

include ho in
/-- Another tree is drawn, and stays open. -/
theorem skirts_render (ht : s.isOpen target) (hne : id ≠ target) :
    Skirts id s (render target) fun _ t => t.isOpen target := by
  refine (ends_render ht).mono ?_ ?_
  · rintro view _ ⟨-, rfl⟩
    exact ⟨intact_shown ho ht hne view, (isOpen_shown s target view).trans ht⟩
  · rintro _ _ ⟨rfl, -⟩
    exact .refl id _

include h in
theorem skirts_askChildren (hm : s.Member target ref) (hne : id ≠ target) :
    Skirts id s (askChildren target ref none) fun _ t => t.isOpen target := by
  refine (ends_askChildren h hm).mono ?_ ?_
  · intro token t hasks
    cases hasks with
    | known => exact ⟨.refl id s, hm.isOpen⟩
    | sent => exact ⟨intact_asked h hne hm.tree, Registry.isOpen_updateNode.trans hm.isOpen⟩
  · intro e t hbalks
    cases hbalks with
    | refused => exact .refl id s
    | untimely => exact .of_update (hm.tree ▸ hne) rfl rfl rfl rfl
    | baffled => exact intact_asked h hne hm.tree

include ho in
theorem skirts_draw (ht : s.isOpen target) (hne : id ≠ target) (a : α) :
    Skirts id s (do let _ ← render target; pure a) fun b t => b = a ∧ t.isOpen target :=
  (skirts_render ho ht hne).bind fun _ _ _ ht => .pure ⟨rfl, ht⟩

include h ho in
theorem skirts_askAndRender (hm : s.Member target ref) (hne : id ≠ target)
    (f : Option Token → α) : Skirts id s (do
      let token ← askChildren target ref none
      let _ ← render target
      pure (f token)) fun b t => (∃ token, b = f token) ∧ t.isOpen target :=
  (skirts_askChildren h hm hne).bind fun token _ hi ht =>
    (skirts_draw (hi.isOpen.trans ho) ht hne _).mono fun _ _ hb => ⟨⟨token, hb.1⟩, hb.2⟩

/-! ### New trees -/

/-- The tree is new and open. -/
def Opened (s : Session) (new : TreeId) (t : Session) : Prop :=
  new = s.registry.trees.length ∧ t.isOpen new

/-- A new tree is none that was open before. -/
theorem Sound.ne_length (h : s.Sound) (ho : s.isOpen id) : id ≠ s.registry.trees.length :=
  Nat.ne_of_lt (h.registry.lt_of_isOpen ho)

include h ho in
theorem skirts_present (ht : s.isOpen target) (hne : id ≠ target) (asks : Bool) :
    Skirts id s (present asks target) fun new t => new = target ∧ t.isOpen target := by
  cases asks with
  | true =>
    rw [present_true]
    refine Skirts.get ((skirts_askAndRender h ho (member_rootOf ht) hne fun _ => target).mono ?_)
    rintro _ t ⟨⟨token, rfl⟩, ht⟩
    exact ⟨rfl, ht⟩
  | false => exact skirts_draw ho ht hne target

include h ho in
/-- A tree that was planted is the one that is new, and it is presented. -/
theorem skirts_opening {root : Node} {direction : Direction} {uri : Option Text} {kind : TreeKind}
    (seed : Seed s direction root) (hk : direction.kind? = some kind) (asks : Bool) :
    (putTree ⟨s.registry.nextHandle, root, direction, uri, false, false, [], [], []⟩ >>=
      present asks).Ends
      { s with registry := { s.registry with nextHandle := s.registry.nextHandle + 1 } }
      (fun new t => Intact id s t ∧ s.Opened new t) fun _ t => Intact id s t := by
  refine ends_plant h seed hk fun t hp => ?_
  have hi := hp.intact (h.registry.lt_of_isOpen ho)
  have hpresent := skirts_present (h.moves hp.moves) (hi.isOpen.trans ho) hp.isOpen
    (h.ne_length ho) asks
  refine (hpresent.mono ?_).since hi
  rintro _ u ⟨rfl, hu⟩
  exact ⟨rfl, hu⟩

include h ho in
theorem skirts_openCalls (item : CallItem) (direction : Direction) :
    Skirts id s (openCalls item direction) s.Opened := by
  cases direction with
  | outline =>
    unfold openCalls
    exact .throwBind _
  | unknown name =>
    unfold openCalls
    exact .throwBind _
  | calls direction => exact ends_openCalls (skirts_opening h ho (.call item direction) rfl true)

include h ho in
theorem skirts_openOutline (uri : Text) {root : Except Fault Node}
    (hr : ∀ node, root = .ok node → ∃ entries, Node.outline uri entries = .ok node) :
    Skirts id s (openOutline uri root) s.Opened := by
  refine ends_openOutline (fun _ _ => intact_newHandle) fun node hnode => ?_
  obtain ⟨entries, hmade⟩ := hr node hnode
  exact skirts_opening h ho (.outline hmade) rfl false

include h ho in
/-- A node is copied, and its own tree is left alone too. -/
theorem skirts_focus (target : TreeId) (ref : NodeRef) :
    Skirts id s (focus target ref) s.Opened := by
  obtain ⟨kind, hk⟩ := (h.grown target).known
  exact ends_focus h (fun _ _ => .refl id s) fun hm => skirts_opening h ho (h.seed_copy hm) hk _

/-! ### What a user asks of another tree -/

section Other

variable (hne : id ≠ target)
include hne

include ho in
/-- A node is opened or closed, and its tree is drawn. -/
theorem skirts_unfolded (hm : s.Member target ref) (expanded : Bool) :
    (render target).Ends (s.unfolded ref expanded) (fun _ t => Intact id s t ∧ True)
      fun _ t => Intact id s t := by
  have hset : Intact id s (s.unfolded ref expanded) := intact_updateNode (hm.tree ▸ hne) _
  have hopen : (s.unfolded ref expanded).isOpen target :=
    Registry.isOpen_updateNode.trans hm.isOpen
  exact ((skirts_render (hset.isOpen.trans ho) hopen hne).mono fun _ _ _ => trivial).since hset

include h ho in
theorem skirts_expand (ref : NodeRef) : Skirts id s (expand target ref) fun _ _ => True :=
  ends_expand h (fun _ _ => .refl id s) (fun _ _ => ⟨.refl id s, trivial⟩)
    (fun hm _ => skirts_unfolded ho hne hm true)
    fun hm _ _ => (skirts_askChildren h hm hne).mono fun _ _ _ => trivial

include h ho in
theorem skirts_collapse (ref : NodeRef) : Skirts id s (collapse target ref) fun _ _ => True := by
  refine ends_collapse h (fun _ _ => .refl id s) (fun _ _ => .refl id s)
    (fun hm _ => ⟨intact_givenUp h hm hne, trivial⟩) fun hm => ?_
  have hgiven := intact_givenUp h hm hne
  exact Action.Ends.mono (skirts_unfolded (hgiven.isOpen.trans ho) hne (member_givenUp h hm) false)
    (fun _ _ ht => ⟨hgiven.trans ht.1, trivial⟩) fun _ _ ht => hgiven.trans ht

include h ho in
theorem skirts_toggle (ref : NodeRef) : Skirts id s (toggle target ref) fun _ _ => True :=
  ends_toggle (fun _ _ => skirts_collapse h ho hne ref) (skirts_expand h ho hne ref)

include h ho in
theorem skirts_switchDirection : Skirts id s (switchDirection target) fun _ _ => True := by
  refine ends_switchDirection h (fun _ _ => .refl id s) (fun _ => .refl id s)
    fun direction hopen hdir => ?_
  have hgiven := intact_givenUp h (member_rootOf hopen) hne
  have hturned : Intact id s (s.turnedRound target direction) :=
    hgiven.trans (.of_update hne rfl rfl rfl rfl)
  have hsound : (s.turnedRound target direction).Sound :=
    (h.givenUp (member_rootOf hopen)).move (moves_switchDirection h hopen hdir).1
  have hopen' : (s.turnedRound target direction).isOpen target := isOpen_turnedRound h hopen
  have hrest := skirts_askAndRender hsound (hturned.isOpen.trans ho) (member_rootOf hopen') hne
    fun token => token
  exact Skirts.since (hrest.mono fun _ _ _ => trivial) hturned

end Other

/-- A node of any tree is looked at. -/
theorem skirts_jump (target : TreeId) (ref : NodeRef) :
    Skirts id s (jump target ref) fun _ _ => True :=
  ends_jump.mono (fun _ _ ht => ⟨ht ▸ .refl id s, trivial⟩) fun _ _ ht => ht.1 ▸ .refl id s

theorem skirts_details (target : TreeId) (ref : NodeRef) :
    Skirts id s (details target ref) fun _ _ => True :=
  ends_details.mono (fun _ _ ht => ⟨ht ▸ .refl id s, trivial⟩) fun _ _ ht => ht.1 ▸ .refl id s

section Handle

variable {handle : Int} (hne : (s.tree id).handle ≠ handle)
include h hne

theorem Sound.ne_of_slot (slot : s.registry.slots.get? handle = some target) : id ≠ target := by
  rintro rfl
  exact hne (h.registry.slots handle id slot).2.1

include ho in
theorem skirts_close : Skirts id s (close handle) fun _ _ => True := by
  cases slot : s.registry.slots.get? handle with
  | none =>
    exact ends_close_of_none slot (fun _ => ⟨.of_same rfl rfl rfl rfl, trivial⟩)
      fun _ => .refl id s
  | some target =>
    have hother := h.ne_of_slot hne slot
    obtain ⟨kind, hk⟩ := (h.grown target).known
    refine (ends_close slot hk).mono ?_ fun _ _ he => he.elim
    rintro _ _ ⟨-, rfl⟩
    have htree : (s.registry.without handle target kind).tree id = s.registry.tree id :=
      (Registry.tree_without ..).trans (Registry.tree_update_of_ne hother)
    have hopen := (h.registry.isOpen_without slot kind).2 ⟨ho, hother⟩
    refine ⟨.of_trees htree (hopen.trans ho.symm) ?_ rfl rfl, trivial⟩
    exact (Table.get?_erase ..).trans (if_neg (Ne.symm hne))

theorem skirts_setHidden (hidden : Bool) :
    Skirts id s (setHidden handle hidden) fun _ _ => True := by
  cases slot : s.registry.slots.get? handle with
  | none =>
    unfold Skirts Action.Ends
    rw [setHidden_of_none slot]
    exact .refl id s
  | some target =>
    refine (ends_hide slot hidden).mono ?_ fun _ _ he => he.elim
    rintro _ _ ⟨-, rfl⟩
    refine ⟨.of_update (h.ne_of_slot hne slot) rfl ?_ rfl rfl, trivial⟩
    exact (Buffers.get?_setVisible ..).trans (if_neg (Ne.symm hne))

end Handle

include h ho in
/-- The tree is not the most recent one of the kind. -/
theorem skirts_toggleHidden (kind : Text)
    (hne : ∀ k, TreeKind.ofText kind = .ok k → s.registry.get? k ≠ some id) :
    Skirts id s (toggleHidden kind) fun _ _ => True := by
  refine ends_toggleHidden (fun _ _ => .refl id s) ⟨.refl id s, trivial⟩ fun k target hk hget => ?_
  obtain ⟨handle, -, slot⟩ := Option.bind_eq_some_iff.1 hget
  have hother : id ≠ target := fun he => hne k hk (he ▸ hget)
  have hhandle : (s.tree id).handle ≠ (s.tree target).handle := fun he =>
    hother (handle_injective ho (h.registry.isOpen_of_slot slot) he)
  exact (skirts_setHidden h hhandle _).mono fun _ _ _ => trivial

end Skirts

/-- What is asked for to open a tree is for none that is there. -/
theorem skirts_inquire (h : s.Sound) {purpose : Purpose} {request : Server.Request}
    (hp : Opens purpose request) : Skirts id s (inquire purpose request) fun _ _ => True := by
  have hmade {deadline : Number} : Intact id s
      (({ s with nextToken := s.nextToken + 1 }.entered s.nextToken purpose deadline).posted
        s.nextToken false request) := by
    refine (intact_entered h deadline fun _ _ _ he => ?_).trans (.of_same rfl rfl rfl rfl)
    exact hp.ne_expand _ _ _ _ he
  refine (ends_inquire hp).mono ?_ ?_
  · intro token t hsent
    cases hsent with
    | sent => exact ⟨hmade, trivial⟩
  · intro e t hdefers
    cases hdefers with
    | untimely => exact .of_same rfl rfl rfl rfl
    | baffled => exact hmade

end SymbolTrees.Session
