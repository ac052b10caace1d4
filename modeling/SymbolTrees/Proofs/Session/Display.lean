import SymbolTrees.Proofs.Session.Drawn
import SymbolTrees.Proofs.Session.Provenance
import SymbolTrees.Proofs.Session.Superseded

/-!
# The display

Every operation leaves all open trees drawn as they are: whatever changes the nodes of a tree in a
way that shows is followed by drawing the tree anew, also where nodes come from the server. What is
refused changes nothing.
-/

namespace SymbolTrees

/-- The tree to which a request brought nodes. -/
def Resolution.grown? (r : Resolution) : Option TreeId :=
  match r.result, r.purpose with
  | .children _, .expand id _ _ _ => some id
  | _, _ => none

/-- What comes of a list comes of its first entry, and then of the others. -/
theorem filterMap_cons_toList {α β : Type} (f : α → Option β) (a : α) (rest : List α) :
    (a :: rest).filterMap f = (f a).toList ++ rest.filterMap f := by
  rw [List.filterMap_eq_flatMap_toList, List.flatMap_cons, List.filterMap_eq_flatMap_toList]

namespace Session

variable {s t u : Session} {id : TreeId} {ref : NodeRef} {stale : Set TreeId} {α : Type}
  {results : List Resolution} {R : Session → List Resolution → Session → Prop}

/-! ### Draining -/

/-- The trees that are reported to have grown. -/
def enlarged (results : List Resolution) : Set TreeId :=
  {id | id ∈ results.filterMap Resolution.grown?}

theorem Alters.keeps (ha : Alters s results t) (h : s.Sound) (hf : Frame s t) :
    Keeps (enlarged results) s t := by
  cases ha with
  | same registry => exact .of_registry hf.style hf.buffers registry
  | released member registry =>
    exact .of_updateNode (h.stands member) hf.style hf.buffers registry
      (.inr fun m => m.idle_pending none)
  | grown member waits registry =>
    refine .of_updateNode (h.stands member) hf.style hf.buffers registry (.inl ?_)
    rw [member.tree]
    exact List.mem_cons_self

/-- While a session is drained, what shows changes at most in the trees that are reported. -/
theorem Chain.keepsDrawn (hR : Lawful R) (hc : Chain R s results t) (h : s.Sound) :
    Keeps (enlarged results) s t := by
  induction hc with
  | refl => exact .refl s
  | log _ _ ih => exact ih.trans (.of_registry rfl rfl rfl)
  | @tail first more u v before next ih =>
    have hu := before.sound hR h
    have hboth : enlarged (first ++ more) = enlarged first ∪ enlarged more := by
      ext id
      simp [enlarged]
    rw [hboth]
    exact (ih.mono (fun _ => .inl)).trans
      (((hR.alters hu next).keeps hu (hR.frame next)).mono fun _ => .inr)

/-- It does not stop because something is refused or is not there. -/
def Firm : Fault → Session → Prop := fun e _ => e.isRejection = false

theorem draws_drain (h : s.Steady) (hd : s.Drawn stale) :
    drain.Ends s (fun results t => t.Drawn (stale ∪ enlarged results)) Firm := by
  refine (ends_drain h).mono ?_ fun e _ he => he.1.not_isRejection
  intro results t hdrains
  have hchain := hdrains.chain
  exact hd.keeps (hchain.sound lawful_progress h.sound)
    (hchain.keepsDrawn lawful_progress h.sound)

/-! ### Drawing and asking -/

theorem draws_render (hd : s.Drawn stale) (ho : s.isOpen id) :
    (render id).Ends s (fun _ t => t.Drawn (stale \ {id})) Firm := by
  refine (ends_render ho).mono ?_ fun e _ he => he.2.1.not_isRejection
  rintro view _ ⟨hv, rfl⟩
  exact hd.shown ho hv

/-- What is asked for does not show until it is there. -/
theorem draws_ask (hd : s.Drawn stale) (hm : s.Member id ref)
    (hc : (s.tree id).direction.calls?.isSome) :
    (askChildren id ref none).Ends s (fun _ t => t.Drawn stale ∧ t.isOpen id) Firm := by
  refine (ends_askChildren hd.sound hm).mono ?_ ?_
  · intro token t hasks
    have ht := hd.sound.moves hasks.moves
    have hk : Keeps ∅ s t := by
      cases hasks with
      | known => exact .refl s
      | sent =>
        have hn := hd.sound.stands hm
        exact .of_updateNode (f := fun node => { node with pending := some s.nextToken }) hn rfl rfl
          rfl (.inr fun m => m.idle_pending _)
    exact ⟨hd.same ht hk, (hk.isOpen id).trans hm.isOpen⟩
  · intro e t hbalks
    have hitem := (hd.sound.fits (hm.occurs hd.sound)).item
    cases hbalks with
    | refused rejection bare =>
      rcases bare with bare | bare
      · rw [bare] at hc
        cases hc
      · rw [← hitem, bare] at hc
        cases hc
    | untimely => rfl
    | baffled => rfl

theorem draws_inquire (hd : s.Drawn stale) {purpose : Purpose} {request : Server.Request}
    (ho : Opens purpose request) :
    (inquire purpose request).Ends s (fun _ t => t.Drawn stale) Firm := by
  refine (ends_inquire ho).mono ?_ fun e _ he => he.isMalformed.not_isRejection
  rintro _ t hsent
  cases hsent with
  | sent opens timely =>
    exact hd.same (hd.sound.move (.inquire opens timely)) (.of_registry rfl rfl rfl)

theorem Drawn.log (hd : s.Drawn stale) (journal : Journal) :
    ({ s with journal := journal } : Session).Drawn stale :=
  hd.same (hd.sound.move (.journal s journal)) (.of_registry rfl rfl rfl)

/-! ### New trees -/

section Plant

variable {handle : Int} {root : Node} {direction : Direction} {uri : Option Text} {kind : TreeKind}

/-- A new tree is planted under the next handle, and is to be drawn. -/
theorem draws_plant (hd : s.Drawn stale) (seed : Seed s direction root)
    (hk : direction.kind? = some kind) {f : TreeId → SessionM α} {Q : α → Session → Prop}
    (hf : ∀ id t, t.Drawn (insert id stale) → t.isOpen id → (t.tree id).direction = direction →
      (f id).Ends t Q Firm) :
    (putTree ⟨s.registry.nextHandle, root, direction, uri, false, false, [], [], []⟩ >>= f).Ends
      { s with registry := { s.registry with nextHandle := s.registry.nextHandle + 1 } } Q
      Firm := by
  generalize hs' : ({ s with
    registry := { s.registry with nextHandle := s.registry.nextHandle + 1 } } : Session) = s'
  have hd' : s'.Drawn stale := by
    rw [← hs']
    exact hd.same (hd.sound.move (.issue s)) ⟨rfl, rfl, rfl, fun _ => rfl, fun _ _ => ⟨rfl, rfl⟩⟩
  have issued : s.registry.nextHandle < s'.registry.nextHandle := by
    rw [← hs']
    exact Int.lt_succ _
  have unused : ∀ id < s'.registry.trees.length, (s'.tree id).handle < s.registry.nextHandle := by
    rw [← hs']
    exact hd.sound.registry.issued
  have seed' : Seed s' direction root := by
    rw [← hs']
    cases seed with
    | call item direction => exact .call item direction
    | copy isOpen found => exact .copy isOpen found
    | outline made => exact .outline made
  refine .bind ((ends_putTree _ rfl hk).mono ?_ fun _ _ h => h.elim)
  rintro _ _ ⟨rfl, rfl⟩
  have hplant := hd'.plant uri issued unused seed' hk
  refine hf _ _ (hplant.log _) ?_ ?_
  · exact (Registry.isOpen_including rfl unused kind).2 (.inr rfl)
  · exact congrArg Tree.direction (Registry.tree_including_length _ _)

end Plant

theorem insert_diff_subset : insert id stale \ {id} ⊆ stale := fun _ hm => hm.1.resolve_left hm.2

/-- A tree that became stale is drawn. -/
theorem draws_last (hd : s.Drawn (insert id stale)) (ho : s.isOpen id) :
    (render id).Ends s (fun _ t => t.Drawn stale) Firm :=
  (draws_render hd ho).mono (fun _ _ h => h.mono insert_diff_subset) fun _ _ h => h

/-- A new tree is asked for, if it is to be, and drawn. -/
theorem draws_present (hd : s.Drawn (insert id stale)) (ho : s.isOpen id) {asks : Bool}
    (hc : asks → (s.tree id).direction.calls?.isSome) :
    (present asks id).Ends s (fun _ t => t.Drawn stale) Firm := by
  have hdraws {t : Session} (ht : t.Drawn (insert id stale)) (ho : t.isOpen id) :
      (present false id).Ends t (fun _ u => u.Drawn stale) Firm :=
    .bind ((draws_last ht ho).mono (fun _ _ h => .pure h) fun _ _ h => h)
  cases asks with
  | true =>
    rw [present_true]
    refine .bind (.get (.bind ((draws_ask hd (member_rootOf ho) (hc rfl)).mono ?_ fun _ _ h => h)))
    rintro _ t ⟨ht, ho⟩
    exact hdraws ht ho
  | false => exact hdraws hd ho

theorem draws_openCalls (hd : s.Drawn stale) (item : CallItem) (direction : CallDirection) :
    (openCalls item (.calls direction)).Ends s (fun _ t => t.Drawn stale) Firm := by
  refine ends_openCalls (draws_plant hd (.call item direction) rfl fun id t ht ho hdir => ?_)
  refine draws_present ht ho fun _ => ?_
  rw [hdir]
  rfl

theorem draws_openOutline (hd : s.Drawn stale) (uri : Text) {root : Except Fault Node}
    (hr : ∀ node, root = .ok node → ∃ entries, Node.outline uri entries = .ok node)
    (he : ∀ e, root = .error e → e.isRejection = false) :
    (openOutline uri root).Ends s (fun _ t => t.Drawn stale) Firm := by
  refine ends_openOutline he fun node hnode => ?_
  obtain ⟨entries, hmade⟩ := hr node hnode
  exact draws_plant hd (.outline hmade) rfl fun id t ht ho _ => draws_present ht ho nofun

/-! ### What a user asks for -/

/-- Where something is refused, nothing was done. -/
def Untouched (s : Session) : Fault → Session → Prop := fun e t => e.isRejection → t = s

theorem Firm.untouched {e : Fault} (h : Firm e t) : s.Untouched e t := fun he => by
  rw [show e.isRejection = false from h] at he
  cases he

theorem drawn_unfolded (hd : s.Drawn stale) (hm : s.Member id ref) {expanded : Bool}
    (hk : expanded = true → (s.node ref).children ≠ [] ∨ (s.node ref).payload.callItem? = none) :
    (s.unfolded ref expanded).Drawn (insert id stale) ∧ (s.unfolded ref expanded).isOpen id := by
  have hkeeps : Keeps {id} s (s.unfolded ref expanded) :=
    .of_updateNode (hd.sound.stands hm) rfl rfl rfl (.inl hm.tree)
  refine ⟨(hd.keeps (hd.sound.move (.unfold hm hk)) hkeeps).mono ?_, ?_⟩
  · exact fun _ hm => hm.symm
  · exact (hkeeps.isOpen id).trans hm.isOpen

theorem draws_expand (hd : s.Drawn stale) (id : TreeId) (ref : NodeRef) :
    (expand id ref).Ends s (fun _ t => t.Drawn stale) s.Untouched := by
  refine ends_expand hd.sound (fun _ _ _ => rfl) (fun _ _ => hd) (fun hm hknown => ?_)
    fun hm _ hc => (draws_ask hd hm hc).mono (fun _ _ h => h.1) fun _ _ h => h.untouched
  obtain ⟨ht, ho⟩ := drawn_unfolded hd hm fun _ => hknown
  exact (draws_last ht ho).mono (fun _ _ h => h) fun _ _ h => h.untouched

theorem drawn_givenUp (hd : s.Drawn stale) (hm : s.Member id ref) :
    (s.givenUp ref).Drawn stale ∧ (s.givenUp ref).Member id ref := by
  refine ⟨hd.same (hd.sound.givenUp hm) ?_, member_givenUp hd.sound hm⟩
  refine .of_updateNode (hd.sound.stands hm) ?_ ?_ (registry_givenUp s ref)
    (.inr fun m => m.idle_pending none)
  · unfold givenUp
    split <;> rfl
  · unfold givenUp
    split <;> rfl

theorem draws_collapse (hd : s.Drawn stale) (id : TreeId) (ref : NodeRef) :
    (collapse id ref).Ends s (fun _ t => t.Drawn stale) s.Untouched := by
  refine ends_collapse hd.sound (fun _ _ _ => rfl) (fun _ _ _ => rfl)
    (fun hm _ => (drawn_givenUp hd hm).1) fun hm => ?_
  obtain ⟨hd', hm'⟩ := drawn_givenUp hd hm
  obtain ⟨ht, ho⟩ := drawn_unfolded hd' hm' fun he : false = true => by cases he
  exact (draws_last ht ho).mono (fun _ _ h => h) fun _ _ h => h.untouched

theorem draws_toggle (hd : s.Drawn stale) (id : TreeId) (ref : NodeRef) :
    (toggle id ref).Ends s (fun _ t => t.Drawn stale) s.Untouched :=
  ends_toggle (fun _ _ => draws_collapse hd id ref) (draws_expand hd id ref)

theorem draws_focus (hd : s.Drawn stale) (id : TreeId) (ref : NodeRef) :
    (focus id ref).Ends s (fun _ t => t.Drawn stale) s.Untouched := by
  obtain ⟨kind, hk⟩ := (hd.sound.grown id).known
  refine ends_focus hd.sound (fun _ _ _ => rfl) fun hm => ?_
  refine Action.Ends.mono (draws_plant hd (hd.sound.seed_copy hm) hk fun new t ht ho hdir => ?_)
    (fun _ _ h => h) fun _ _ h => h.untouched
  exact draws_present ht ho fun hasks => hdir ▸ (Bool.and_eq_true_iff.1 hasks).1

theorem draws_switchDirection (hd : s.Drawn stale) (id : TreeId) :
    (switchDirection id).Ends s (fun _ t => t.Drawn stale) s.Untouched := by
  refine ends_switchDirection hd.sound (fun _ _ _ => rfl) (fun _ _ => rfl)
    fun direction ho hdir => ?_
  obtain ⟨hd', -⟩ := drawn_givenUp hd (member_rootOf ho)
  obtain ⟨hturn, -⟩ := moves_switchDirection hd.sound ho hdir
  have hkeeps : Keeps {id} (s.givenUp (s.rootOf id)) (s.turnedRound id direction) :=
    .of_update rfl rfl rfl rfl
  have hturned : (s.turnedRound id direction).Drawn (insert id stale) :=
    (hd'.keeps (hd'.sound.move hturn) hkeeps).mono fun _ hm => hm.symm
  have hopen : (s.turnedRound id direction).isOpen id := isOpen_turnedRound hd.sound ho
  have hcalls : ((s.turnedRound id direction).tree id).direction.calls?.isSome := by
    rw [tree_turnedRound hd.sound ho]
    rfl
  refine .bind ((draws_ask hturned (member_rootOf hopen) hcalls).mono ?_ fun _ _ h => h.untouched)
  rintro token t ⟨hd, ho⟩
  exact .bind ((draws_last hd ho).mono (fun _ _ h => .pure h) fun _ _ h => h.untouched)

theorem draws_jump (hd : s.Drawn stale) (id : TreeId) (ref : NodeRef) :
    (jump id ref).Ends s (fun _ t => t.Drawn stale) s.Untouched :=
  ends_jump.mono (fun _ _ h => h ▸ hd) fun _ _ h _ => h.1

theorem draws_details (hd : s.Drawn stale) (id : TreeId) (ref : NodeRef) :
    (details id ref).Ends s (fun _ t => t.Drawn stale) s.Untouched :=
  ends_details.mono (fun _ _ h => h ▸ hd) fun _ _ h _ => h.1

theorem draws_close (hd : s.Drawn stale) (handle : Int) :
    (close handle).Ends s (fun _ t => t.Drawn stale) s.Untouched := by
  cases slot : s.registry.slots.get? handle with
  | none =>
    exact ends_close_of_none slot (fun _ => hd.log _) fun _ _ => rfl
  | some id =>
    obtain ⟨kind, hk⟩ := (hd.sound.grown id).known
    refine (ends_close slot hk).mono ?_ fun _ _ h => h.elim
    rintro _ _ ⟨-, rfl⟩
    exact (hd.close slot hk).log _

theorem draws_setHidden (hd : s.Drawn stale) (handle : Int) (hidden : Bool) :
    (setHidden handle hidden).Ends s (fun _ t => t.Drawn stale) s.Untouched := by
  cases slot : s.registry.slots.get? handle with
  | none =>
    unfold Action.Ends
    rw [setHidden_of_none slot]
    exact fun _ => rfl
  | some id =>
    refine (ends_hide slot hidden).mono ?_ fun _ _ h => h.elim
    rintro _ _ ⟨-, rfl⟩
    exact hd.hide slot hidden

theorem draws_toggleHidden (hd : s.Drawn stale) (kind : Text) :
    (toggleHidden kind).Ends s (fun _ t => t.Drawn stale) s.Untouched :=
  ends_toggleHidden (fun _ _ _ => rfl) hd fun _ _ _ _ => draws_setHidden hd _ _

/-! ### Pumping -/

theorem isRejection_of_mapError {x : Except Malformed α} {e : Fault}
    (h : x.mapError Fault.malformed = .error e) : e.isRejection = false := by
  cases x with
  | ok a => cases h
  | error reason =>
    obtain rfl := Except.error.inj h
    rfl

/-- An outline is never refused. -/
theorem isRejection_of_outline {uri : Text} {entries : List Node.Entry} {e : Fault}
    (h : Node.outline uri entries = .error e) : e.isRejection = false := by
  rcases Except.of_bind_error h with h | ⟨root, -, h⟩
  · exact isRejection_of_mapError h
  rcases Except.of_bind_error h with h | ⟨children, -, h⟩
  · obtain ⟨entry, -, h⟩ := Except.of_mapM_error h
    cases entry with
    | nested symbol => cases h
    | flat symbol => cases h
    | raw value =>
      rw [Node.Entry.node] at h
      split at h
      · rcases Except.of_bind_error h with h | ⟨symbol, -, h⟩
        · exact isRejection_of_mapError h
        · cases h
      · split at h
        · rcases Except.of_bind_error h with h | ⟨symbol, -, h⟩
          · exact isRejection_of_mapError h
          · cases h
        · obtain rfl := Except.error.inj h
          rfl
  · cases h

theorem isRejection_of_outlineOfJson {uri : Text} {answer : Json} {e : Fault}
    (h : Node.outlineOfJson uri answer = .error e) : e.isRejection = false := by
  rcases Except.of_bind_error h with h | ⟨root, -, h⟩
  · exact isRejection_of_mapError h
  rcases Except.of_bind_error h with h | ⟨entries, -, h⟩
  · exact isRejection_of_mapError h
  · exact isRejection_of_outline h

/-- What a request leads to is drawn, but for the tree that grew. -/
theorem draws_act (hd : s.Drawn stale) (resolution : Resolution) :
    (act resolution).Ends s (fun id t => id = resolution.grown? ∧ t.Drawn stale) Firm := by
  obtain ⟨token, purpose, result⟩ := resolution
  cases result with
  | failure reason => exact .bind (.modify (.pure ⟨rfl, hd.log _⟩))
  | children nodes => cases purpose <;> exact .pure ⟨rfl, hd⟩
  | items items =>
    cases items with
    | nil => cases purpose <;> exact .pure ⟨rfl, hd⟩
    | cons item rest =>
      cases purpose with
      | openCalls uri direction =>
        exact .bind ((draws_openCalls hd item direction).mono (fun _ _ h => .pure ⟨rfl, h⟩)
          fun _ _ h => h)
      | _ => exact .pure ⟨rfl, hd⟩
  | symbols symbols =>
    cases purpose with
    | openOutline uri =>
      exact .bind ((draws_openOutline hd uri (fun _ hn => outline_of_outlineOfJson hn)
        fun _ he => isRejection_of_outlineOfJson he).mono (fun _ _ h => .pure ⟨rfl, h⟩)
        fun _ _ h => h)
    | _ => exact .pure ⟨rfl, hd⟩

theorem draws_acts (hd : s.Drawn stale) (results : List Resolution) :
    (results.filterMapM act).Ends s
      (fun ids t => ids = results.filterMap Resolution.grown? ∧ t.Drawn stale) Firm := by
  induction results generalizing s with
  | nil => exact .pure ⟨rfl, hd⟩
  | cons resolution rest ih =>
    rw [List.filterMapM_cons, List.filterMap_cons]
    refine .bind ((draws_act hd resolution).mono ?_ fun _ _ h => h)
    rintro _ t ⟨rfl, ht⟩
    cases resolution.grown? with
    | none => exact ih ht
    | some id =>
      refine .bind ((ih ht).mono ?_ fun _ _ h => h)
      rintro _ u ⟨rfl, hu⟩
      exact .pure ⟨rfl, hu⟩

/-- Trees that are not open need not be drawn. -/
theorem Drawn.of_not_isOpen (hd : s.Drawn stale) (ho : ¬s.isOpen id) : s.Drawn (stale \ {id}) := by
  refine ⟨hd.sound, hd.owned, hd.visible, fun other hother hn => ?_⟩
  refine hd.depicted other hother fun hm => hn ⟨hm, ?_⟩
  rintro rfl
  exact ho hother

theorem draws_redraw (hd : s.Drawn stale) (ids : List TreeId) :
    Action.Ends (ids.forM fun id => do if (← get).isOpen id then let _ ← render id) s
      (fun _ t => t.Drawn (stale \ {id | id ∈ ids})) Firm := by
  induction ids generalizing s stale with
  | nil => exact .pure (hd.mono fun _ hm => ⟨hm, List.not_mem_nil⟩)
  | cons id ids ih =>
    have hsub : (stale \ {id}) \ {other | other ∈ ids} ⊆ stale \ {other | other ∈ id :: ids} :=
      fun other hm => ⟨hm.1.1, fun hin => (List.mem_cons.1 hin).elim hm.1.2 hm.2⟩
    have hrest {t : Session} (ht : t.Drawn (stale \ {id})) :=
      (ih ht).mono (fun _ _ h => h.mono hsub) fun _ _ h => h
    refine .bind (.bind (.get ?_))
    split
    · rename_i ho
      exact .bind ((draws_render hd ho).mono (fun _ _ h => .pure (hrest h)) fun _ _ h => h)
    · rename_i ho
      exact .pure (hrest (hd.of_not_isOpen ho))

theorem draws_pump (h : s.Steady) (hd : s.Drawn stale) :
    pump.Ends s (fun _ t => t.Drawn stale) Firm := by
  unfold pump
  refine .bind ((draws_drain h hd).mono ?_ fun _ _ h => h)
  intro results t ht
  refine .bind ((draws_acts ht results).mono ?_ fun _ _ h => h)
  rintro _ u ⟨rfl, hu⟩
  refine .bind ((draws_redraw hu _).mono ?_ fun _ _ h => h)
  rintro _ v hv
  refine .pure (hv.mono ?_)
  rintro id ⟨hm, hn⟩
  exact hm.resolve_right fun hm => hn (List.mem_eraseDups.2 hm)

/-! ### Runs -/

/-- **Every event leaves all open trees drawn** that were, and where something is refused, nothing
was done. -/
theorem draws_event (h : s.Steady) (hd : s.Drawn stale) (event : Event) :
    event.act.Ends s (fun _ t => t.Drawn stale) s.Untouched := by
  have returns {α : Type} {x : SessionM α} {f : α → Report}
      (hx : x.Ends s (fun _ t => t.Drawn stale) s.Untouched) :
      (x >>= fun a => pure (f a)).Ends s (fun _ t => t.Drawn stale) s.Untouched :=
    .bind (hx.mono (fun _ _ h => .pure h) fun _ _ h => h)
  have firm {α : Type} {x : SessionM α} (hx : x.Ends s (fun _ t => t.Drawn stale) Firm) :
      x.Ends s (fun _ t => t.Drawn stale) s.Untouched :=
    hx.mono (fun _ _ h => h) fun _ _ h => h.untouched
  cases event with
  | openCalls item direction =>
    refine returns ?_
    cases direction with
    | calls direction => exact firm (draws_openCalls hd item direction)
    | outline => exact .bind (.throw fun _ => rfl)
    | unknown name => exact .bind (.throw fun _ => rfl)
  | startCalls uri line character direction =>
    refine returns ?_
    unfold askItems
    cases direction with
    | calls direction => exact firm (draws_inquire hd (.calls uri line character direction))
    | outline => exact .throw fun _ => rfl
    | unknown name => exact .throw fun _ => rfl
  | openOutline uri entries =>
    exact returns (firm (draws_openOutline hd uri (fun _ hn => ⟨entries, hn⟩)
      fun _ he => isRejection_of_outline he))
  | showOutline uri answer =>
    exact returns (firm (draws_openOutline hd uri (fun _ hn => outline_of_outlineOfJson hn)
      fun _ he => isRejection_of_outlineOfJson he))
  | startOutline uri => exact returns (firm (draws_inquire hd (.outline uri)))
  | expand id ref => exact returns (draws_expand hd id ref)
  | collapse id ref => exact returns (f := fun _ => .nothing) (draws_collapse hd id ref)
  | toggle id ref => exact returns (draws_toggle hd id ref)
  | focus id ref => exact returns (draws_focus hd id ref)
  | switchDirection id => exact returns (draws_switchDirection hd id)
  | jump id ref => exact returns (draws_jump hd id ref)
  | details id ref => exact returns (draws_details hd id ref)
  | render id =>
    refine returns ?_
    by_cases ho : s.isOpen id
    · refine (draws_render hd ho).mono (fun _ _ h => h.mono ?_) fun _ _ h => h.untouched
      exact fun _ hm => hm.1
    · unfold Session.render
      refine .bind (checks_open.mono ?_ fun _ _ h _ => h.1)
      rintro _ t ⟨rfl, ho'⟩
      exact absurd ho' ho
  | close handle => exact returns (draws_close hd handle)
  | setHidden handle hidden => exact returns (draws_setHidden hd handle hidden)
  | toggleHidden kind => exact returns (draws_toggleHidden hd kind)
  | pump => exact returns (firm (draws_pump h hd))
  | settle request outcome =>
    by_cases hr : ∃ sent, s.sent[request]? = some sent ∧ sent.isOpen
    · obtain ⟨sent, hr, ho⟩ := hr
      unfold Action.Ends
      rw [settle_of_isOpen hr ho]
      exact hd.same (hd.sound.arrived outcome hr ho) (.of_registry rfl rfl rfl)
    · unfold Action.Ends
      rw [settle_of_not_isOpen fun sent hi ho => hr ⟨sent, hi, ho⟩]
      exact hd
  | tick now =>
    exact .bind (.modify (.pure (hd.same (hd.sound.ticked now) (.of_registry rfl rfl rfl))))

/-- The event succeeds, or fails for what it was asked of. -/
def Event.isProper (s : Session) (event : Event) : Bool :=
  match event.act s with
  | .ok _ _ => true
  | .error e _ => e.isRejection

/-- No event of the run fails for anything but what it was asked of. -/
def isProperRun : Session → List Event → Bool
  | _, [] => true
  | s, event :: rest => event.isProper s && isProperRun (s.step event) rest

theorem isProperRun_append {first second : List Event}
    (h : s.isProperRun (first ++ second)) : s.isProperRun first := by
  induction first generalizing s with
  | nil => rfl
  | cons event rest ih =>
    obtain ⟨he, h⟩ := Bool.and_eq_true_iff.1 h
    exact Bool.and_eq_true_iff.2 ⟨he, ih h⟩

/-- After an event everything is drawn again. -/
theorem Drawn.step (hd : s.Drawn ∅) (h : s.Steady) {event : Event} (hp : event.isProper s) :
    (s.step event).Drawn ∅ := by
  have he := draws_event h hd event
  unfold Event.isProper at hp
  unfold Session.step Action.after
  unfold Action.Ends at he
  cases ha : event.act s with
  | ok report t =>
    rw [ha] at he
    exact he
  | error e t =>
    rw [ha] at he hp
    have ht : t = s := he hp
    rw [ht]
    exact hd

theorem Drawn.steps (hd : s.Drawn ∅) (h : s.Steady) {events : List Event}
    (hp : s.isProperRun events) : (s.steps events).Drawn ∅ := by
  induction events generalizing s with
  | nil => exact hd
  | cons event rest ih =>
    obtain ⟨he, hp⟩ := Bool.and_eq_true_iff.1 hp
    exact ih (hd.step h he) (h.steps [event]) hp

/-! ### What is on display -/

/-- What the editor holds of an open tree: its buffer and its maps are what its nodes are drawn as
now, and the node on a row is the node that the row shows. -/
structure Shows (s : Session) (id : TreeId) (buffer : Buffer) (view : View) : Prop where
  held : s.buffers.get? (s.tree id).handle = some buffer
  depicts : s.Depicts id buffer view
  visible : buffer.visible = !(s.tree id).hidden
  rows : ∀ (i : Nat) (row : Row), view[i]? = some row → ∃ ref, s.nodeAt? id ((i : Int) + 1) = some ref ∧
    s.Member id ref ∧ s.node ref = row.node ∧
      buffer.lines[i]? = some ((s.node ref).rowText s.style)

/-- There is a buffer for every open tree and no other, and it is in step with the tree. -/
structure Display (s : Session) : Prop where
  handles : ∀ handle, s.buffers.contains handle ↔ handle ∈ s.registry.openHandles
  trees : ∀ id, s.isOpen id → ∃ buffer view, s.Shows id buffer view

/-- The node on a row is the one that the row shows. -/
theorem Depicts.rows (hd : s.Depicts id buffer view) (ho : s.isOpen id) {i : Nat} {row : Row}
    (hi : view[i]? = some row) : ∃ ref, s.nodeAt? id ((i : Int) + 1) = some ref ∧
      s.Member id ref ∧ s.node ref = row.node ∧
        buffer.lines[i]? = some ((s.node ref).rowText s.style) := by
  obtain ⟨hat, htext⟩ := View.at?_of_ofTree hd.drawn (List.mem_of_getElem? hi)
  have hoccurs : s.Occurs id row.path row.node := ⟨ho, hat⟩
  refine ⟨⟨id, (s.tree id).place row.path⟩, ?_, hoccurs.member, hoccurs.node, ?_⟩
  · rw [nodeAt?, if_pos ho, Tree.nodeAt?, hd.lineMap, View.get?_lineMap, hi]
    rfl
  · rw [hoccurs.node, hd.lines, View.lines, List.getElem?_map, hi, Option.map_some, htext]

/-- A tree that is not stale is on display. -/
theorem Drawn.shows (hd : s.Drawn stale) (ho : s.isOpen id) (hn : id ∉ stale) :
    ∃ buffer view, s.Shows id buffer view := by
  obtain ⟨buffer, view, hb, hdepicts⟩ := hd.depicted id ho hn
  refine ⟨buffer, view, hb, hdepicts, ?_, fun i row hi => hdepicts.rows ho hi⟩
  rw [← Buffers.buffer_of_get? hb]
  exact hd.visible id ho

theorem Drawn.display (hd : s.Drawn ∅) : s.Display := by
  have hkey (handle : Int) : handle ∈ s.registry.openHandles ↔
      ∃ id, s.registry.slots.get? handle = some id := by
    constructor
    · intro hm
      obtain ⟨⟨key, id⟩, he, rfl⟩ := List.mem_map.1 hm
      exact ⟨id, Table.get?_of_mem hd.sound.registry.distinct he⟩
    · rintro ⟨id, hs⟩
      exact List.mem_map_of_mem (Table.mem_of_get? hs)
  refine ⟨fun handle => ?_, fun id ho => ?_⟩
  · rw [hkey, Table.contains_iff]
    refine ⟨fun ⟨buffer, hb⟩ => hd.owned handle buffer hb, fun ⟨id, hs⟩ => ?_⟩
    obtain ⟨buffer, -, hb, -⟩ :=
      hd.depicted id (hd.sound.registry.isOpen_of_slot hs) (Set.notMem_empty id)
    exact ⟨buffer, (hd.sound.registry.slots handle id hs).2.1 ▸ hb⟩
  · exact hd.shows ho (Set.notMem_empty id)

/-- **Buffers, maps and trees never drift apart**: in a run in which nothing fails but what is
refused or is not there, they are in step after every event. -/
theorem display_steps (client : Client) (settings : Settings) (root : Path) (now : Number)
    (before after : List Event)
    (proper : (start client settings root now).isProperRun (before ++ after)) :
    ((start client settings root now).steps before).Display :=
  ((drawn_start ..).steps (.of_start ..) (isProperRun_append proper)).display

/-- A run in which the root is to be folded, and a node to be opened that is not there. -/
def refusedRun : List Event :=
  answeredRun ++ [.collapse 0 ⟨0, 0, []⟩, .expand 0 ⟨0, 0, [7]⟩]

theorem display_refusedRun :
    freshSession.isProperRun (refusedRun ++ []) ∧ (freshSession.steps refusedRun).Display := by
  have hp : freshSession.isProperRun (refusedRun ++ []) := by decide +kernel
  exact ⟨hp, display_steps .server _ _ _ refusedRun [] hp⟩

end Session

end SymbolTrees
