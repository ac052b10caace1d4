import SymbolTrees.Proofs.Session.Replay

/-!
# One more level

When everything that a level of nodes waits for is in the queue, pumping the session puts the next
level below it: the tree of a recording unfolded by some levels becomes the tree unfolded by one
level more.
-/

namespace SymbolTrees

open SymbolTrees.Server (Outcome)
open SymbolTrees.Server.Recording (calls callsOf_listed find?_listed IsRecorded symbol?)

variable {r : Replay} {level : Nat} {k : Token} {outcome : Outcome} {arrivals : List Arrival}

/-! ### The outcomes of a recording -/

/-- What has arrived for a request. -/
def replyIn (arrivals : List Arrival) (k : Token) : Outcome :=
  match arrivals with
  | [] => .cancelled
  | .reply token outcome :: rest => if token = k then outcome else replyIn rest k
  | .lookup .. :: rest => replyIn rest k

theorem replyIn_of_mem (h : (replies arrivals).Nodup) (hm : .reply k outcome ∈ arrivals) :
    replyIn arrivals k = outcome := by
  induction arrivals with
  | nil => cases hm
  | cons first rest ih =>
    cases first with
    | lookup token other =>
      rw [replyIn]
      exact ih h ((List.mem_cons.1 hm).resolve_left fun he => by cases he)
    | reply token other =>
      have hreplies : replies (.reply token other :: rest) = token :: replies rest := rfl
      obtain ⟨hnew, hrest⟩ := List.nodup_cons.1 (hreplies ▸ h)
      rw [replyIn]
      rcases List.mem_cons.1 hm with he | hm
      · obtain ⟨rfl, rfl⟩ := Arrival.reply.inj he
        exact if_pos rfl
      · have hk : k ∈ replies rest := List.mem_filterMap.2 ⟨_, hm, rfl⟩
        have hne : token ≠ k := by
          rintro rfl
          exact hnew hk
        rw [if_neg hne, ih hrest hm]

namespace Replay

/-- The calls of an answer. -/
def callsIn (r : Replay) : Outcome → List Call
  | .answer value =>
    match Session.callsOf r.direction value with
    | .ok calls => calls
    | .error _ => []
  | _ => []

/-- How everything will turn out that is under way: as it is in the queue, and as the recording has
it for the lookups that follow. -/
def outcomes (r : Replay) (arrivals : List Arrival) : Outcomes where
  reply k := replyIn arrivals k
  lookup k i :=
    match (r.callsIn (replyIn arrivals k))[i]? with
    | some call => r.symbolsAnswer call.item.name
    | none => .cancelled

theorem lookup_outcomes {value : Json} {found : List Call} {i : Nat} {call : Call}
    (hr : (r.outcomes arrivals).reply k = .answer value)
    (hread : Session.callsOf r.direction value = .ok found) (hi : found[i]? = some call) :
    (r.outcomes arrivals).lookup k i = r.symbolsAnswer call.item.name := by
  have hr : replyIn arrivals k = .answer value := hr
  simp only [outcomes, hr, callsIn, hread, hi]

/-- The node of a call whose symbol is looked up. -/
theorem childOf_symbol {i : Nat} {call : Call} {found : List Call} (hresolves : r.resolves = true)
    (hi : found[i]? = some call) {π : Outcomes}
    (hlookup : π.lookup k i = r.symbolsAnswer call.item.name) (depth : Int) :
    Session.childOf depth call (π.symbol k found i none) =
      .leaf (shownFor r.recording r.resolves call.item) depth call.ranges := by
  obtain ⟨symbol, hs, -⟩ := find?_listed r.wellFormed call.item call.item.name
  have hsymbol : symbol? r.recording call.item = symbol := by
    rw [symbol?, hs]
  have hfound : π.symbol k found i none = symbol := by
    rw [Outcomes.symbol, hlookup, hi]
    simp only [symbolsAnswer, hs]
  rw [hfound, shownFor, if_pos hresolves, hsymbol]
  cases symbol <;> rfl

/-- The nodes that an answer brings are those of the calls that are recorded. -/
theorem zipWith_childOf {π : Outcomes} {found : List Call}
    (hlookup : ∀ i call, found[i]? = some call →
      π.lookup k i = r.symbolsAnswer call.item.name) (depth : Int) :
    found.zipWith (Session.childOf depth) (if r.resolves then
        found.mapIdx fun i _ => π.symbol k found i none else found.map fun _ => none) =
      found.map fun call => .leaf (shownFor r.recording r.resolves call.item) depth call.ranges := by
  refine List.ext_getElem? fun i => ?_
  rw [List.getElem?_zipWith, List.getElem?_map]
  cases hresolves : r.resolves with
  | false =>
    rw [if_neg Bool.false_ne_true, List.getElem?_map]
    cases found[i]? <;> rfl
  | true =>
    rw [if_pos rfl, List.getElem?_mapIdx]
    cases hi : found[i]? with
    | none => rfl
    | some call =>
      exact congrArg some (hresolves ▸ childOf_symbol hresolves hi (hlookup i call hi) depth)

end Replay

namespace Session

variable {s t : Session} {path : List Nat} {n m : Node} {item : CallItem}

/-! ### Nodes that wait -/

/-- The tree of a recording is unfolded to a level, but for nodes of that level that wait for
answers which are in the queue. -/
structure Deepens (r : Replay) (level : Nat) (s : Session) : Prop extends Replays r s where
  root : (s.tree r.tree).root.idle = r.root level
  unasked : ∀ l outcome, .lookup l outcome ∉ s.arrivals
  waiting : ∀ path n k, s.Occurs r.tree path n → n.pending = some k → path.length = level ∧
    ∃ inquiry item, s.pending.get? k = some inquiry ∧ n.payload.callItem? = some item ∧
      .reply k (r.callsAnswer item.name) ∈ s.arrivals

namespace Deepens

theorem ticked (h : s.Deepens r level) (now : Float) : (s.ticked (.float now)).Deepens r level :=
  ⟨h.toReplays.ticked now, h.root, h.unasked, fun path n k ho hk =>
    h.waiting path n k ⟨h.isOpen, ho.found⟩ hk⟩

theorem accordant (h : s.Deepens r level) : Accordant (r.outcomes s.arrivals) s := by
  have hqueued := h.steady.sound.queued
  refine ⟨h.steady, fun arrival hm => ?_, fun arrival hm => ?_, ?_⟩
  · cases arrival with
    | lookup l outcome => exact absurd hm (h.unasked l outcome)
    | reply token outcome =>
      obtain ⟨sent, hs, rfl, -⟩ := hqueued.settled token (List.mem_filterMap.2 ⟨_, hm, rfl⟩)
      exact hqueued.issued sent hs
  · cases arrival with
    | lookup l outcome => exact absurd hm (h.unasked l outcome)
    | reply token outcome =>
      intro inquiry hi
      obtain ⟨ref, generation, hp⟩ := h.purposes token inquiry hi
      exact ⟨(replyIn_of_mem hqueued.single hm).symm, _, ref, generation, _, hp⟩
  · intro k inquiry id ref generation direction value found i call l hi hp hreply hread hcall
      arrival ha
    obtain ⟨ref', generation', hp'⟩ := h.purposes k inquiry hi
    obtain ⟨-, -, -, rfl⟩ := Purpose.expand.inj (hp'.symm.trans hp)
    rw [h.client, r.prompt_symbols] at ha
    rw [List.mem_singleton.1 ha, r.lookup_outcomes hreply hread hcall]

/-- **A node that waits becomes the item with its calls below it.** -/
theorem fill_of_waiting (h : s.Deepens r level) (ho : s.Occurs r.tree path m)
    (hk : m.pending = some k) (hitem : m.payload.callItem? = some item) :
    m.fill (fun k => (s.prospect (r.outcomes s.arrivals) k).map Ending.apply) =
      unfolding r.recording r.direction r.resolves 1 m.payload item m.depth m.callRanges := by
  have hs := h.steady.sound
  obtain ⟨-, inquiry, item', hi, hitem', hm⟩ := h.waiting path m k ho hk
  obtain rfl := Option.some.inj (hitem.symm.trans hitem')
  obtain ⟨ref, generation, hp⟩ := h.purposes k inquiry hi
  obtain rfl := (hs.waiting.own k inquiry hi).1
  have hlive := hs.isLive_of_member ho.member (ho.node ▸ hk) hi
  have hread := callsOf_listed r.wellFormed r.direction item.name
  have hreply : (r.outcomes s.arrivals).reply inquiry.token = r.callsAnswer item.name :=
    replyIn_of_mem hs.queued.single hm
  obtain ⟨-, hleaf, hclosed⟩ := (hs.fits ho).waiting (hk ▸ Option.some_ne_none _)
  have hprospect := prospect_of_unanswered (π := r.outcomes s.arrivals) hi hp hlive
    (hs.calls_eq_nil hm hi)
  by_cases hcalls : calls r.recording r.direction item.name = []
  · rw [hcalls] at hread
    have hrefuses : Refuses s (.expand r.tree ref generation r.direction)
        ((r.outcomes s.arrivals).reply inquiry.token) (.noCalls r.direction (s.node ref).name) := by
      rw [hreply]
      exact .noCalls r.tree ref generation hread
    rw [Outcomes.ending_of_refuses hrefuses] at hprospect
    rw [Node.fill_of_some (by rw [hk, Option.bind_some, hprospect]; rfl),
      unfolding_of_calls_eq_nil hcalls]
    obtain ⟨payload, depth, expanded, pending, callRanges, children⟩ := m
    obtain rfl : children = [] := hleaf
    obtain rfl : expanded = false := hclosed
    rfl
  · rw [Outcomes.ending_of_answer hreply hread hcalls, h.resolves] at hprospect
    rw [Node.fill_of_some (by rw [hk, Option.bind_some, hprospect]; rfl),
      unfolding_of_calls hcalls]
    have hchildren := r.zipWith_childOf
      (fun i call hc => r.lookup_outcomes hreply hread hc) (m.depth + 1)
    exact congrArg (fun children => Node.mk m.payload m.depth true none m.callRanges children)
      hchildren

/-- A node of the tree that is unfolded so far, which may wait by now. -/
theorem occurs (h : s.Deepens r level) (hm : (r.root level).at? path = some m) :
    ∃ n, s.Occurs r.tree path n ∧ n.idle = m := by
  rw [← h.root, Node.at?_idle] at hm
  obtain ⟨n, hn, rfl⟩ := Option.map_eq_some_iff.1 hm
  exact ⟨n, ⟨h.isOpen, hn⟩, rfl⟩

/-- The recording has an answer to every request for the calls of a recorded item. -/
theorem not_baffled_calls (h : s.Deepens r level) (hi : IsRecorded item) :
    ¬s.client.Baffled (.calls r.direction item) := by
  rintro ⟨recording, reason, hc, he⟩
  obtain rfl := Client.replay.inj (h.client.symm.trans hc)
  cases (Server.Recording.answer_calls r.wellFormed hi r.direction).symm.trans he

end Deepens

/-- How the session goes on when the nodes on some paths are asked for: those of the level wait,
and no other one stops to wait. -/
structure Awaits (r : Replay) (level : Nat) (paths : List (List Nat)) (s t : Session) : Prop where
  deepens : t.Deepens r level
  waits : ∀ path ∈ paths, path.length = level → t.WaitsAt r.tree path
  still : ∀ path, s.WaitsAt r.tree path → t.WaitsAt r.tree path

namespace Awaits

variable {paths more : List (List Nat)} {u : Session}

theorem trans (h : Awaits r level paths s t) (h' : Awaits r level more t u) :
    Awaits r level (paths ++ more) s u := by
  refine ⟨h'.deepens, fun path hm hlength => ?_, fun path hw => h'.still path (h.still path hw)⟩
  rcases List.mem_append.1 hm with hm | hm
  · exact h'.still path (h.waits path hm hlength)
  · exact h'.waits path hm hlength

/-- Nothing needs to be done where all that is asked for waits. -/
theorem of_waits (h : s.Deepens r level)
    (hw : ∀ path ∈ paths, path.length = level → s.WaitsAt r.tree path) :
    Awaits r level paths s s := ⟨h, hw, fun _ hw => hw⟩

/-- That time has gone by does not show in what waits. -/
theorem of_ticked {now : Number} (h : Awaits r level paths (s.ticked now) t) :
    Awaits r level paths s t :=
  ⟨h.deepens, h.waits, fun path ⟨n, ho, hn⟩ => h.still path ⟨n, ⟨ho.isOpen, ho.found⟩, hn⟩⟩

end Awaits

/-- The node waits for the answer of the recording. -/
theorem Deepens.sends (h : s.Deepens r level) {ref : NodeRef} (hsends : Sends r ref item s t)
    (hitem : (s.node ref).payload.callItem? = some item)
    (hlength : ref.place.path.length = level) : Awaits r level [ref.place.path] s t := by
  have hs := h.steady.sound
  refine ⟨⟨hsends.replays h.toReplays, ?_, fun l outcome hm => ?_, fun path n k ho hk => ?_⟩,
    fun path hm _ => hsends.waitsAt hs (.inl (List.mem_singleton.1 hm)),
    fun path hw => hsends.waitsAt hs (.inr hw)⟩
  · rw [hsends.root hs, Node.idle_modifyAt fun m _ => m.idle_pending _]
    exact h.root
  · rcases hsends.of_mem_arrivals hm with hm | he
    · exact h.unasked l outcome hm
    · cases he
  · rcases Occurs.of_updateNode_of_children hs hsends.member rfl rfl hsends.registry ho with
      ⟨-, x, hx, hresembles⟩ | ⟨-, rfl, rfl⟩
    · obtain ⟨hlevel, inquiry, other, hi, hother, hm⟩ :=
        h.waiting path x k hx (hresembles.pending ▸ hk)
      refine ⟨hlevel, inquiry, other, hsends.get?_pending_of_some hs hi, ?_,
        hsends.mem_arrivals hm⟩
      rw [Node.payload_of_mark hresembles.mark]
      exact hother
    · obtain rfl := Option.some.inj hk
      obtain ⟨inquiry, hi⟩ := hsends.get?_pending
      exact ⟨hlength, inquiry, item, hi, hitem, hsends.answer⟩

/-- **A node of the level can be asked for**, and waits then. -/
theorem Deepens.ends_askChildren (h : s.Deepens r level) {ref : NodeRef} (hm : s.Member r.tree ref)
    (hstands : StandsFor (s.node ref).payload item) (hleaf : (s.node ref).children = [])
    (hlength : ref.place.path.length = level) :
    (askChildren r.tree ref none).Ends s (fun _ t => Awaits r level [ref.place.path] s t)
      fun _ _ => False := by
  have hs := h.steady.sound
  have hdirection : (s.tree r.tree).direction = .calls r.direction :=
    congrArg (fun frame => frame.2.1) h.frame
  refine (Session.ends_askChildren hs hm).mono ?_ ?_
  · intro token t hasks
    cases hasks with
    | known there =>
      have hflight : s.isInFlight (s.node ref) := there.resolve_left fun hc => hc hleaf
      refine .of_waits h fun path hpath _ => ?_
      rw [List.mem_singleton.1 hpath]
      refine ⟨_, hm.occurs hs, fun hnone => ?_⟩
      unfold isInFlight at hflight
      rw [hnone] at hflight
      cases hflight
    | sent askable timely =>
      obtain rfl := Direction.calls.inj (askable.direction.symm.trans hdirection)
      obtain rfl := Option.some.inj (askable.item.symm.trans hstands.callItem?)
      exact h.sends (h.toReplays.sends askable hstands.recorded timely) hstands.callItem? hlength
  · intro e t hbalks
    cases hbalks with
    | refused rejection bare =>
      rcases bare with bare | bare
      · rw [hdirection] at bare
        cases bare
      · cases hstands.callItem?.symm.trans bare
    | untimely askable late =>
      obtain ⟨deadline, hd⟩ := h.exists_deadline
      cases hd.symm.trans late
    | baffled askable timely baffled =>
      obtain rfl := Direction.calls.inj (askable.direction.symm.trans hdirection)
      obtain rfl := Option.some.inj (askable.item.symm.trans hstands.callItem?)
      exact h.not_baffled_calls hstands.recorded baffled

/-! ### Drawing -/

/-- A session on a recording stays one when its tree is drawn. -/
theorem Replays.shown (h : s.Replays r) {view : View}
    (hv : View.ofTree (s.tree r.tree) s.style = .ok view) : (s.shown r.tree view).Replays r := by
  have hopen (id : TreeId) : (s.shown r.tree view).isOpen id = s.isOpen id :=
    isOpen_shown s r.tree view
  exact ⟨h.steady.move (.draw h.isOpen hv), h.client, h.timely, h.resolves, h.style,
    (hopen r.tree).trans h.isOpen, fun id ho => h.alone id ((hopen id).symm.trans ho),
    (frame_shown view r.tree).trans h.frame, h.replies, h.lookups, h.purposes, h.supplied⟩

theorem Deepens.shown (h : s.Deepens r level) {view : View}
    (hv : View.ofTree (s.tree r.tree) s.style = .ok view) :
    (s.shown r.tree view).Deepens r level := by
  refine ⟨h.toReplays.shown hv, ?_, h.unasked, fun path n k ho hk => ?_⟩
  · rw [root_shown]
    exact h.root
  · exact h.waiting path n k ⟨h.isOpen, root_shown s r.tree view ▸ ho.found⟩ hk

/-- All nodes of the tree can be drawn. -/
theorem exists_ofTree (h : (s.tree r.tree).root.idle = r.root level) (style : Style) :
    ∃ view, View.ofTree (s.tree r.tree) style = .ok view := by
  refine View.exists_ofTree fun path m hm => ?_
  have hidle : (r.root level).at? path = some m.idle := by
    rw [← h, Node.at?_idle, hm]
    rfl
  have hpayload : m.idle.payload = m.payload := by
    rw [Node.idle_eq]
  obtain ⟨item, hstands⟩ := r.standsFor hidle
  exact ⟨item, hpayload ▸ hstands⟩

/-- The tree is drawn, and nothing else happens. -/
theorem Replays.ends_render (h : s.Replays r) (hroot : (s.tree r.tree).root.idle = r.root level) :
    (render r.tree).Ends s
      (fun view t => View.ofTree (s.tree r.tree) s.style = .ok view ∧ t = s.shown r.tree view)
      fun _ _ => False := by
  obtain ⟨view, hv⟩ := exists_ofTree hroot s.style
  refine (ends_render_of_ofTree h.isOpen hv).mono ?_ fun _ _ he => he
  rintro _ _ ⟨rfl, rfl⟩
  exact ⟨hv, rfl⟩

/-- The tree of a recording is unfolded by some levels, and nothing is under way. -/
structure Rests (r : Replay) (level : Nat) (s : Session) : Prop extends Replays r s where
  root : (s.tree r.tree).root = r.root level
  pending : s.pending = []
  arrivals : s.arrivals = []

namespace Rests

theorem idle (h : s.Rests r level) : (s.tree r.tree).root.idle = r.root level := by
  rw [h.root]
  exact idle_unfolding ..

theorem deepens (h : s.Rests r level) : s.Deepens r level := by
  refine ⟨h.toReplays, h.idle, fun l outcome hm => ?_, fun path n k ho hk => ?_⟩
  · rw [h.arrivals] at hm
    cases hm
  · have hidle : (s.tree r.tree).root.idle = (s.tree r.tree).root := h.idle.trans h.root.symm
    have hfound := ho.found
    rw [← hidle, Node.at?_idle] at hfound
    obtain ⟨m, -, rfl⟩ := Option.map_eq_some_iff.1 hfound
    rw [Node.idle_eq] at hk
    cases hk

theorem log (h : s.Rests r level) (journal : Journal) :
    ({ s with journal := journal } : Session).Rests r level :=
  ⟨h.toReplays.log journal, h.root, h.pending, h.arrivals⟩

theorem shown (h : s.Rests r level) {view : View}
    (hv : View.ofTree (s.tree r.tree) s.style = .ok view) : (s.shown r.tree view).Rests r level :=
  ⟨h.toReplays.shown hv, (root_shown ..).trans h.root, h.pending, h.arrivals⟩

theorem ends_redraw (h : s.Rests r level) (ids : List TreeId) :
    Action.Ends (ids.forM fun id => do if (← get).isOpen id then let _ ← render id) s
      (fun _ t => t.Rests r level) fun _ _ => False := by
  refine ends_redrawing (I := fun _ t => t.Rests r level) h (fun _ _ _ ht _ => ht) ?_
  intro id rest t ht ho
  obtain rfl := ht.alone id ho
  refine (ht.ends_render ht.idle).mono ?_ fun _ _ h => h
  rintro view _ ⟨hv, rfl⟩
  exact ht.shown hv

end Rests

/-! ### Pumping -/

/-- **When all nodes of a level wait, pumping the session unfolds one level more**, and nothing is
left to wait for. -/
theorem Deepens.ends_pump (h : s.Deepens r level)
    (hall : ∀ path m, (r.root level).at? path = some m → path.length = level →
      s.WaitsAt r.tree path) :
    pump.Ends s (fun _ t => t.Rests r (level + 1)) fun _ _ => False := by
  have hs := h.steady.sound
  unfold pump
  refine .bind (h.ends_drain.mono ?_ fun _ _ h => h)
  rintro results t ⟨hc, harrivals, hpending⟩
  obtain ⟨hat, hf⟩ := h.accordant.chain hc
  have hroot : (t.tree r.tree).root = r.root (level + 1) := by
    have hfilled := hf.filled r.tree
    have hnone (k : Token) : t.prospect (r.outcomes s.arrivals) k = none :=
      prospect_of_none (by rw [hpending]; rfl)
    rw [filled, Node.fill_eq_self _ fun path m _ => by cases m.pending <;> simp [hnone]]
      at hfilled
    rw [hfilled]
    refine fill_unfolding h.root rfl (fun path m hm hne => ?_) fun path m item hm hlength hitem => ?_
    · cases hk : m.pending with
      | none => rfl
      | some k => exact absurd (h.waiting path m k ⟨h.isOpen, hm⟩ hk).1 hne
    · have hidle : (r.root level).at? path = some m.idle := by
        rw [← h.root, Node.at?_idle, hm]
        rfl
      obtain ⟨n, ho, hwaits⟩ := hall path m.idle hidle hlength
      obtain rfl := Option.some.inj (hm.symm.trans ho.found)
      obtain ⟨k, hk⟩ := Option.ne_none_iff_exists'.1 hwaits
      exact h.fill_of_waiting ho hk hitem
  have hrests : t.Rests r (level + 1) := ⟨h.toReplays.chain hc, hroot, hpending, harrivals⟩
  have hexpands : ∀ resolution ∈ results, ∃ id ref generation direction,
      resolution.purpose = .expand id ref generation direction := fun resolution hm => by
    obtain ⟨ending, -, hreports⟩ := hf.foretold resolution hm
    exact hreports.expands
  refine .bind ((ends_acts_of_expands results hexpands).mono ?_ fun _ _ h => h)
  rintro _ _ ⟨rfl, journal, rfl, -⟩
  refine .bind (((hrests.log journal).ends_redraw _).mono ?_ fun _ _ h => h)
  rintro _ u hu
  exact .pure hu

end Session

end SymbolTrees
