import SymbolTrees.Proofs.Session.Aftermath
import SymbolTrees.Proofs.Session.Garbled
import SymbolTrees.Proofs.Session.Harvest

/-!
# Pumping

A session that is pumped does all that its reports lead to: the user is told of every failure, a
tree is opened for every answer that asks for one, and the nodes that are reported stand in trees
that are drawn with them. Where it stops, something that has arrived cannot be read, or a tree shows
a node whose document cannot be named (`pumping_steps`). If it cannot even be drained, the reports
that came before are lost: what they were about stands in the trees, and nobody is told of it.
-/

namespace SymbolTrees

open SymbolTrees.Server (Outcome Request)

namespace Session

variable {s t u : Session} {id : TreeId} {ref : NodeRef} {results : List Resolution}
  {r : Resolution} {e : Fault} {came : Nat → Request → Outcome → Prop}
  {own : Owners}

/-! ### What is done -/

/-- A tree without its maps is the same tree. -/
theorem Remains.tree (h : Remains s t id) : t.tree id =
    { s.tree id with lineMap := (t.tree id).lineMap, sourceMap := (t.tree id).sourceMap } :=
  Tree.eq_of_frame h.frame h.root rfl rfl

/-- The nodes of a tree stay where they are while it is drawn. -/
theorem Remains.member (h : Remains s t id) (hm : s.Member id ref) :
    t.Member id ref ∧ t.marks ref = s.marks ref := by
  have htree := h.tree
  refine ⟨⟨h.isOpen ▸ hm.isOpen, hm.tree, ?_⟩, ?_⟩
  · rw [htree]
    exact hm.contains
  · obtain rfl := hm.tree
    unfold marks Session.node Registry.node
    change (((t.tree ref.tree).node ref.place).children.map Node.mark) = _
    rw [htree]
    rfl

/-- What holds once a session was pumped to the end. -/
structure Completed (s : Session) (results : List Resolution) (t : Session) : Prop where
  /-- All that had arrived has been dealt with, and what is reported is what came of it. -/
  drained : ∃ u, drain s = .ok results u ∧ Drained s results u
  /-- The user is told of every failure, and of nothing else. -/
  told : t.journal.notes = s.journal.notes ++ results.filterMap Resolution.note?
  /-- A tree is opened for every answer that asks for one, and no other. -/
  length : t.registry.trees.length =
    s.registry.trees.length + (results.filterMap Resolution.plan?).length
  /-- The new trees are as they were planned, and they are drawn. -/
  opened : ∀ i plan, (results.filterMap Resolution.plan?)[i]? = some plan →
    t.Hosts (s.registry.trees.length + i) plan ∧
      ∃ buffer view, t.Shows (s.registry.trees.length + i) buffer view
  /-- The nodes that are reported stand below their node, and their tree is drawn with them. -/
  held : ∀ r ∈ results, ∀ id ref generation direction nodes,
    r.purpose = .expand id ref generation direction → r.result = .children nodes →
      t.Member id ref ∧ t.marks ref = nodes.map Node.mark ∧ ∃ buffer view, t.Shows id buffer view
  /-- Nothing else is reported. -/
  kinds : ∀ r ∈ results, r.note?.isSome ∨ r.plan?.isSome ∨ ∃ id ref generation direction nodes,
    r.purpose = .expand id ref generation direction ∧ r.result = .children nodes

/-- A tree is open that is new or that grew, and it shows a node whose document cannot be named. -/
def Undrawn (s t : Session) : Prop :=
  ∃ id path node uri reason, t.isOpen id ∧
    (s.registry.trees.length ≤ id ∨ id ∈ enlarged (Event.pump.reports s)) ∧
      (path, node) ∈ (t.tree id).root.visible [] ∧ uri ∈ Node.uris node (t.tree id).uri ∧
        Uri.filePath? uri = .error reason

/-- A report is of one of three kinds. -/
theorem Stems.kinds (h : s.Stems r) (hplanned : ∀ uri symbols, r.purpose = .openOutline uri →
    r.result = .symbols symbols → r.plan?.isSome) :
    r.note?.isSome ∨ r.plan?.isSome ∨ ∃ id ref generation direction nodes,
      r.purpose = .expand id ref generation direction ∧ r.result = .children nodes := by
  obtain ⟨token, purpose, result⟩ := r
  cases h with
  | failed result =>
    cases result
    exact .inl rfl
  | grown purpose result => exact .inr (.inr ⟨_, _, _, _, _, purpose, result⟩)
  | @passed inquiry value arrivals pending purpose passes =>
    generalize inquiry.purpose = asked at purpose passes
    subst purpose
    cases passes with
    | symbols uri present read => exact .inr (.inl (hplanned _ _ rfl rfl))
    | @items _ items uri direction read some =>
      cases items with
      | nil => exact absurd rfl some
      | cons item rest => exact .inr (.inl rfl)

/-- What is asked for because of a report is what an answer in the queue leads to. -/
theorem Stems.elicits {request : Request} (h : s.Stems r) (ho : r.opening? = some request) :
    s.Elicits request := by
  obtain ⟨token, purpose, result⟩ := r
  cases h with
  | failed result =>
    cases result
    cases ho
  | grown purpose result =>
    cases result
    cases ho
  | @passed inquiry value arrivals pending asked passes =>
    generalize hp : inquiry.purpose = expected at asked passes
    subst asked
    cases passes with
    | symbols => cases ho
    | @items _ items uri direction read some =>
      cases items with
      | nil => exact absurd rfl some
      | cons item rest =>
        cases ho
        exact .level arrivals pending hp read

/-- **What is left to be done after a drain is done.** -/
theorem Enacted.completed (h : s.Sound) (hdrain : drain s = .ok results u) (hd : Drains s results u)
    (he : u.Enacted results t) : Completed s results t := by
  have hframe := hd.chain.frame lawful_progress
  have hlength : u.registry.trees.length = s.registry.trees.length :=
    congrArg (·.2.2.2.2) (hd.chain.registryFrame lawful_progress h).1
  refine ⟨⟨u, hdrain, hd.drained h⟩, hframe.notes ▸ he.enacts.told, hlength ▸ he.enacts.length,
    fun i plan hi => ?_, fun r hr id ref generation direction nodes hp hn => ?_, fun r hr => ?_⟩
  · have hhosts := he.enacts.hosts i plan hi
    rw [← hlength]
    exact ⟨hhosts, he.opened _ (Nat.le_add_right ..) hhosts.isOpen⟩
  · obtain ⟨hm, -, hmarks⟩ := hd.chain.holds h hr hp hn
    have hu := hd.chain.sound lawful_progress h
    obtain ⟨hm', hmarks'⟩ :=
      (he.enacts.remains id (hu.registry.lt_of_isOpen hm.isOpen)).member hm
    refine ⟨hm', hmarks'.trans hmarks, he.grown id ?_ hm'.isOpen⟩
    exact List.mem_filterMap.2 ⟨r, hr, by rw [Resolution.grown?, hp, hn]⟩
  · exact (hd.chain.stems h hr).kinds (he.planned r hr)

/-! ### What hampers it -/

/-- What cannot be done after a drain cannot be done because of what had arrived. -/
theorem Thwarts.hampers (h : s.Sound) (hdrain : drain s = .ok results u) (hd : Drains s results u)
    (ht : u.Thwarts results t) : s.Garbled ∨ s.Undrawn t := by
  have hframe := hd.chain.frame lawful_progress
  have hlength : u.registry.trees.length = s.registry.trees.length :=
    congrArg (·.2.2.2.2) (hd.chain.registryFrame lawful_progress h).1
  cases ht with
  | @outline r uri symbols e reported purpose result unreadable =>
    cases hd.chain.stems h reported with
    | failed failure => cases failure.symm.trans result
    | grown expands children => cases expands.symm.trans purpose
    | @passed inquiry value arrivals pending asked passes =>
      have hp : inquiry.purpose = .openOutline uri := asked.symm.trans purpose
      rw [hp, result] at passes
      cases passes with
      | symbols uri present read =>
        exact .inl (.outline arrivals pending hp present
          (Node.outlineOfJson_arr read ▸ unreadable))
  | untimely reported opening late =>
    have helicits := (hd.chain.stems h reported).elicits opening
    exact .inl (.untimely helicits (hframe.now ▸ hframe.settings ▸ late))
  | baffled reported opening baffled =>
    have helicits := (hd.chain.stems h reported).elicits opening
    exact .inl (.baffled helicits (hframe.client ▸ baffled))
  | @undrawn id reason isOpen drawn undrawable =>
    obtain ⟨path, node, uri, hm, huri, hread⟩ := View.of_ofTree_error undrawable
    have hreports : Event.pump.reports s = results := by
      rw [Event.reports, hdrain]
    exact .inr ⟨id, path, node, uri, reason, isOpen, hlength ▸ hreports ▸ drawn, hm, huri, hread⟩

theorem Stumbles.frame (hs : s.Stumbles t) : Frame s t := by
  cases hs with
  | baffled =>
    refine Frame.trans ?_ (frame_seeking _ 0)
    exact ⟨rfl, rfl, rfl, rfl, rfl, rfl⟩
  | _ => exact ⟨rfl, rfl, rfl, rfl, rfl, rfl⟩

/-! ### After every run -/

/-- What it comes to that a session is pumped. -/
structure Pumping (s : Session) : Prop where
  completed : ∀ results t, pump s = .ok results t → Completed s results t
  /-- It does not stop unless something that has arrived cannot be read, or a tree not be drawn. -/
  hampered : ∀ e t, pump s = .error e t → s.Garbled ∨ s.Undrawn t
  /-- What cannot be drained is not pumped: nobody is told of what was dealt with by then, no tree
  is opened for it, and none is drawn. -/
  lost : ∀ e t, drain s = .error e t → s.Garbled ∧ pump s = .error e t ∧
    t.journal.notes = s.journal.notes ∧ t.buffers = s.buffers ∧
      t.registry.trees.length = s.registry.trees.length

/-- Where a session is drained, all that its reports lead to is done, or there is a reason. -/
theorem pumping_of_drained (h : s.Steady) (hdrawn : s.Drawn Set.univ)
    (hdrain : drain s = .ok results u) : Pumping s := by
  have hends := ends_drain h
  unfold Action.Ends at hends
  rw [hdrain] at hends
  have hmoves := hends.chain.moves (fun _ _ _ hu hp => lawful_progress.moves hu hp) h.sound
  have hconclude := ends_conclude (hdrawn.moves hmoves) results
  have hpump : pump s = conclude results u := by
    rw [pump_eq]
    exact Action.bind_of_ok hdrain
  unfold Action.Ends at hconclude
  rw [← hpump] at hconclude
  refine ⟨fun more t ht => ?_, fun e t ht => ?_, fun e t he => by cases he.symm.trans hdrain⟩
  · rw [ht] at hconclude
    obtain ⟨rfl, hdone⟩ := hconclude
    exact hdone.completed h.sound hdrain hends
  · rw [ht] at hconclude
    exact Thwarts.hampers h.sound hdrain hends hconclude

/-- Where a session cannot be drained, nothing is done. -/
theorem pumping_of_halted (h : s.Steady) (ht : Tracked came own s) (hdrain : drain s = .error e t) :
    Pumping s := by
  have hends := ends_drain h
  unfold Action.Ends at hends
  rw [hdrain] at hends
  obtain ⟨-, results, u, hchain, hstumbles⟩ := hends
  have hgarbled := ht.garbled hchain hstumbles
  have hframe := (hchain.frame lawful_effect).trans hstumbles.frame
  have hlength : t.registry.trees.length = s.registry.trees.length := by
    rw [hstumbles.registry]
    exact congrArg (·.2.2.2.2) (hchain.registryFrame lawful_effect h.sound).1
  have hpump : pump s = .error e t := by
    rw [pump_eq]
    exact Action.bind_of_error hdrain
  refine ⟨fun results v hv => ?_, fun _ _ _ => .inl hgarbled, fun f v hv => ?_⟩
  · cases hv.symm.trans hpump
  · obtain ⟨rfl, rfl⟩ := EStateM.Result.error.inj (hdrain.symm.trans hv)
    exact ⟨hgarbled, hpump, hframe.notes, hframe.buffers, hlength⟩

/-- **A session that is pumped does all that is to be done**, or something that has arrived cannot
be read, or a tree shows a node whose document cannot be named. That holds after every run, whatever
has arrived. -/
theorem pumping_steps (client : Client) (settings : Settings) (root : Path) (now : Number)
    (events : List Event) : Pumping ((start client settings root now).steps events) := by
  have hsteady := (Steady.of_start client settings root now).steps events
  have hdrawn := drawn_steps client settings root now events
  obtain ⟨own, htracked, -⟩ := tracked_steps client settings root now events
  cases hdrain : drain ((start client settings root now).steps events) with
  | ok results u => exact pumping_of_drained hsteady hdrawn hdrain
  | error e t => exact pumping_of_halted hsteady htracked hdrain

/-- The callers of two functions are looked up. The first lookup finds nothing, and the second is
answered with a symbol whose location is a number. -/
def tangledRun : List Event :=
  let item (name : Text) : CallItem := ⟨name, none, [], ⟨⟨0, 0⟩, ⟨0, 0⟩⟩, ⟨⟨0, 0⟩, ⟨0, 0⟩⟩, none, []⟩
  let caller (name : Text) : Outcome := .answer (.arr [.obj [("from", .obj [("name", .str name)])]])
  [.openCalls (item "f") (.calls .incoming), .openCalls (item "g") (.calls .incoming),
    .settle 0 (caller "a"), .settle 1 (caller "b"), .pump, .settle 2 (.answer (.arr [])),
    .settle 3 (.answer (.arr [.obj [("location", .num (.int 5))]]))]

/-- What comes of the first function is lost because of the second: its caller stands below it, but
its tree is not drawn with two lines. -/
theorem undrawn_tangledRun :
    (match Event.pump.act.answer (resolvingSession.steps tangledRun) with
      | .error (.malformed reason) => some reason
      | _ => none) = some .notAnObject ∧
    let t := (resolvingSession.steps tangledRun).step .pump
    (t.tree 0).root.children.map Node.name = ["a"] ∧ t.isOpen 0 ∧
      (t.buffers.buffer (t.tree 0).handle).lines.length = 1 ∧ (t.tree 0).lineMap.length = 1 := by
  decide +kernel

end Session

end SymbolTrees
