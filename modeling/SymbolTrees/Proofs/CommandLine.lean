import Mathlib
import SymbolTrees.CommandLine.Program
import SymbolTrees.Proofs.Session.Unfold

/-!
# Trees of calls in print

The program that draws a tree of calls from a recording asks for one level after the other, as an
editor does. What it prints in the end is the tree that the recording describes, however fast or slow
time goes by.
-/

namespace SymbolTrees

open SymbolTrees.Server.Recording (IsRecorded exists_item isWellFormed)

namespace Session

/-! ### The first tree of a session -/

/-- The tree before it is known what calls there are. -/
def seed (r : Replay) : Tree :=
  ⟨r.handle, .leaf (.call r.item) 0 [], .calls r.direction, none, false, false, [], [], []⟩

/-- The tree is the first one that is opened in a session on a recording. -/
structure IsFirst (r : Replay) (settings : Settings) (root : Path) (now : Number) : Prop where
  timely : ∃ reading timeout, now = .float reading ∧ settings.timeout = .float timeout
  resolves : settings.resolveSymbols = r.resolves
  style : ⟨.ofName (some settings.icons), settings.guides, root⟩ = r.style
  tree : r.tree = 0
  handle : r.handle = 1

section First

variable {r : Replay} {settings : Settings} {root : Path} {now : Number}
  (h : IsFirst r settings root now)
include h

/-- Nothing is asked for yet when the tree is planted. -/
theorem IsFirst.deepens (journal : Journal) : Deepens r 0
    { start (.replay (.obj r.recording)) settings root now with
      registry := { Registry.empty with nextHandle := 2 }.including (seed r) .calls
      journal := journal } := by
  have unused : ∀ id < ({ Registry.empty with nextHandle := 2 } : Registry).trees.length,
      (({ Registry.empty with nextHandle := 2 } : Registry).tree id).handle < (seed r).handle :=
    fun id hid => absurd hid (Nat.not_lt_zero id)
  have hplant : Steady { start (.replay (.obj r.recording)) settings root now with
      registry := { Registry.empty with nextHandle := 2 }.including (seed r) .calls } := by
    have hissue := (Steady.of_start (.replay (.obj r.recording)) settings root now).move (.issue _)
    refine hissue.move (.plant ?_ unused (.call r.item r.direction) rfl)
    rw [h.handle]
    exact Int.lt_succ 1
  have hopen (id : TreeId) : ({ Registry.empty with nextHandle := 2 }.including (seed r)
      .calls).isOpen id ↔ id = r.tree := by
    rw [Registry.isOpen_including rfl unused, h.tree]
    exact or_iff_right fun ho => by cases (Registry.isOpen_iff.1 ho).1
  refine ⟨⟨hplant.log journal, rfl, h.timely, h.resolves, h.style, (hopen _).2 rfl,
    fun id ho => (hopen id).1 ho, ?_, fun k outcome hm => ?_, fun l outcome hm => ?_,
    fun k inquiry hk => ?_, fun k inquiry hk => ?_⟩, ?_, fun l outcome hm => ?_,
    fun path n k ho hk => ?_⟩
  · rw [h.tree]
    rfl
  · cases hm
  · cases hm
  · cases hk
  · cases hk
  · rw [h.tree]
    rfl
  · cases hm
  · have hfound := ho.found
    rw [h.tree] at hfound
    cases path with
    | nil =>
      obtain rfl := Option.some.inj hfound
      cases hk
    | cons i path => cases hfound

/-- **A tree is opened on the item of a recording**, and its root waits for the first level. -/
theorem IsFirst.ends_openCalls :
    (openCalls r.item (.calls r.direction)).Ends
      (start (.replay (.obj r.recording)) settings root now)
      (fun id t => id = r.tree ∧ t.Deepens r 0 ∧ t.WaitsAt r.tree []) fun _ _ => False := by
  have hkind : (Direction.calls r.direction).kind? = some .calls := rfl
  refine Session.ends_openCalls (.bind ((ends_putTree _ rfl hkind).mono ?_ fun _ _ h => h))
  rintro id t ⟨hid, ht⟩
  obtain rfl : id = r.tree := hid.trans h.tree.symm
  have hplanted : t.Deepens r 0 := by
    have hdeepens := h.deepens t.journal
    rw [seed, h.handle] at hdeepens
    rw [ht] at hdeepens ⊢
    exact hdeepens
  have hmember := member_rootOf hplanted.isOpen
  have hroot : t.node (t.rootOf r.tree) = .leaf (.call r.item) 0 [] := by
    rw [ht, h.tree]
    rfl
  have hstands : StandsFor (t.node (t.rootOf r.tree)).payload r.item := by
    rw [hroot]
    exact .call r.recorded
  have hleaf : (t.node (t.rootOf r.tree)).children = [] := by rw [hroot, Node.leaf]
  rw [present_true]
  refine .bind (.get (.bind ((hplanted.ends_askChildren hmember hstands hleaf rfl).mono ?_
    fun _ _ h => h)))
  rintro _ u ⟨hasked, hwaits, -⟩
  refine .bind ((hasked.ends_render hasked.root).mono ?_ fun _ _ h => h)
  rintro view _ ⟨hv, rfl⟩
  obtain ⟨n, hn, hpending⟩ := hwaits [] List.mem_cons_self rfl
  refine .pure ⟨rfl, hasked.shown hv, n, ⟨(hasked.shown hv).isOpen, ?_⟩, hpending⟩
  exact root_shown u r.tree view ▸ hn.found

/-- **A tree is unfolded and printed**, whatever the clock shows. -/
theorem IsFirst.ends_unfoldToBy (readings : Readings) {depth : Int} (hdepth : 1 ≤ depth) :
    Action.Ends (do
      let id ← openCalls r.item (.calls r.direction)
      pumpUntilSettledBy readings.clock 0 maxRounds
      unfoldToBy readings.clock id depth
      renderText id) (start (.replay (.obj r.recording)) settings root now)
      (fun text t => (t.tree r.tree).root = r.root depth.toNat ∧ ∃ view,
        View.ofCalls (r.root depth.toNat) r.style = .ok view ∧ text = view.printed)
      fun _ _ => False := by
  have hopens := h.ends_openCalls.and
    (draws_openCalls (drawn_start (.replay (.obj r.recording)) settings root now) r.item
      r.direction)
  refine .bind (hopens.mono ?_ fun _ _ h => h.1)
  rintro id t ⟨⟨rfl, hd, hwaits⟩, hdrawn⟩
  have hlevels : 1 + (depth - 1).toNat = depth.toNat := by omega
  have hall : ∀ path m, (r.root 0).at? path = some m → path.length = 0 → t.WaitsAt r.tree path :=
    fun path m _ hlength => List.eq_nil_of_length_eq_zero hlength ▸ hwaits
  refine .bind ((hd.ends_pumpUntilSettled readings hdrawn hall 99).mono ?_ fun _ _ h => h)
  rintro _ u ⟨hrests, hdrawn⟩
  refine .bind ((hrests.ends_unfoldFrom readings hdrawn (depth - 1).toNat).mono ?_ fun _ _ h => h)
  intro _ v hv
  rw [Nat.zero_add, hlevels] at hv
  refine hv.ends_renderText.mono ?_ fun _ _ h => h
  rintro text w ⟨hroot, view, hview, htext⟩
  refine ⟨hroot, view, ?_, htext⟩
  have huri : (v.tree r.tree).uri = none := congrArg (fun frame => frame.2.2.1) hv.frame
  rwa [View.ofTree, hv.root, huri] at hview

end First

end Session

namespace CommandLine

/-! ### The program -/

/-- Whatever the settings are, the time that a request may take is a floating-point number. -/
theorem exists_timeout {content : Option (List Nat)} {settings : Settings}
    (h : Settings.load content = .ok settings) : ∃ x, settings.timeout = .float x := by
  unfold Settings.load Settings.ofFields at h
  obtain ⟨timeout, ht, h⟩ := Except.of_bind h
  obtain rfl := Except.ok.inj h
  unfold Settings.timeoutOf at ht
  split at ht
  · split at ht
    · exact ⟨_, (Except.ok.inj ht).symm⟩
    · rename_i n _ _
      cases hx : Number.floatOfInt n with
      | error e =>
        rw [hx] at ht
        cases ht
      | ok x =>
        rw [hx] at ht
        exact ⟨x, (Except.ok.inj ht).symm⟩
  · obtain rfl := Except.ok.inj ht
    split <;> exact ⟨_, rfl⟩
  · exact ⟨_, (Except.ok.inj ht).symm⟩

theorem exists_timeout_of_settingsFor {s : Surroundings} {a : Arguments} {settings : Settings}
    (h : settingsFor s a = .ok settings) : ∃ x, settings.timeout = .float x := by
  obtain ⟨stored, hstored, h⟩ := Except.of_bind h
  obtain rfl := Except.ok.inj h
  have hload : Settings.load s.settings = .ok stored := Except.of_mapError hstored
  obtain ⟨x, hx⟩ := exists_timeout hload
  exact ⟨x, hx⟩

/-- A tree of calls is opened on an item, unfolded and printed. -/
def drawCalls (readings : Session.Readings) (fields : Json.Fields) (direction : CallDirection)
    (depth : Int) : SessionM Text := do
  let item ← CallItem.ofFields fields
  let id ← Session.openCalls item (.calls direction)
  Session.pumpUntilSettledBy readings.clock 0 Session.maxRounds
  draw readings.clock id (some depth)

/-- The item is read, and then its tree is unfolded and printed. -/
theorem ends_drawCalls {r : Replay} {settings : Settings} {root : Path} {now : Number}
    (h : Session.IsFirst r settings root now) (readings : Session.Readings) {fields : Json.Fields}
    (hitem : CallItem.ofFields fields = .ok r.item) {depth : Int} (hdepth : 1 ≤ depth) :
    (drawCalls readings fields r.direction depth).Ends
      (.start (.replay (.obj r.recording)) settings root now)
      (fun text t => (t.tree r.tree).root = r.root depth.toNat ∧ ∃ view,
        View.ofCalls (r.root depth.toNat) r.style = .ok view ∧ text = view.printed)
      fun _ _ => False := by
  refine .bindRead (fun item hread => ?_) fun e he => (by cases hitem.symm.trans he)
  obtain rfl := Except.ok.inj (hitem.symm.trans hread)
  exact h.ends_unfoldToBy readings hdepth

section Calls

variable (readings : Session.Readings)
  {s : Surroundings} {args : List Text} {a : Arguments} {path : Text} {outgoing : Bool}
  {depth : Int} {recording : Json.Fields} {settings : Settings} {root : Path}
  (task : a.task = .calls path outgoing (some depth))
  (stored : readFile s a.file = .ok (.obj recording)) (set : settingsFor s a = .ok settings)
  (located : ((a.root.map Path.ofText).getD s.here).resolve s.here = .ok root)

include task stored set located in
/-- What is to be done with a recording. -/
theorem plan_calls {fields : Json.Fields} (hfields : recording.get? "item" = some (.obj fields)) :
    plan readings s a =
      .ok (.start (.replay (.obj recording)) settings root (.float (readings .opening)),
        drawCalls readings fields (if outgoing then .outgoing else .incoming) depth) := by
  have hsession : startSession readings s a settings (.obj recording) =
      .ok (.start (.replay (.obj recording)) settings root (.float (readings .opening))) := by
    rw [startSession, located]
    rfl
  have hget : Table.get? recording "item" = some (.obj fields) := hfields
  simp only [plan, set, stored, task, hget, hsession, bind, Except.bind, pure, Except.pure]
  rfl

/-- The program ends with a tree, and prints it. -/
structure Draws (readings : Session.Readings) (s : Surroundings) (args : List Text) (root : Node)
    (style : Style) : Prop where
  tree : ∃ a session act text final, Arguments.parse args = .ok a ∧
    plan readings s a = .ok (session, act) ∧ act session = .ok text final ∧
      (final.tree 0).root = root
  printed : ∃ view, View.ofCalls root style = .ok view ∧
    (runBy readings s args).ending = .text (view.printed ++ "\n")

include task stored set located in
/-- **The program prints what the recording describes.** From a well-formed recording, with calls
followed in either direction to any depth, with or without symbols looked up, however long a request
may take and whatever the clock shows, the tree is the recording unfolded by as many levels. -/
theorem draws_unfolding (parsed : Arguments.parse args = .ok a) (deep : 1 ≤ depth)
    (wellFormed : isWellFormed recording) :
    ∃ fields item, recording.get? "item" = some (.obj fields) ∧
      CallItem.ofFields fields = .ok item ∧
      Draws readings s args (unfolding recording (if outgoing then .outgoing else .incoming)
        settings.resolveSymbols depth.toNat (.call item) item 0 [])
        ⟨.ofName (some settings.icons), settings.guides, root⟩ := by
  obtain ⟨fields, item, hfields, hitem, hrecorded⟩ := exists_item wellFormed
  obtain ⟨x, hx⟩ := exists_timeout_of_settingsFor set
  have hplan := plan_calls readings task stored set located hfields
  generalize (if outgoing then CallDirection.outgoing else .incoming) = direction at hplan ⊢
  have hfirst : Session.IsFirst ⟨recording, wellFormed, item, hrecorded, direction,
      settings.resolveSymbols, ⟨.ofName (some settings.icons), settings.guides, root⟩, 0, 1⟩
      settings root (.float (readings .opening)) := ⟨⟨_, x, rfl, hx⟩, rfl, rfl, rfl, rfl⟩
  have hends := ends_drawCalls hfirst readings hitem deep
  refine ⟨fields, item, hfields, hitem, ?_⟩
  unfold Action.Ends at hends
  cases hrun : drawCalls readings fields direction depth
      (.start (.replay (.obj recording)) settings root (.float (readings .opening))) with
  | error fault final =>
    rw [hrun] at hends
    exact hends.elim
  | ok text final =>
    rw [hrun] at hends
    obtain ⟨hroot, view, hview, rfl⟩ := hends
    refine ⟨⟨a, _, _, _, final, parsed, hplan, hrun, hroot⟩, view, hview, ?_⟩
    simp only [runBy, parsed, hplan, hrun]

end Calls

/-- A function that calls itself. -/
def recursion : Json.Fields :=
  [("item", .obj [("name", .str "f")]),
    ("outgoingCalls", .obj [("f", .arr [.obj [("to", .obj [("name", .str "f")])]])])]

/-- The recording in a file, which is found whatever the file is called. -/
def recursionFound : Surroundings where
  here := ⟨.root, []⟩
  find _ :=
    let text : Text := "\x7b\"item\": \x7b\"name\": \"f\"\x7d, " ++
      "\"outgoingCalls\": \x7b\"f\": [\x7b\"to\": \x7b\"name\": \"f\"\x7d\x7d]\x7d\x7d"
    .file (text.flatMap fun glyph => Text.Utf8.encode glyph.toChar)
  settings := none

/-- An hour goes by before every pump. -/
def slowReadings : Session.Readings
  | .opening => 0
  | .expanding level _ => 3600 * .ofNat level
  | .pumping level _ => 3600 * .ofNat (level + 1)

set_option maxRecDepth 10000 in
theorem draws_unfolding_recursion : ∃ fields item, recursion.get? "item" = some (.obj fields) ∧
    CallItem.ofFields fields = .ok item ∧
    Draws slowReadings recursionFound
      ["--resolve-symbols", "calls", "--outgoing", "--depth", "3", "f.json"]
      (unfolding recursion .outgoing true 3 (.call item) item 0 [])
      ⟨.ofName (some "none"), true, ⟨.root, []⟩⟩ := by
  have stored : readFile recursionFound (.ofText "f.json") = .ok (.obj recursion) := by cbv
  exact draws_unfolding slowReadings
    (a := ⟨none, false, true, none, false, .calls "f.json" true (some 3)⟩)
    rfl stored rfl rfl (by decide +kernel) (by decide) (by decide +kernel)

end CommandLine

end SymbolTrees
