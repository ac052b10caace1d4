import SymbolTrees.Proofs.Recording
import SymbolTrees.Proofs.Tree.Fill
import SymbolTrees.Proofs.View

/-!
# Recordings unfolded

The tree that a recording describes is found by recursion over its levels (`unfolding`): every node
stands for an item, and below it are the calls that are recorded for the item. The recursion goes no
deeper than it is asked to, so calls that lead back to where they came from are no exception.
-/

namespace SymbolTrees

open Server.Recording (IsRecorded calls find?_listed isRecorded_of_mem_calls isUri isWellFormed
  symbol?)

/-! ### The tree of a recording -/

section Definition

variable (recording : Json.Fields) (direction : CallDirection) (resolves : Bool)

/-- What a node for an item shows: the recorded symbol, if symbols are looked up and there is one,
and otherwise the item itself. -/
def shownFor (item : CallItem) : Payload :=
  match if resolves then symbol? recording item else none with
  | some symbol => .located symbol (some item)
  | none => .call item

/-- A node for an item with its calls below it, down to a number of levels. A node without calls, or
with no level left, is not opened. -/
def unfolding : Nat → Payload → CallItem → Int → List Range → Node
  | 0, payload, _, depth, ranges => .leaf payload depth ranges
  | levels + 1, payload, item, depth, ranges =>
    match calls recording direction item.name with
    | [] => .leaf payload depth ranges
    | first :: rest => ⟨payload, depth, true, none, ranges, (first :: rest).map fun call =>
      unfolding levels (shownFor recording resolves call.item) call.item (depth + 1) call.ranges⟩

end Definition

theorem callItem?_shownFor (recording : Json.Fields) (resolves : Bool) (item : CallItem) :
    (shownFor recording resolves item).callItem? = some item := by
  unfold shownFor
  split <;> rfl

/-! ### Trees without what is under way -/

namespace Node

variable {m n : Node} {path : List Nat}

theorem at?_idle (n : Node) (path : List Nat) : n.idle.at? path = (n.at? path).map idle := by
  induction path generalizing n with
  | nil => rfl
  | cons i path ih =>
    rw [at?_cons, at?_cons, idle_eq, List.getElem?_map]
    cases n.children[i]? with
    | none => rfl
    | some c => exact ih c

theorem mem_visibleAll {pre : List Nat} {entry : List Nat × Node} {nodes : List Node} {i k : Nat}
    (hi : nodes[i]? = some n) (hm : entry ∈ n.visible (pre ++ [k + i])) :
    entry ∈ visibleAll pre k nodes := by
  induction nodes generalizing i k with
  | nil => cases hi
  | cons first rest ih =>
    rw [visibleAll]
    cases i with
    | zero =>
      obtain rfl := Option.some.inj hi
      exact List.mem_append_left _ hm
    | succ i =>
      refine List.mem_append_right _ (ih hi ?_)
      rwa [Nat.add_assoc, Nat.add_comm 1 i]

/-- Where every node with something below it is opened, all nodes are on display. -/
theorem mem_visible (h : n.All fun m => m.children ≠ [] → m.expanded) (hm : n.at? path = some m)
    (pre : List Nat) : (pre ++ path, m) ∈ n.visible pre := by
  induction path generalizing n pre with
  | nil =>
    obtain rfl := Option.some.inj hm
    rw [List.append_nil]
    obtain ⟨payload, depth, expanded, pending, callRanges, children⟩ := n
    exact List.mem_cons_self
  | cons i path ih =>
    rw [at?_cons] at hm
    obtain ⟨c, hc, hm⟩ := Option.bind_eq_some_iff.1 hm
    have hbelow := ih ((all_iff.1 h).2 c (List.mem_of_getElem? hc)) hm (pre ++ [i])
    rw [List.append_assoc, List.singleton_append] at hbelow
    obtain ⟨payload, depth, expanded, pending, callRanges, children⟩ := n
    have hexpanded : expanded = true := h.root (List.ne_nil_of_mem (List.mem_of_getElem? hc))
    rw [visible, hexpanded, if_pos (Bool.true_or _)]
    refine List.mem_cons_of_mem _ (mem_visibleAll hc ?_)
    rwa [Nat.zero_add]

end Node

/-! ### The nodes of an unfolding -/

section Unfolding

variable {recording : Json.Fields} {direction : CallDirection} {resolves : Bool} {levels : Nat}
  {payload : Payload} {item : CallItem} {depth : Int} {ranges : List Range} {path : List Nat}
  {m n : Node}

theorem unfolding_of_calls_eq_nil (h : calls recording direction item.name = []) :
    unfolding recording direction resolves (levels + 1) payload item depth ranges =
      .leaf payload depth ranges := by
  rw [unfolding, h]

theorem unfolding_of_calls (h : calls recording direction item.name ≠ []) :
    unfolding recording direction resolves (levels + 1) payload item depth ranges =
      ⟨payload, depth, true, none, ranges, (calls recording direction item.name).map fun call =>
        unfolding recording direction resolves levels (shownFor recording resolves call.item)
          call.item (depth + 1) call.ranges⟩ := by
  rw [unfolding]
  split
  · rename_i hnil
    exact absurd hnil h
  · rename_i hcalls
    rw [hcalls]

/-- Nothing is under way in an unfolding. -/
theorem idle_unfolding (levels : Nat) (payload : Payload) (item : CallItem) (depth : Int)
    (ranges : List Range) :
    (unfolding recording direction resolves levels payload item depth ranges).idle =
      unfolding recording direction resolves levels payload item depth ranges := by
  induction levels generalizing payload item depth ranges with
  | zero => rfl
  | succ levels ih =>
    by_cases h : calls recording direction item.name = []
    · rw [unfolding_of_calls_eq_nil h]
      rfl
    · rw [unfolding_of_calls h, Node.idle_eq]
      simp only [List.map_map, Function.comp_def, ih]

/-- Whatever stands in an unfolding is an unfolding itself, with as many levels less as it lies
deeper, for the item of a call. -/
theorem of_at?_unfolding {P : Payload → CallItem → Prop} (hroot : P payload item)
    (hcalls : ∀ name, ∀ call ∈ calls recording direction name,
      P (shownFor recording resolves call.item) call.item)
    (hm : (unfolding recording direction resolves levels payload item depth ranges).at? path =
      some m) : path.length ≤ levels ∧ ∃ payload' item' depth' ranges', P payload' item' ∧
        m = unfolding recording direction resolves (levels - path.length) payload' item' depth'
          ranges' := by
  induction path generalizing levels payload item depth ranges with
  | nil =>
    obtain rfl := Option.some.inj hm
    exact ⟨Nat.zero_le _, payload, item, depth, ranges, hroot, rfl⟩
  | cons i path ih =>
    cases levels with
    | zero => cases hm
    | succ levels =>
      by_cases h : calls recording direction item.name = []
      · rw [unfolding_of_calls_eq_nil h] at hm
        cases hm
      · rw [unfolding_of_calls h, Node.at?_cons, List.getElem?_map] at hm
        obtain ⟨c, hc, hm⟩ := Option.bind_eq_some_iff.1 hm
        obtain ⟨call, hcall, rfl⟩ := Option.map_eq_some_iff.1 hc
        obtain ⟨hle, hn⟩ := ih (hcalls item.name call (List.mem_of_getElem? hcall)) hm
        refine ⟨Nat.succ_le_succ hle, ?_⟩
        rwa [List.length_cons, Nat.add_sub_add_right]

/-- Where something stands below a node of an unfolding, the node is opened. -/
theorem all_opened_unfolding :
    (unfolding recording direction resolves levels payload item depth ranges).All
      fun m => m.children ≠ [] → m.expanded := by
  intro path m hm hc
  obtain ⟨-, payload, item, depth, ranges, -, rfl⟩ :=
    of_at?_unfolding (P := fun _ _ => True) trivial (fun _ _ _ => trivial) hm
  cases hk : levels - path.length with
  | zero =>
    rw [hk] at hc
    exact absurd rfl hc
  | succ k =>
    rw [hk] at hc
    by_cases h : calls recording direction item.name = []
    · rw [unfolding_of_calls_eq_nil h] at hc
      exact absurd rfl hc
    · rw [unfolding_of_calls h]

/-- On the last level no node is opened. -/
theorem leaf_of_at?_unfolding
    (hm : (unfolding recording direction resolves levels payload item depth ranges).at? path =
      some m) (hlast : path.length = levels) : m.children = [] ∧ m.expanded = false := by
  obtain ⟨-, payload, item, depth, ranges, -, rfl⟩ :=
    of_at?_unfolding (P := fun _ _ => True) trivial (fun _ _ _ => trivial) hm
  rw [hlast, Nat.sub_self]
  exact ⟨rfl, rfl⟩

/-- **One more level.** An unfolding in which nodes of the last level wait, each for one level of its
own, is filled in to the unfolding with one more level. -/
theorem fill_unfolding {g : Token → Option (Node → Node)} {n : Node}
    (hidle : n.idle = unfolding recording direction resolves levels payload item depth ranges)
    (hitem : payload.callItem? = some item)
    (habove : ∀ path m, n.at? path = some m → path.length ≠ levels → m.pending = none)
    (hlast : ∀ path m item, n.at? path = some m → path.length = levels →
      m.payload.callItem? = some item → m.fill g =
        unfolding recording direction resolves 1 m.payload item m.depth m.callRanges) :
    n.fill g = unfolding recording direction resolves (levels + 1) payload item depth ranges := by
  induction levels generalizing n payload item depth ranges with
  | zero =>
    rw [Node.idle_eq] at hidle
    obtain ⟨rfl, rfl, -, -, rfl, -⟩ := Node.mk.inj hidle
    exact hlast [] n item rfl rfl hitem
  | succ levels ih =>
    have hnone : n.pending = none := habove [] n rfl (Nat.succ_ne_zero levels).symm
    have hbind : n.pending.bind g = none := by rw [hnone]; rfl
    rw [Node.fill_of_none hbind]
    rw [Node.idle_eq] at hidle
    by_cases h : calls recording direction item.name = []
    · rw [unfolding_of_calls_eq_nil h] at hidle ⊢
      obtain ⟨rfl, rfl, hexpanded, -, rfl, hchildren⟩ := Node.mk.inj hidle
      rw [List.map_eq_nil_iff.1 hchildren, hnone, hexpanded]
      rfl
    · rw [unfolding_of_calls h] at hidle ⊢
      obtain ⟨rfl, rfl, hexpanded, -, rfl, hchildren⟩ := Node.mk.inj hidle
      have hfilled : n.children.map (Node.fill g) = (calls recording direction item.name).map
          fun call => unfolding recording direction resolves (levels + 1)
            (shownFor recording resolves call.item) call.item (n.depth + 1) call.ranges := by
        refine List.ext_getElem? fun i => ?_
        have hi := congrArg (·[i]?) hchildren
        simp only [List.getElem?_map] at hi ⊢
        cases hc : n.children[i]? with
        | none =>
          rw [hc] at hi
          cases hcall : (calls recording direction item.name)[i]? with
          | none => rfl
          | some call =>
            rw [hcall] at hi
            cases hi
        | some c =>
          rw [hc] at hi
          obtain ⟨call, hcall, he⟩ := Option.map_eq_some_iff.1 hi.symm
          have below {path : List Nat} {m : Node} (hm : c.at? path = some m) :
              n.at? (i :: path) = some m := by
            rw [Node.at?_cons, hc]
            exact hm
          rw [hcall]
          refine congrArg some (ih he.symm (callItem?_shownFor ..)
            (fun path m hm hne => ?_) fun path m item hm hlength => ?_)
          · exact habove (i :: path) m (below hm) fun he => hne (Nat.succ.inj he)
          · exact hlast (i :: path) m item (below hm) (congrArg Nat.succ hlength)
      rw [hfilled, hnone, hexpanded]

/-! ### What can be drawn -/

/-- A payload that shows a recorded item, with URIs that can be taken apart. -/
inductive StandsFor : Payload → CallItem → Prop where
  | call {item : CallItem} (recorded : IsRecorded item) : StandsFor (.call item) item
  | located {symbol : LocatedSymbol} {item : CallItem} (recorded : IsRecorded item)
    (uri : isUri symbol.location.uri) : StandsFor (.located symbol (some item)) item

theorem StandsFor.recorded (h : StandsFor payload item) : IsRecorded item := by
  cases h <;> assumption

theorem StandsFor.callItem? (h : StandsFor payload item) : payload.callItem? = some item := by
  cases h <;> rfl

theorem standsFor_shownFor (h : isWellFormed recording) (hi : IsRecorded item) :
    StandsFor (shownFor recording resolves item) item := by
  unfold shownFor
  split
  · rename_i symbol hsome
    refine .located hi ?_
    cases resolves with
    | false => cases hsome
    | true =>
      obtain ⟨found, hfound, huri⟩ := find?_listed h item item.name
      refine huri symbol ?_
      rw [if_pos rfl, symbol?, hfound] at hsome
      exact hsome
  · exact .call hi

/-- Every node of an unfolding shows a recorded item. -/
theorem standsFor_of_at?_unfolding (h : isWellFormed recording) (hp : StandsFor payload item)
    (hm : (unfolding recording direction resolves levels payload item depth ranges).at? path =
      some m) : ∃ item, StandsFor m.payload item := by
  obtain ⟨-, payload, item, depth, ranges, hstands, rfl⟩ := of_at?_unfolding hp
    (fun _ _ hc => standsFor_shownFor h (isRecorded_of_mem_calls h hc)) hm
  refine ⟨item, ?_⟩
  cases levels - path.length with
  | zero => exact hstands
  | succ k =>
    by_cases hc : calls recording direction item.name = []
    · rw [unfolding_of_calls_eq_nil hc]
      exact hstands
    · rw [unfolding_of_calls hc]
      exact hstands

theorem filePath?_of_isUri {uri : Text} (h : isUri uri) : ∃ path, Uri.filePath? uri = .ok path := by
  unfold isUri at h
  unfold Uri.filePath?
  cases hu : Uri.ofText uri with
  | ok parts => exact ⟨_, rfl⟩
  | error e =>
    rw [hu] at h
    cases h

theorem ofUri_of_isUri {uri : Text} (h : isUri uri) (root : Path) :
    ∃ place, Whereabouts.ofUri uri root = .ok place := by
  obtain ⟨file, hfile⟩ := filePath?_of_isUri h
  unfold Whereabouts.ofUri
  rw [hfile]
  cases file with
  | none => exact ⟨_, rfl⟩
  | some file =>
    cases hbelow : file.below? root with
    | none => exact ⟨.outside file, by simp only [bind, Except.bind, hbelow, pure, Except.pure]⟩
    | some below =>
      exact ⟨.inside below, by simp only [bind, Except.bind, hbelow, pure, Except.pure]⟩

/-- A node that shows a recorded item can be drawn. -/
theorem StandsFor.exists_row (h : StandsFor n.payload item) (document : Option Text) (style : Style)
    (path : List Nat) : ∃ row, View.row document style path n = .ok row := by
  obtain ⟨payload, depth, expanded, pending, callRanges, children⟩ := n
  unfold View.row Node.rowDetail
  cases h with
  | call recorded =>
    obtain ⟨place, hplace⟩ := ofUri_of_isUri recorded.uri style.root
    obtain ⟨file, hfile⟩ := filePath?_of_isUri recorded.uri
    dsimp only [Payload.location?]
    rw [hplace]
    dsimp only [Option.mapM]
    rw [hfile]
    exact ⟨_, rfl⟩
  | @located symbol _ recorded uri =>
    obtain ⟨place, hplace⟩ := ofUri_of_isUri uri style.root
    obtain ⟨file, hfile⟩ := filePath?_of_isUri uri
    dsimp only [Payload.location?]
    rw [hplace]
    split
    · exact ⟨_, rfl⟩
    · dsimp only [Option.mapM]
      rw [hfile]
      exact ⟨_, rfl⟩

end Unfolding

/-- What is on display of a tree of calls: the symbols in it are in no document of its own. -/
def View.ofCalls (root : Node) (style : Style) : Except Malformed View :=
  (root.visible []).mapM fun (path, node) => View.row none style path node

/-- A tree whose nodes can all be drawn can be drawn. -/
theorem View.exists_ofTree {t : Tree} {style : Style}
    (h : t.root.All fun m => ∃ item, StandsFor m.payload item) :
    ∃ view, View.ofTree t style = .ok view := by
  refine ⟨_, Except.mapM_of_forall _ fun entry hm => ?_⟩
  obtain ⟨path, m⟩ := entry
  obtain ⟨q, -, hq⟩ := Node.at?_of_mem_visible t.root hm
  obtain ⟨item, hstands⟩ := h q m hq
  exact hstands.exists_row t.uri style path

end SymbolTrees
