import SymbolTrees.Proofs.Session.Display
import SymbolTrees.Proofs.Session.Level
import SymbolTrees.Session.Unfold

/-!
# Level by level

A tree of a recording is unfolded to a depth level by level: the nodes on display of one level are
asked for, and the session is pumped until nothing is under way. Whatever the clock shows meanwhile,
nothing is left that could be too late.
-/

namespace SymbolTrees.Session

variable {r : Replay} {level : Nat} {s t : Session} {m : Node} (readings : Readings)

/-! ### Asking for a level -/

theorem Replays.generation (h : s.Replays r) : (s.tree r.tree).generation = 0 :=
  congrArg (fun frame => frame.2.2.2.2.2.length) h.frame

/-- A closed node of the level is asked for. -/
theorem Deepens.ends_expand (h : s.Deepens r level) (hd : s.Drawn ∅) {path : List Nat} {n : Node}
    (ho : s.Occurs r.tree path n) (hm : (r.root level).at? path = some n.idle)
    (hlength : path.length = level) (hclosed : n.expanded = false) :
    (expand r.tree ⟨r.tree, 0, path⟩).Ends s
      (fun _ t => Awaits r level [path] s t ∧ t.Drawn ∅) fun _ _ => False := by
  have hmember : s.Member r.tree ⟨r.tree, 0, path⟩ := h.generation ▸ ho.member
  have hnode : s.node ⟨r.tree, 0, path⟩ = n := h.generation ▸ ho.node
  have hidle := n.idle_eq
  obtain ⟨hleaf, -⟩ := leaf_of_at?_unfolding hm hlength
  have hleaf : n.children = [] := by
    rw [hidle] at hleaf
    exact List.map_eq_nil_iff.1 hleaf
  obtain ⟨item, hstands⟩ := r.standsFor hm
  have hstands : StandsFor n.payload item := by
    rwa [hidle] at hstands
  have hask : (expand r.tree ⟨r.tree, 0, path⟩).Ends s
      (fun _ t => Awaits r level [path] s t) fun _ _ => False := by
    refine Session.ends_expand h.steady.sound (fun hn => absurd hmember hn) (fun _ he => ?_)
      (fun _ hknown => ?_)
      fun _ _ _ => h.ends_askChildren hmember (hnode.symm ▸ hstands) (hnode.symm ▸ hleaf) hlength
    · rw [hnode, hclosed] at he
      cases he
    · simp [hnode, hleaf, hstands.callItem?] at hknown
  exact (hask.and (draws_expand hd r.tree ⟨r.tree, 0, path⟩)).mono (fun _ _ ht => ht)
    fun _ _ he => he.1

/-- A node on display is asked for if it is on the level. -/
theorem Deepens.ends_expandOn (h : s.Deepens r level) (hd : s.Drawn ∅) (line : Int)
    {path : List Nat} (hm : (r.root level).at? path = some m) :
    (unfoldLevel.expandOn readings.clock r.tree level (line, ⟨0, path⟩)).Ends s
      (fun _ t => Awaits r level [path] s t ∧ t.Drawn ∅) fun _ _ => False := by
  obtain ⟨n, ho, rfl⟩ := h.occurs hm
  have hnode : s.node ⟨r.tree, 0, path⟩ = n := h.generation ▸ ho.node
  have hdepth : n.depth = path.length := (h.steady.sound.grown r.tree).depth_at? ho.found
  unfold unfoldLevel.expandOn
  refine .bind (.get ?_)
  dsimp only
  rw [hnode, hdepth]
  split
  · rename_i hcond
    obtain ⟨hlevel, hclosed⟩ := Bool.and_eq_true_iff.1 hcond
    have hlength : path.length = level := Int.ofNat.inj (of_decide_eq_true hlevel)
    rw [Bool.not_eq_true'] at hclosed
    refine .bind (.modify (.bind ?_))
    refine ((h.ticked (readings (.expanding level line))).ends_expand (hd.ticked _)
      ⟨ho.isOpen, ho.found⟩ hm hlength hclosed).mono ?_ fun _ _ he => he
    rintro _ t ⟨hawaits, hdt⟩
    exact .pure ⟨hawaits.of_ticked, hdt⟩
  · rename_i hcond
    have hidle := n.idle_eq
    refine .pure ⟨.of_waits h fun other hother hlength => ?_, hd⟩
    obtain rfl := List.mem_singleton.1 hother
    refine absurd ?_ hcond
    obtain ⟨-, hclosed⟩ := leaf_of_at?_unfolding hm hlength
    rw [hidle] at hclosed
    simp only [hlength, decide_true, Bool.true_and, Bool.not_eq_true']
    exact hclosed

theorem Deepens.ends_expandAll (h : s.Deepens r level) (hd : s.Drawn ∅) (entries : Table Int Place)
    (he : ∀ entry ∈ entries, entry.2.generation = 0 ∧
      ∃ m, (r.root level).at? entry.2.path = some m) :
    Action.Ends (entries.forM (unfoldLevel.expandOn readings.clock r.tree level)) s
      (fun _ t => Awaits r level (entries.map fun entry => entry.2.path) s t ∧ t.Drawn ∅)
      fun _ _ => False := by
  induction entries generalizing s with
  | nil => exact .pure ⟨.of_waits h fun _ hm => (by cases hm), hd⟩
  | cons entry rest ih =>
    obtain ⟨line, generation, path⟩ := entry
    obtain ⟨⟨hg, m, hm⟩, hrest⟩ := List.forall_mem_cons.1 he
    obtain rfl : generation = 0 := hg
    refine .bind ((h.ends_expandOn readings hd line hm).mono ?_ fun _ _ h => h)
    rintro _ t ⟨hfirst, hdt⟩
    refine (ih hfirst.deepens hdt hrest).mono ?_ fun _ _ h => h
    rintro _ u ⟨hmore, hdu⟩
    exact ⟨hfirst.trans hmore, hdu⟩

/-! ### Levels -/

/-- After the first pump nothing is under way any more. -/
theorem Deepens.ends_pumpUntilSettled (h : s.Deepens r level) (hd : s.Drawn ∅)
    (hall : ∀ path m, (r.root level).at? path = some m → path.length = level →
      s.WaitsAt r.tree path) (n : Nat) :
    (pumpUntilSettledBy readings.clock level (n + 1)).Ends s
      (fun _ t => t.Rests r (level + 1) ∧ t.Drawn ∅) fun _ _ => False := by
  have ht := h.ticked (readings (.pumping level n))
  unfold pumpUntilSettledBy
  refine .bind (.modify (.bind ?_))
  refine ((ht.ends_pump fun path m hm hlength => ?_).and
    (draws_pump ht.steady (hd.ticked _))).mono ?_ fun _ _ h => h.1
  · obtain ⟨n, ho, hwaits⟩ := hall path m hm hlength
    exact ⟨n, ⟨ho.isOpen, ho.found⟩, hwaits⟩
  rintro _ t ⟨hrests, hdrawn⟩
  refine .bind (.get ?_)
  rw [hrests.pending]
  exact .pure ⟨hrests, hdrawn⟩

/-- **One level is unfolded**: all its nodes are on display, and what they are asked for comes. -/
theorem Rests.ends_unfoldLevel (h : s.Rests r level) (hd : s.Drawn ∅) :
    (unfoldLevel readings.clock r.tree level).Ends s
      (fun _ t => t.Rests r (level + 1) ∧ t.Drawn ∅) fun _ _ => False := by
  obtain ⟨buffer, view, -, hdepicts⟩ := hd.depicted r.tree h.isOpen (Set.notMem_empty _)
  have hview := hdepicts.drawn
  have hplaces : (s.tree r.tree).lineMap.map Prod.snd = view.map fun row => ⟨0, row.path⟩ := by
    rw [hdepicts.lineMap, view.places_lineMap, ← h.generation]
    rfl
  have hentries : ∀ entry ∈ (s.tree r.tree).lineMap, entry.2.generation = 0 ∧
      ∃ m, (r.root level).at? entry.2.path = some m := by
    intro entry hm
    have hplace := List.mem_map_of_mem (f := Prod.snd) hm
    rw [hplaces] at hplace
    obtain ⟨row, hrow, he⟩ := List.mem_map.1 hplace
    rw [← he, ← h.root]
    exact ⟨rfl, row.node, (View.at?_of_ofTree hview hrow).1⟩
  unfold unfoldLevel
  refine .bind (.get (.bind ((h.deepens.ends_expandAll readings hd _ hentries).mono ?_ fun _ _ h => h)))
  rintro _ t ⟨hawaits, hdt⟩
  refine hawaits.deepens.ends_pumpUntilSettled readings hdt (fun path m hm hlength => ?_) 99
  refine hawaits.waits path ?_ hlength
  have hvisible : (path, m) ∈ (s.tree r.tree).root.visible [] := by
    rw [h.root]
    exact Node.mem_visible all_opened_unfolding hm []
  obtain ⟨row, hrow, rfl⟩ := View.exists_row_of_mem_visible hview hvisible
  have hpaths : (s.tree r.tree).lineMap.map (fun entry => entry.2.path) = view.map Row.path := by
    have hsplit := congrArg (List.map Place.path) hplaces
    rwa [List.map_map, List.map_map] at hsplit
  rw [hpaths]
  exact List.mem_map_of_mem hrow

/-- **A tree is unfolded by as many levels as are asked for.** -/
theorem Rests.ends_unfoldFrom (h : s.Rests r level) (hd : s.Drawn ∅) (n : Nat) :
    (unfoldFrom readings.clock r.tree level n).Ends s (fun _ t => t.Rests r (level + n))
      fun _ _ => False := by
  induction n generalizing s level with
  | zero => exact .pure h
  | succ n ih =>
    unfold unfoldFrom
    refine .bind ((h.ends_unfoldLevel readings hd).mono ?_ fun _ _ h => h)
    rintro _ t ⟨ht, hdt⟩
    rw [← Nat.add_assoc, Nat.add_right_comm]
    exact ih ht hdt

/-- A tree whose rows are known is printed as it is drawn. -/
theorem ends_renderText_of_ofTree {id : TreeId} {view : View} (ho : s.isOpen id)
    (hv : View.ofTree (s.tree id) s.style = .ok view) :
    (renderText id).Ends s (fun text t => text = view.printed ∧ t = s.shown id view)
      fun _ _ => False := by
  unfold renderText
  refine .bind ((ends_render_of_ofTree ho hv).mono ?_ fun _ _ h => h)
  rintro _ _ ⟨rfl, rfl⟩
  rename_i view
  refine .bind (.get (.pure ⟨?_, rfl⟩))
  have hbuffer := (get?_buffers_shown s id view (s.tree id).handle).trans (if_pos rfl)
  rw [handle_shown]
  refine Buffer.text_of_view ?_ ?_
  · exact congrArg Buffer.lines (Buffers.buffer_of_get? hbuffer)
  · exact (congrArg Buffer.annotations (Buffers.buffer_of_get? hbuffer)).trans
      (Table.ofList_of_nodup view.nodup_annotations)

theorem Rests.ends_renderText (h : s.Rests r level) : (renderText r.tree).Ends s
    (fun text t => (t.tree r.tree).root = r.root level ∧ ∃ view,
      View.ofTree (s.tree r.tree) r.style = .ok view ∧ text = view.printed) fun _ _ => False := by
  obtain ⟨view, hv⟩ := exists_ofTree h.idle s.style
  refine (ends_renderText_of_ofTree h.isOpen hv).mono ?_ fun _ _ h => h
  rintro _ _ ⟨rfl, rfl⟩
  exact ⟨(h.shown hv).root, view, h.style ▸ hv, rfl⟩

end SymbolTrees.Session
