import Mathlib.Algebra.Group.Nat.Defs
import SymbolTrees.Proofs.Session.Focusing

/-!
# What stands in the way of an operation

A tree whose URIs can all be read can be drawn. What is asked of a node that is there is then done
without a word to the user, or refused with nothing done. Only two things can stand in its way: the
deadline of the request that is due cannot be told (`Belated`), or a line is to be told whose number
has too many digits (`Unspeakable`).
-/

namespace SymbolTrees

open SymbolTrees.Server (Request)

/-- The number has too many digits to be written. -/
def Text.Integer.TooLong (n : Int) : Prop := 10 ^ maxDigits ≤ n.natAbs

theorem Text.Integer.text?_eq_none_iff {n : Int} : text? n = none ↔ TooLong n := by
  have hlength : (toString n.natAbs).length ≤ maxDigits ↔ n.natAbs < 10 ^ maxDigits := by
    rw [Nat.toString_eq_ofList_toDigits, String.length_ofList]
    exact Nat.length_toDigits_le_iff (by decide) (by decide)
  rw [TooLong, ← Nat.not_lt, ← hlength, text?]
  split <;> simp_all

/-- What is not there is told with its number, unless that has too many digits. -/
theorem Missing.isTold_iff {what : Missing} {number : Int} (h : what.number? = some number) :
    what.isTold ↔ ¬Text.Integer.TooLong number := by
  rw [isTold, h, ← Text.Integer.text?_eq_none_iff, ← ne_eq, ← Option.isSome_iff_ne_none]
  exact .rfl

theorem Missing.fault_of_tooLong {what : Missing} {number : Int} (h : what.number? = some number)
    (hlong : Text.Integer.TooLong number) : what.fault = .malformed .tooLong :=
  fault_of_not_isTold fun htold => (isTold_iff h).1 htold hlong

theorem Missing.fault_of_not_tooLong {what : Missing} {number : Int}
    (h : what.number? = some number) (hshort : ¬Text.Integer.TooLong number) :
    what.fault = .missing what :=
  fault_of_isTold ((isTold_iff h).2 hshort)

/-! ### Trees that can be drawn -/

/-- Every URI that is read to draw the node can be read. -/
def Node.Legible (document : Option Text) (n : Node) : Prop :=
  ∀ uri ∈ n.uris document, ∃ parts, Uri.ofText uri = .ok parts

/-- Every URI that is read to draw the tree, however far it is unfolded, can be read. -/
def Tree.Legible (t : Tree) : Prop := t.root.All (Node.Legible t.uri)

theorem Node.uris_of_payload {a b : Node} (h : b.payload = a.payload) (document : Option Text) :
    b.uris document = a.uris document := by
  rw [uris, uris, h]

theorem Node.isNear_legible (document : Option Text) : IsNear (Legible document) := by
  intro a b hr ha
  rw [Legible, uris_of_payload (payload_of_mark hr.mark)]
  exact ha

theorem Node.all_legible_copy {document : Option Text} {n : Node} (h : n.All (Legible document))
    (depth : Int) : (n.copy depth).All (Legible document) := by
  intro path m hm
  rw [at?_copy] at hm
  obtain ⟨x, hx, rfl⟩ := Option.map_eq_some_iff.1 hm
  rw [Legible, uris_of_payload (copy_payload _ x)]
  exact h path x hx

namespace Tree

variable {t : Tree}

theorem Legible.exists_view (h : t.Legible) (style : Style) :
    ∃ view, View.ofTree t style = .ok view := by
  cases hv : View.ofTree t style with
  | ok view => exact ⟨view, rfl⟩
  | error reason =>
    obtain ⟨path, n, uri, hvisible, huri, herror⟩ := View.of_ofTree_error hv
    obtain ⟨q, -, hat⟩ := Node.at?_of_mem_visible t.root hvisible
    obtain ⟨parts, hparts⟩ := h q n hat uri huri
    rw [Uri.filePath?, hparts] at herror
    cases herror

/-- It does not matter which nodes are opened, and what they wait for. -/
theorem Legible.modify (h : t.Legible) {p : Place} (hp : t.IsCurrent p) {f : Node → Node}
    (hmark : ∀ m, (f m).mark = m.mark) (hchildren : ∀ m, (f m).children = m.children) :
    (t.modify p f).Legible := by
  rw [modify_of_isCurrent hp]
  refine Node.All.modifyAt (Node.isNear_legible t.uri) h (fun m _ => ⟨hmark m, .inl (hchildren m)⟩)
    (fun m hm => ?_) fun m _ hleaf c hc => ?_
  · rw [Node.Legible, Node.uris_of_payload (Node.payload_of_mark (hmark m))]
    exact h p.path m hm
  · rw [hchildren, hleaf] at hc
    cases hc

theorem Legible.turned (h : t.Legible) (d : CallDirection) : (t.turned d).Legible :=
  Node.all_leaf rfl h.root

end Tree

namespace Session

variable {s t u : Session} {id : TreeId} {ref : NodeRef} {token : Option Token} {e : Fault}
  {due owed : Request → Prop} {α : Type}

/-- The tree is open, and can be drawn. -/
structure Drawable (s : Session) (id : TreeId) : Prop where
  isOpen : s.isOpen id
  legible : (s.tree id).Legible

namespace Drawable

theorem updateNode (h : s.Drawable id) (hs : s.Sound) (hm : s.Member id ref) {f : Node → Node}
    (hregistry : t.registry = s.registry.updateNode ref f) (hmark : ∀ m, (f m).mark = m.mark)
    (hchildren : ∀ m, (f m).children = m.children) : t.Drawable id := by
  have hstands := hs.stands hm
  obtain rfl := hm.tree
  refine ⟨?_, ?_⟩
  · rw [Session.isOpen, hregistry]
    exact Registry.isOpen_updateNode.trans h.isOpen
  · have htree : t.tree ref.tree = (s.tree ref.tree).modify ref.place f := by
      rw [Session.tree, hregistry]
      exact Registry.tree_updateNode_self hstands.planted
    rw [htree]
    exact h.legible.modify hstands.current hmark hchildren

theorem unfolded (h : s.Drawable id) (hs : s.Sound) (hm : s.Member id ref) (expanded : Bool) :
    (s.unfolded ref expanded).Drawable id :=
  h.updateNode hs hm rfl (fun _ => rfl) fun _ => rfl

theorem givenUp (h : s.Drawable id) (hs : s.Sound) (hm : s.Member id ref) :
    (s.givenUp ref).Drawable id :=
  h.updateNode hs hm (registry_givenUp s ref) (fun _ => rfl) fun _ => rfl

theorem turnedRound (h : s.Drawable id) (hs : s.Sound) (d : CallDirection) :
    (s.turnedRound id d).Drawable id := by
  refine ⟨isOpen_turnedRound hs h.isOpen, ?_⟩
  have htree : (s.turnedRound id d).tree id = _ := tree_turnedRound hs h.isOpen
  rw [htree]
  rw [← tree_givenUp_root hs h.isOpen]
  exact ((h.givenUp hs (member_rootOf h.isOpen)).legible).turned _

theorem readied (h : s.Drawable id) (hr : s.Readied id t) : t.Drawable id := by
  refine ⟨hr.isOpen, ?_⟩
  obtain ⟨pending, -, htree⟩ := hr.tree
  rw [htree]
  exact h.legible.modify (p := (s.tree id).place [])
    (f := fun node => { node with pending := pending }) (Tree.isCurrent_place _) (fun _ => rfl)
    fun _ => rfl

theorem draws (h : s.Drawable id) : (render id).Ends s
    (fun _ t => t.journal.notes = s.journal.notes) fun _ _ => False := by
  obtain ⟨view, hv⟩ := h.legible.exists_view s.style
  refine (ends_render_of_ofTree h.isOpen hv).mono ?_ fun _ _ he => he
  rintro _ _ ⟨-, rfl⟩
  rfl

end Drawable

/-! ### Ends -/

/-- A request is due, and its deadline cannot be told. -/
def Belated (s : Session) (due : Request → Prop) : Prop :=
  (∃ request, due request) ∧ ∃ reason, s.now.add s.settings.timeout = .error reason

/-- What is due could be sent in time, and the user was told nothing. -/
structure Fares (s : Session) (due : Request → Prop) (t : Session) : Prop where
  timely : ¬s.Belated due
  notes : t.journal.notes = s.journal.notes

/-- The deadline of what is due cannot be told. -/
inductive Delays (s : Session) (due : Request → Prop) : Fault → Session → Prop where
  | late {request : Request} {reason : Malformed} {t : Session} (isDue : due request)
    (late : s.now.add s.settings.timeout = .error reason) : Delays s due (.malformed reason) t

/-- It is refused with nothing done, or comes too late. -/
inductive Fails (s : Session) (due : Request → Prop) : Fault → Session → Prop where
  | refused {reason : Refusal} (timely : ¬s.Belated due) : Fails s due (.refused reason) s
  | delayed {e : Fault} {t : Session} (delays : Delays s due e t) : Fails s due e t

theorem not_belated (h : ∀ request, ¬due request) : ¬s.Belated due :=
  fun ⟨⟨request, hdue⟩, _⟩ => h request hdue

theorem Belated.congr (h : s.Belated owed) (hd : ∀ request, owed request ↔ due request) :
    s.Belated due :=
  ⟨h.1.imp fun request => (hd request).1, h.2⟩

theorem Delays.congr (h : Delays s owed e t) (hd : ∀ request, owed request ↔ due request) :
    Delays s due e t := by
  cases h with
  | late isDue late => exact .late ((hd _).1 isDue) late

theorem Fares.congr (h : s.Fares owed t) (hd : ∀ request, owed request ↔ due request) :
    s.Fares due t := ⟨fun hl => h.timely (hl.congr fun request => (hd request).symm), h.notes⟩

theorem Fails.congr (h : s.Fails owed e t) (hd : ∀ request, owed request ↔ due request) :
    s.Fails due e t := by
  cases h with
  | refused timely => exact .refused fun hl => timely (hl.congr fun request => (hd request).symm)
  | delayed delays => exact .delayed (delays.congr hd)

/-- Nothing was told, and no request was sent before. -/
theorem Fares.since (h : t.Fares due u) (hm : s.Makes [] t)
    (hn : t.journal.notes = s.journal.notes) : s.Fares due u := by
  refine ⟨fun ⟨hdue, hlate⟩ => h.timely ⟨hdue, ?_⟩, h.notes.trans hn⟩
  rw [hm.given.1, hm.given.2.2]
  exact hlate

theorem Delays.since (h : Delays t due e u) (hm : s.Makes [] t) : Delays s due e u := by
  cases h with
  | late isDue late =>
    rw [hm.given.1, hm.given.2.2] at late
    exact .late isDue late

/-! ### What a user asks for -/

section Operations

/-- A tree that can be drawn is drawn last. -/
theorem Drawable.fares {E : Fault → Session → Prop} (hd : t.Drawable id) (ht : s.Fares due t) :
    (render id).Ends t (fun _ u => s.Fares due u) E :=
  hd.draws.mono (fun _ _ hu => ⟨ht.timely, hu.trans ht.notes⟩) fun _ _ he => he.elim

theorem fares_askChildren (h : s.Sound) (hb : ∀ request, ¬s.client.Baffled request)
    (hm : s.Member id ref) (hc : (s.tree id).direction.calls?.isSome) :
    (askChildren id ref none).Ends s
      (fun token t => Asks s id ref token t ∧ s.Fares (s.Wants id ref) t)
      (Delays s (s.Wants id ref)) := by
  refine (ends_askChildren h hm).mono ?_ ?_
  · intro token t hasks
    refine ⟨hasks, ?_⟩
    cases hasks with
    | known there =>
      refine ⟨not_belated ?_, rfl⟩
      rintro _ ⟨askable⟩
      rcases there with there | there
      · exact there askable.leaf
      · rw [askable.idle] at there
        cases there
    | sent askable timely =>
      refine ⟨?_, rfl⟩
      rintro ⟨-, reason, hlate⟩
      cases hlate.symm.trans timely
  · intro e t hbalks
    cases hbalks with
    | refused rejection bare =>
      have hitem := (h.fits (hm.occurs h)).item
      rcases bare with bare | bare
      · rw [bare] at hc
        cases hc
      · rw [← hitem, bare] at hc
        cases hc
    | untimely askable late => exact .late (.calls askable) late
    | baffled askable timely baffled => exact absurd baffled (hb _)

/-- The root of a tree is asked for, and the tree is drawn. -/
theorem fares_askRoot (h : s.Sound) (hb : ∀ request, ¬s.client.Baffled request)
    (hd : s.Drawable id) (hidle : (s.tree id).root.pending = none)
    (hc : (s.tree id).direction.calls?.isSome) {f : Option Token → α} : Action.Ends (do
      let token ← askChildren id (s.rootOf id) none
      let _ ← render id
      pure (f token)) s (fun _ t => s.Fares (s.Wants id (s.rootOf id)) t)
        (Delays s (s.Wants id (s.rootOf id))) := by
  refine .bind ((fares_askChildren h hb (member_rootOf hd.isOpen) hc).mono ?_ fun _ _ he => he)
  rintro token t ⟨hasks, hfares⟩
  have ht := hd.readied (hasks.readied h hd.isOpen hidle)
  exact .bind ((ht.fares hfares).mono (fun _ _ hu => .pure hu) fun _ _ he => he)

theorem fares_expand (h : s.Sound) (hb : ∀ request, ¬s.client.Baffled request)
    (hd : s.Drawable id) (hm : s.Member id ref) : (expand id ref).Ends s
      (fun _ t => s.Fares (s.Wants id ref) t)
      (s.Fails (s.Wants id ref)) := by
  refine ends_expand h (fun hn => absurd hm hn) (fun _ hexpanded => ?_) (fun _ hknown => ?_)
    fun _ _ hc => (fares_askChildren h hb hm hc).mono (fun _ _ h => h.2) fun _ _ he => .delayed he
  · refine ⟨not_belated ?_, rfl⟩
    rintro _ ⟨askable⟩
    rw [askable.closed] at hexpanded
    cases hexpanded
  · refine (hd.unfolded h hm true).fares ⟨not_belated ?_, rfl⟩
    rintro _ ⟨askable⟩
    simp [askable.leaf, askable.item] at hknown

theorem notes_givenUp (s : Session) (ref : NodeRef) :
    (s.givenUp ref).journal.notes = s.journal.notes := by
  unfold givenUp
  split <;> rfl

/-- Nothing is due where a node is closed. -/
theorem fares_collapse (h : s.Sound) (hd : s.Drawable id) (hm : s.Member id ref)
    (hidle : ∀ request, ¬due request) :
    (collapse id ref).Ends s (fun _ t => s.Fares due t) (s.Fails due) := by
  have hgiven : s.Fares due (s.givenUp ref) := ⟨not_belated hidle, notes_givenUp s ref⟩
  refine ends_collapse h (fun hn => absurd hm hn) (fun _ _ => .refused hgiven.timely)
    (fun _ _ => hgiven) fun _ => ?_
  exact ((hd.givenUp h hm).unfolded (h.givenUp hm) (member_givenUp h hm) false).fares
    ⟨hgiven.timely, hgiven.notes⟩

theorem fares_toggle (h : s.Sound) (hb : ∀ request, ¬s.client.Baffled request)
    (hd : s.Drawable id) (hm : s.Member id ref) : (toggle id ref).Ends s
      (fun _ t => s.Fares (s.Wants id ref) t)
      (s.Fails (s.Wants id ref)) := by
  refine ends_toggle (fun hexpanded _ => fares_collapse h hd hm ?_)
    (fares_expand h hb hd hm)
  rintro _ ⟨askable⟩
  rw [askable.closed] at hexpanded
  cases hexpanded

theorem fares_focus (h : s.Sound) (hb : ∀ request, ¬s.client.Baffled request)
    (hd : s.Drawable id) (hm : s.Member id ref) : (focus id ref).Ends s
      (fun _ t => s.Fares (Due s (.focus id ref)) t)
      (s.Fails (Due s (.focus id ref))) := by
  obtain ⟨kind, hk⟩ := (h.grown id).known
  have hstands := h.stands hm
  obtain rfl := hm.tree
  have hcopy : (Tree.Legible ⟨s.registry.nextHandle, { (s.node ref).copy 0 with depth := 0 },
      (s.tree ref.tree).direction, (s.tree ref.tree).uri, false, false, [], [], []⟩) := by
    rw [Node.copy_at_depth]
    exact Node.all_legible_copy (hd.legible.sub hstands.found) 0
  refine ends_focus h (fun hn => absurd hm hn) fun _ => ?_
  refine ends_plant h (h.seed_copy hm) hk fun t hp => ?_
  have ht : t.Drawable s.registry.trees.length := ⟨hp.isOpen, hp.tree ▸ hcopy⟩
  cases hasks : (s.tree ref.tree).isCallTree && !(s.node ref).isResolved with
  | true =>
    have hb' : ∀ request, ¬t.client.Baffled request := by
      rw [hp.makes.given.2.1]
      exact hb
    have hidle : (t.tree s.registry.trees.length).root.pending = none := by
      rw [hp.tree]
      exact Node.copy_pending 0 _
    have hc : (t.tree s.registry.trees.length).direction.calls?.isSome := by
      rw [hp.tree]
      exact (Bool.and_eq_true_iff.1 hasks).1
    rw [present_true]
    have hwants := wants_copy h hm hp hasks
    refine .bind (.get ((fares_askRoot (h.moves hp.moves) hb' ht hidle hc
      (f := fun _ => s.registry.trees.length)).mono ?_ ?_))
    · exact fun _ _ hu => (hu.since hp.makes hp.notes).congr hwants
    · exact fun _ _ he => .delayed ((he.since hp.makes).congr hwants)
  | false =>
    have hfares : s.Fares (Due s (.focus ref.tree ref)) t :=
      ⟨not_belated (not_due_focus h hm hasks), hp.notes⟩
    exact .bind ((ht.fares hfares).mono (fun _ _ hu => .pure hu) fun _ _ he => he)

theorem fares_switchDirection (h : s.Sound) (hb : ∀ request, ¬s.client.Baffled request)
    (hd : s.Drawable id) : (switchDirection id).Ends s
      (fun _ t => s.Fares (Due s (.switchDirection id)) t)
      (s.Fails (Due s (.switchDirection id))) := by
  refine ends_switchDirection h (fun hn => absurd hd.isOpen hn) (fun hnone => ?_)
    fun direction ho hcalls => ?_
  · refine .refused (not_belated ?_)
    rintro _ ⟨⟩
    rename_i isCalls _
    rw [isCalls] at hnone
    cases hnone
  · obtain ⟨hturn, -⟩ := moves_switchDirection h ho hcalls
    have hturned := (h.givenUp (member_rootOf ho)).move hturn
    have hmakes : s.Makes [] (s.turnedRound id direction) :=
      (Makes.givenUp s _).before (.nothing ⟨rfl, rfl, rfl⟩ rfl rfl)
    have htree : (s.turnedRound id direction).tree id = _ := tree_turnedRound h ho
    have hidle : ((s.turnedRound id direction).tree id).root.pending = none := by
      rw [htree]
      rfl
    have hc : ((s.turnedRound id direction).tree id).direction.calls?.isSome := by
      rw [htree]
      rfl
    have hb' : ∀ request, ¬(s.turnedRound id direction).client.Baffled request := by
      rw [hmakes.given.2.1]
      exact hb
    have hwants := wants_turnedRound h ho hcalls
    exact (fares_askRoot hturned hb' (hd.turnedRound h direction) hidle hc
      (f := fun token => token)).mono
        (fun _ _ hu => (hu.since hmakes (notes_givenUp s _)).congr hwants)
        fun _ _ he => .delayed ((he.since hmakes).congr hwants)

theorem fares_jump (hm : s.Member id ref) : (jump id ref).Ends s
    (fun _ t => s.Fares (Due s (.jump id ref)) t) (s.Fails (Due s (.jump id ref))) := by
  have hidle : ∀ request, ¬Due s (.jump id ref) request := fun _ hdue => by cases hdue
  unfold jump
  refine .bind (checks_member.mono ?_ fun _ _ he => absurd hm he.2.2)
  rintro _ s ⟨rfl, -⟩
  refine .bind (.get ?_)
  dsimp only
  split
  · exact .pure ⟨not_belated hidle, rfl⟩
  · exact .throw (.refused (not_belated hidle))

/-- The line of the location that is told of a node has a number with too many digits. -/
def Unspeakable (s : Session) (id : TreeId) (ref : NodeRef) : Prop :=
  ∃ location, (s.node ref).payload.location? (s.tree id).uri false = some location ∧
    Text.Integer.TooLong (location.range.start.line + 1)

theorem fares_details (hd : s.Drawable id) (hm : s.Member id ref) (hs : s.Sound) :
    (details id ref).Ends s (fun _ t => ¬s.Unspeakable id ref ∧ t = s)
      fun e t => s.Unspeakable id ref ∧ e = .malformed .tooLong ∧ t = s := by
  have hstands := hs.stands hm
  obtain rfl := hm.tree
  have hlegible : (s.node ref).Legible (s.tree ref.tree).uri :=
    hd.legible ref.place.path _ hstands.found
  have hreads {uri : Text} (huri : uri ∈ (s.node ref).uris (s.tree ref.tree).uri)
      {reason : Malformed} : Uri.filePath? uri ≠ .error reason := by
    obtain ⟨parts, hparts⟩ := hlegible uri huri
    rw [Uri.filePath?, hparts]
    intro hreason
    cases hreason
  unfold details
  refine .bind (checks_member.mono ?_ fun _ _ he => absurd hm he.2.2)
  rintro _ s ⟨rfl, -⟩
  refine .bind (.get (.bindRead (fun detail _ => ?_) fun e he => ?_))
  · cases hl : (s.node ref).payload.location? (s.tree ref.tree).uri false with
    | none =>
      refine .pure ⟨?_, rfl⟩
      rintro ⟨location, hlocation, -⟩
      cases hl.symm.trans hlocation
    | some location =>
      refine .bind (.bind (.bindRead (fun place _ => ?_) fun e he => ?_))
      · split
        · rename_i line hline
          refine .pure (.pure ⟨?_, rfl⟩)
          rintro ⟨other, hother, hlong⟩
          obtain rfl := Option.some.inj (hl.symm.trans hother)
          rw [Text.Integer.text?_eq_none_iff.2 hlong] at hline
          cases hline
        · rename_i hline
          exact .throw ⟨⟨location, hl, Text.Integer.text?_eq_none_iff.1 hline⟩, rfl, rfl⟩
      · exact absurd (View.filePath?_of_ofUri_error he) (hreads (View.mem_uris_of_location? hl))
  · obtain ⟨uri, huri, herror⟩ := View.of_rowDetail_error (s.tree ref.tree).uri he
    exact absurd herror (hreads huri)

theorem fares_close (h : s.Sound) (ho : s.isOpen id) : (close (s.tree id).handle).Ends s
    (fun _ t => s.Fares (Due s (.close (s.tree id).handle)) t)
    (s.Fails (Due s (.close (s.tree id).handle))) := by
  have hidle : ∀ request, ¬Due s (.close (s.tree id).handle) request := fun _ hdue => by cases hdue
  obtain ⟨kind, hk⟩ := (h.grown id).known
  refine (ends_close (Registry.isOpen_iff.1 ho).2 hk).mono ?_ fun _ _ he => he.elim
  rintro _ _ ⟨-, rfl⟩
  exact ⟨not_belated hidle, rfl⟩

theorem fares_setHidden (ho : s.isOpen id) (hidden : Bool) :
    (setHidden (s.tree id).handle hidden).Ends s
      (fun _ t => s.Fares (Due s (.setHidden (s.tree id).handle hidden)) t)
      (s.Fails (Due s (.setHidden (s.tree id).handle hidden))) := by
  have hidle : ∀ request, ¬Due s (.setHidden (s.tree id).handle hidden) request :=
    fun _ hdue => by cases hdue
  refine (ends_hide (Registry.isOpen_iff.1 ho).2 hidden).mono ?_ fun _ _ he => he.elim
  rintro _ _ ⟨-, rfl⟩
  exact ⟨not_belated hidle, rfl⟩

end Operations

end Session

end SymbolTrees
