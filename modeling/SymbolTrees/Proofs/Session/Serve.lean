import SymbolTrees.Proofs.Session.Fulfil

/-!
# Sessions that are served

A session is served when what arrives is as was known, is pumped while nobody's time is up, and
nothing else happens. Whatever has been pumped by then, what the trees will be is what it was
(`Serves`), the trees that got nodes are drawn as they are, and the others were not drawn.
-/

namespace SymbolTrees

/-- What of a tree stays while requests for its nodes end and it is drawn. -/
def Tree.frame (t : Tree) : Int × Direction × Option Text × Bool × Bool × List (List Node) :=
  (t.handle, t.direction, t.uri, t.hidden, t.closed, t.former)

theorem Tree.frame_modify {t : Tree} {p : Place} {f : Node → Node} (h : t.IsCurrent p) :
    (t.modify p f).frame = t.frame := by
  rw [modify_of_isCurrent h]
  rfl

/-- A tree is that and its nodes and its maps. -/
theorem Tree.eq_of_frame {t u : Tree} (hframe : t.frame = u.frame) (hroot : t.root = u.root)
    (hlineMap : t.lineMap = u.lineMap) (hsourceMap : t.sourceMap = u.sourceMap) : t = u := by
  obtain ⟨handle, root, direction, uri, hidden, closed, former, lineMap, sourceMap⟩ := t
  obtain rfl : root = u.root := hroot
  obtain rfl : lineMap = u.lineMap := hlineMap
  obtain rfl : sourceMap = u.sourceMap := hsourceMap
  simp only [frame, Prod.mk.injEq] at hframe
  obtain ⟨rfl, rfl, rfl, rfl, rfl, rfl⟩ := hframe
  rfl

/-- What of a registry stays while its trees change. -/
def Registry.frame (r : Registry) : Table Int TreeId × Option Int × Option Int × Int × Nat :=
  (r.slots, r.recentCalls, r.recentOutline, r.nextHandle, r.trees.length)

theorem Registry.frame_update {r : Registry} {id : TreeId} {f : Tree → Tree} :
    (r.update id f).frame = r.frame := by
  simp [frame, update]

/-- A registry is that and its trees. -/
theorem Registry.eq_of_frame {r q : Registry} (hframe : r.frame = q.frame)
    (htrees : ∀ id, r.tree id = q.tree id) : r = q := by
  obtain ⟨trees, slots, recentCalls, recentOutline, nextHandle⟩ := r
  simp only [frame, Prod.mk.injEq] at hframe
  obtain ⟨rfl, rfl, rfl, rfl, hlength⟩ := hframe
  obtain rfl : trees = q.trees := by
    refine List.ext_getElem hlength fun id hr hq => ?_
    have hid := htrees id
    simp only [tree, List.getD_eq_getElem?_getD, List.getElem?_eq_getElem hr,
      List.getElem?_eq_getElem hq, Option.getD_some] at hid
    exact hid
  rfl

namespace Session

variable {s t u : Session} {π : Outcomes} {inquiry : Inquiry} {id : TreeId} {ended : List Token}
  {results : List Resolution} {stale : Set TreeId}

/-! ### What effects leave alone -/

section Chain

variable {R : Session → List Resolution → Session → Prop} (hR : Lawful R)

theorem Alters.frame (h : s.Sound) (ha : Alters s results t) :
    t.registry.frame = s.registry.frame ∧ ∀ id, (t.tree id).frame = (s.tree id).frame := by
  have node {id : TreeId} {ref : NodeRef} {f : Node → Node} (hm : s.Member id ref)
      (hr : t.registry = s.registry.updateNode ref f) :
      t.registry.frame = s.registry.frame ∧ ∀ id, (t.tree id).frame = (s.tree id).frame := by
    have hcurrent : (s.registry.tree ref.tree).IsCurrent ref.place := (h.stands hm).current
    refine ⟨by rw [hr]; exact Registry.frame_update, fun id => ?_⟩
    rw [tree, hr]
    exact Registry.tree_update_of_keeps Tree.frame (Tree.frame_modify hcurrent)
  cases ha with
  | same registry => exact ⟨by rw [registry], fun id => by rw [tree, registry]; rfl⟩
  | released member registry => exact node member registry
  | grown member waits registry => exact node member registry

/-- Nothing changes in trees that are not open. -/
theorem Alters.tree_of_closed (ha : Alters s results t) (ho : s.isOpen id = false) :
    t.tree id = s.tree id := by
  have node {other : TreeId} {ref : NodeRef} {f : Node → Node} (hm : s.Member other ref)
      (hr : t.registry = s.registry.updateNode ref f) : t.tree id = s.tree id := by
    rw [tree, hr]
    refine Registry.tree_update_of_ne ?_
    rintro rfl
    rw [hm.tree, hm.isOpen] at ho
    cases ho
  cases ha with
  | same registry => rw [tree, registry]; rfl
  | released member registry => exact node member registry
  | grown member waits registry => exact node member registry

include hR

theorem Chain.registryFrame (h : s.Sound) (hc : Chain R s results t) :
    t.registry.frame = s.registry.frame ∧ ∀ id, (t.tree id).frame = (s.tree id).frame := by
  induction hc with
  | refl => exact ⟨rfl, fun _ => rfl⟩
  | log _ _ ih => exact ih
  | tail before next ih =>
    have hu := before.sound hR h
    obtain ⟨hr, ht⟩ := (hR.alters hu next).frame hu
    exact ⟨hr.trans ih.1, fun id => (ht id).trans (ih.2 id)⟩

theorem Chain.tree_of_closed (h : s.Sound) (hc : Chain R s results t) (ho : s.isOpen id = false) :
    t.tree id = s.tree id := by
  induction hc with
  | refl => rfl
  | log _ _ ih => exact ih
  | @tail results more t u before next ih =>
    have hu := before.sound hR h
    have hopen : t.isOpen id = false := by
      rw [(before.keepsDrawn hR h).isOpen, ho]
    exact ((hR.alters hu next).tree_of_closed hopen).trans ih

end Chain

/-! ### The trees that were drawn -/

theorem frame_shown (view : View) (other : TreeId) :
    ((s.shown id view).tree other).frame = (s.tree other).frame :=
  Registry.tree_update_of_keeps Tree.frame rfl

/-- What stands in the buffer of a tree, and whether it is shown. -/
def content (s : Session) (id : TreeId) : Option (List Text × Table Int Text × Bool) :=
  (s.buffers.get? (s.tree id).handle).map fun buffer =>
    (buffer.lines, buffer.annotations, buffer.visible)

/-- A request that has ended had nodes for the tree in prospect. -/
def Blooms (s : Session) (π : Outcomes) (ended : List Token) (id : TreeId) : Prop :=
  ∃ k ∈ ended, ∃ ending, s.prospect π k = some ending ∧ ending.grown? = some id

/-- A tree either got no nodes and shows what it showed, or it got some and was drawn after that. -/
inductive Redraws (π : Outcomes) (s : Session) (ended : List Token) (id : TreeId) (t : Session) :
    Prop where
  | kept (root : (t.tree id).root.idle = (s.tree id).root.idle)
    (lineMap : (t.tree id).lineMap = (s.tree id).lineMap)
    (sourceMap : (t.tree id).sourceMap = (s.tree id).sourceMap)
    (content : t.content id = s.content id) (bare : ¬s.Blooms π ended id)
  | drawn {view : View} (drawn : View.ofTree (t.tree id) s.style = .ok view)
    (lineMap : (t.tree id).lineMap = view.lineMap (t.tree id))
    (sourceMap : (t.tree id).sourceMap = view.sourceMap)
    (content : t.content id = some (view.lines, view.annotations,
      (s.buffers.buffer (s.tree id).handle).visible)) (blooms : s.Blooms π ended id)

/-- That a tree is in step goes by the tree and by what stands in its buffer. -/
theorem Redraws.of_tree (h : Redraws π s ended id t) (htree : u.tree id = t.tree id)
    (hcontent : u.content id = t.content id) : Redraws π s ended id u := by
  cases h with
  | kept root lineMap sourceMap content bare =>
    refine .kept ?_ ?_ ?_ (hcontent.trans content) bare <;> rw [htree] <;> assumption
  | drawn drawn lineMap sourceMap content blooms =>
    refine .drawn ?_ ?_ ?_ (hcontent.trans content) blooms <;> rw [htree] <;> assumption

/-- What has become of a session when the requests `ended` have ended, and all trees that got nodes
are drawn but for those of `stale`. -/
structure Serves (π : Outcomes) (s : Session) (ended : List Token) (stale : Set TreeId)
    (t : Session) : Prop where
  style : t.style = s.style
  registry : t.registry.frame = s.registry.frame
  trees : ∀ id, (t.tree id).frame = (s.tree id).frame
  closed : ∀ id, s.isOpen id = false → t.tree id = s.tree id
  filled : ∀ id, t.filled π id = s.filled π id
  distinct : ended.Nodup
  foretold : ∀ k ∈ ended, s.prospect π k ≠ none
  prospects : ∀ k, t.prospect π k = if k ∈ ended then none else s.prospect π k
  strangers : ∀ handle, s.registry.slots.get? handle = none →
    t.buffers.get? handle = s.buffers.get? handle
  visible : ∀ id, s.isOpen id → (t.buffers.buffer (t.tree id).handle).visible =
    (s.buffers.buffer (s.tree id).handle).visible
  display : ∀ id, s.isOpen id → id ∉ stale → Redraws π s ended id t

theorem Blooms.append {more : List Token} :
    s.Blooms π (ended ++ more) id ↔ s.Blooms π ended id ∨ s.Blooms π more id := by
  simp only [Blooms, List.mem_append, or_and_right, exists_or]

namespace Serves

theorem refl (s : Session) : Serves π s [] ∅ s where
  style := rfl
  registry := rfl
  trees _ := rfl
  closed _ _ := rfl
  filled _ := rfl
  distinct := List.nodup_nil
  foretold _ hk := by cases hk
  prospects _ := rfl
  strangers _ _ := rfl
  visible _ _ := rfl
  display _ _ _ := .kept rfl rfl rfl rfl fun ⟨_, hk, _⟩ => by cases hk

theorem handle (h : Serves π s ended stale t) (id : TreeId) :
    (t.tree id).handle = (s.tree id).handle := congrArg Prod.fst (h.trees id)

theorem isOpen (h : Serves π s ended stale t) (id : TreeId) : t.isOpen id = s.isOpen id :=
  Registry.isOpen_congr (congrArg Prod.fst h.registry) (h.handle id)
    (congrArg (·.2.2.2.2.1) (h.trees id))

/-- What has nothing to do with trees and requests makes no difference. -/
theorem of_same (h : Serves π s ended stale t) (hr : u.registry = t.registry)
    (hp : ∀ k, u.prospect π k = t.prospect π k) (hb : u.buffers = t.buffers)
    (hs : u.style = t.style) : Serves π s ended stale u := by
  have htree (id : TreeId) : u.tree id = t.tree id := congrArg (Registry.tree · id) hr
  have hcontent (id : TreeId) : u.content id = t.content id := by
    rw [content, content, hb, htree]
  refine ⟨hs.trans h.style, hr ▸ h.registry, fun id => htree id ▸ h.trees id, fun id ho =>
    (htree id).trans (h.closed id ho), fun id => ?_, h.distinct, h.foretold, fun k =>
    (hp k).trans (h.prospects k), fun handle hn => hb ▸ h.strangers handle hn, fun id ho => ?_,
    fun id ho hn => ?_⟩
  · rw [Session.filled, htree, funext hp]
    exact h.filled id
  · rw [hb, htree]
    exact h.visible id ho
  · exact (h.display id ho hn).of_tree (htree id) (hcontent id)

/-- What is reported had to end that way from the beginning. -/
theorem foretold_of_mem (h : Serves π s ended stale t) (hf : Fulfils π t results u)
    {r : Resolution} (hr : r ∈ results) :
    r.token ∉ ended ∧ ∃ ending, s.prospect π r.token = some ending ∧ ending.Reports r := by
  obtain ⟨ending, he, hreports⟩ := hf.foretold r hr
  rw [h.prospects] at he
  split at he
  · cases he
  · rename_i hn
    exact ⟨hn, ending, he, hreports⟩

/-- The trees to which nodes were reported are those that had nodes in prospect. -/
theorem blooms_iff (h : Serves π s ended stale t) (hf : Fulfils π t results u) :
    s.Blooms π (results.map Resolution.token) id ↔ id ∈ enlarged results := by
  constructor
  · rintro ⟨k, hk, ending, he, hg⟩
    obtain ⟨r, hr, rfl⟩ := List.mem_map.1 hk
    obtain ⟨-, other, ho, hreports⟩ := h.foretold_of_mem hf hr
    obtain rfl := Option.some.inj (he.symm.trans ho)
    exact List.mem_filterMap.2 ⟨r, hr, hreports.grown.trans hg⟩
  · intro hm
    obtain ⟨r, hr, hg⟩ := List.mem_filterMap.1 hm
    obtain ⟨-, ending, he, hreports⟩ := h.foretold_of_mem hf hr
    exact ⟨r.token, List.mem_map_of_mem hr, ending, he, hreports.grown.symm.trans hg⟩

/-- **Effects end requests as they had to end**, and what they change of a tree that got no nodes
is not seen. -/
theorem chain (h : Serves π s ended ∅ t) (ha : Accordant π t) (hc : Chain Effect t results u) :
    Serves π s (ended ++ results.map Resolution.token) (enlarged results) u := by
  have ht := ha.steady.sound
  have hf := (ha.chain hc).2
  have hk := hc.keepsDrawn lawful_effect ht
  have hframe := hc.frame lawful_effect
  obtain ⟨hregistry, htrees⟩ := hc.registryFrame lawful_effect ht
  have hfresh {k : Token} (hm : k ∈ results.map Resolution.token) :
      k ∉ ended ∧ s.prospect π k ≠ none := by
    obtain ⟨r, hr, rfl⟩ := List.mem_map.1 hm
    obtain ⟨hn, ending, he, -⟩ := h.foretold_of_mem hf hr
    exact ⟨hn, by simp [he]⟩
  have hbuffer (id : TreeId) :
      u.buffers.get? (u.tree id).handle = t.buffers.get? (t.tree id).handle := by
    rw [hframe.buffers, hk.handle]
  refine ⟨hframe.style.trans h.style, hregistry.trans h.registry,
    fun id => (htrees id).trans (h.trees id), fun id ho => ?_,
    fun id => (hf.filled id).trans (h.filled id), ?_, fun k hm => ?_, fun k => ?_,
    fun handle hn => ?_, fun id ho => ?_, fun id ho hn => ?_⟩
  · exact (hc.tree_of_closed lawful_effect ht ((h.isOpen id).trans ho)).trans (h.closed id ho)
  · rw [List.nodup_append]
    refine ⟨h.distinct, (hc.accounts lawful_effect ht).distinct, ?_⟩
    rintro k hk _ hm rfl
    exact (hfresh hm).1 hk
  · exact (List.mem_append.1 hm).elim (h.foretold k) fun hm => (hfresh hm).2
  · rw [hf.prospects, h.prospects]
    by_cases hm : k ∈ results.map Resolution.token <;> simp [hm]
  · rw [hframe.buffers]
    exact h.strangers handle hn
  · rw [Buffers.buffer, hbuffer]
    exact h.visible id ho
  · have hbare : ¬s.Blooms π (results.map Resolution.token) id := fun hb =>
      hn ((h.blooms_iff hf).1 hb)
    have hcontent : u.content id = t.content id := by
      rw [content, content, hbuffer]
    have hlineMap : (u.tree id).lineMap = (t.tree id).lineMap := congrArg (·.2.2.2.2.1) (hk.face id)
    have hsourceMap : (u.tree id).sourceMap = (t.tree id).sourceMap :=
      congrArg (·.2.2.2.2.2) (hk.face id)
    obtain ⟨hroot, hgeneration⟩ := hk.nodes id hn
    cases h.display id ho (Set.notMem_empty id) with
    | kept root lineMap sourceMap content bare =>
      refine .kept (hroot.trans root) (hlineMap.trans lineMap) (hsourceMap.trans sourceMap)
        (hcontent.trans content) fun hb => ?_
      exact (Blooms.append.1 hb).elim bare hbare
    | @drawn view drawn lineMap sourceMap content blooms =>
      obtain ⟨view', hv, hsame⟩ :=
        View.ofTree_of_idle hroot (congrArg (·.2.1) (hk.face id)) drawn
      refine .drawn hv ?_ ?_ ?_ (Blooms.append.2 (.inl blooms))
      · rw [hlineMap, lineMap]
        exact hsame.lineMap _ _ hgeneration.symm
      · rw [hsourceMap, sourceMap, hsame.sourceMap]
      · rw [hcontent, content, hsame.lines, hsame.annotations]

/-- **A tree that got nodes is drawn.** -/
theorem shown (h : Serves π s ended stale t) (ht : t.Sound) (ho : t.isOpen id) {view : View}
    (hv : View.ofTree (t.tree id) t.style = .ok view) (hb : s.Blooms π ended id) :
    Serves π s ended (stale \ {id}) (t.shown id view) := by
  have hs : s.isOpen id := (h.isOpen id).symm.trans ho
  have hget := get?_buffers_shown t id view
  have hbuffer {other : TreeId} (ho' : s.isOpen other) (hne : other ≠ id) :
      (t.shown id view).buffers.get? ((t.shown id view).tree other).handle =
        t.buffers.get? (t.tree other).handle := by
    rw [handle_shown, hget, if_neg]
    exact fun he => hne (handle_injective ((h.isOpen other).trans ho') ho he.symm)
  refine ⟨h.style, Registry.frame_update.trans h.registry,
    fun other => (frame_shown view other).trans (h.trees other), fun other hc => ?_,
    fun other => (filled_shown view other).trans (h.filled other),
    h.distinct, h.foretold, fun k => (prospect_shown view).trans (h.prospects k),
    fun handle hn => ?_, fun other ho' => ?_, fun other ho' hn => ?_⟩
  · refine (tree_shown_of_ne t id view ?_).trans (h.closed other hc)
    rintro rfl
    rw [hs] at hc
    cases hc
  · -- the buffer of an open tree is no stranger
    rw [hget, if_neg, h.strangers handle hn]
    rintro rfl
    have hslot := (Registry.isOpen_iff.1 ho).2
    have hslots : t.registry.slots = s.registry.slots := congrArg Prod.fst h.registry
    rw [hslots] at hslot
    exact Option.some_ne_none _ (hslot.symm.trans hn)
  · by_cases he : other = id
    · subst he
      rw [Buffers.buffer, handle_shown, hget, if_pos rfl]
      exact h.visible other hs
    · rw [Buffers.buffer, hbuffer ho' he]
      exact h.visible other ho'
  · by_cases he : other = id
    · subst he
      have hself := tree_shown ho ht view
      have hdrawn : View.ofTree ((t.shown other view).tree other) s.style = .ok view := by
        rw [hself, ← h.style]
        exact hv
      refine .drawn hdrawn (by rw [hself]; rfl) (by rw [hself]; rfl) ?_ hb
      rw [content, handle_shown, hget, if_pos rfl, Option.map_some,
        Table.ofList_of_nodup view.nodup_annotations, h.visible other hs]
    · have hcontent : (t.shown id view).content other = t.content other := by
        rw [content, content, hbuffer ho' he]
      exact (h.display other ho' fun hm => hn ⟨hm, he⟩).of_tree (tree_shown_of_ne t id view he)
        hcontent

theorem mono (h : Serves π s ended stale t) {later : Set TreeId}
    (hs : ∀ id, s.isOpen id → id ∈ stale → id ∈ later) : Serves π s ended later t :=
  ⟨h.style, h.registry, h.trees, h.closed, h.filled, h.distinct, h.foretold, h.prospects,
    h.strangers, h.visible, fun id ho hn => h.display id ho fun hm => hn (hs id ho hm)⟩

end Serves

/-! ### Pumping -/

namespace Accordant

theorem log (ha : Accordant π s) (journal : Journal) :
    Accordant π { s with journal := journal } :=
  ⟨ha.steady.log journal, ha.issued, ha.queue, ha.fits⟩

theorem shown (ha : Accordant π s) (ho : s.isOpen id) {view : View}
    (hv : View.ofTree (s.tree id) s.style = .ok view) : Accordant π (s.shown id view) :=
  ⟨ha.steady.move (.draw ho hv), ha.issued, ha.queue, ha.fits⟩

end Accordant

/-- Nobody's time is up when everything that has arrived has had its effect. -/
def isTimely (s : Session) : Bool :=
  match absorb s with
  | .ok _ t => t.pending.all fun entry => t.now.lt entry.2.deadline
  | .error _ _ => true

theorem expire_of_timely (h : s.now.lt inquiry.deadline) : expire inquiry s = .ok [] s := by
  have hends : (expire inquiry).Ends s (fun results t => results = [] ∧ t = s) fun _ _ => False := by
    unfold expire
    refine .bind (.get ?_)
    rw [if_pos h]
    exact .pure ⟨rfl, rfl⟩
  exact hends.eq_ok

theorem ends_expireAll_of_timely (entries : Table Token Inquiry)
    (h : ∀ entry ∈ entries, s.now.lt entry.2.deadline) :
    (expireAll entries).Ends s (fun results t => results = [] ∧ t = s) fun _ _ => False := by
  induction entries with
  | nil => exact .pure ⟨rfl, rfl⟩
  | cons entry rest ih =>
    rw [expireAll_cons]
    refine .bind ((ends_of_eq (expire_of_timely (h entry List.mem_cons_self))).mono ?_
      fun _ _ h => h)
    rintro _ t ⟨rfl, rfl⟩
    refine .bind ((ih fun other ho => h other (List.mem_cons_of_mem _ ho)).mono ?_ fun _ _ h => h)
    rintro _ u ⟨rfl, rfl⟩
    exact .pure ⟨rfl, rfl⟩

/-- Where nobody's time is up, draining is nothing but the effects of what has arrived. -/
theorem ends_drain_of_timely (h : s.Steady) (ht : s.isTimely) :
    drain.Ends s (fun results t => Chain Effect s results t) fun _ _ => True := by
  rw [drain_eq]
  refine .bind ?_
  have habsorb := ends_absorb h
  unfold isTimely at ht
  unfold Action.Ends at habsorb ⊢
  cases hx : absorb s with
  | error e t => trivial
  | ok results t =>
    rw [hx] at habsorb ht
    have hlater : ∀ entry ∈ t.pending, t.now.lt entry.2.deadline := List.all_eq_true.1 ht
    refine Action.Ends.bind (.get (.bind ((ends_expireAll_of_timely t.pending hlater).mono ?_
      fun _ _ h => h.elim)))
    rintro _ u ⟨rfl, rfl⟩
    refine .pure ?_
    rw [List.append_nil]
    exact habsorb.1

/-- What requests for nodes lead to: their reasons are told, and the trees that grew are to be
drawn. -/
theorem ends_acts_of_expands (results : List Resolution)
    (h : ∀ r ∈ results, ∃ id ref generation direction,
      r.purpose = .expand id ref generation direction) :
    (results.filterMapM act).Ends s (fun ids t => ids = results.filterMap Resolution.grown? ∧
      ∃ journal, t = { s with journal := journal } ∧
        journal.notes = s.journal.notes ++ results.filterMap Resolution.note?)
      fun _ _ => False := by
  induction results generalizing s with
  | nil => exact .pure ⟨rfl, s.journal, rfl, (List.append_nil _).symm⟩
  | cons r rest ih =>
    obtain ⟨⟨id, ref, generation, direction, hp⟩, hrest⟩ := List.forall_mem_cons.1 h
    have hact : (act r).Ends s (fun id t => id = r.grown? ∧
        ∃ journal, t = { s with journal := journal } ∧
          journal.notes = s.journal.notes ++ r.note?.toList) fun _ _ => False := by
      obtain ⟨token, purpose, result⟩ := r
      obtain rfl : purpose = _ := hp
      cases result with
      | failure reason => exact .bind (.modify (.pure ⟨rfl, _, rfl, rfl⟩))
      | children nodes => exact .pure ⟨rfl, _, rfl, (List.append_nil _).symm⟩
      | items items => cases items <;> exact .pure ⟨rfl, _, rfl, (List.append_nil _).symm⟩
      | symbols symbols => exact .pure ⟨rfl, _, rfl, (List.append_nil _).symm⟩
    rw [List.filterMapM_cons, List.filterMap_cons, filterMap_cons_toList Resolution.note?]
    refine .bind (hact.mono ?_ fun _ _ h => h)
    rintro _ _ ⟨rfl, journal, rfl, hnotes⟩
    have hall := (ih (s := { s with journal := journal }) hrest).mono
      (R := fun ids t => ids = rest.filterMap Resolution.grown? ∧
        ∃ journal, t = { s with journal := journal } ∧ journal.notes = s.journal.notes ++
          (r.note?.toList ++ rest.filterMap Resolution.note?)) (fun ids t => ?_) fun _ _ h => h
    · cases r.grown? with
      | none => exact hall
      | some id =>
        refine .bind (hall.mono ?_ fun _ _ h => h)
        rintro _ _ ⟨rfl, later, rfl, hlater⟩
        exact .pure ⟨rfl, later, rfl, hlater⟩
    · rintro ⟨rfl, later, rfl, hlater⟩
      exact ⟨rfl, later, rfl, by rw [hlater, hnotes, List.append_assoc]⟩

/-- The trees that grew are drawn. -/
theorem serves_redraw (ids : List TreeId) (ha : Accordant π t) (h : Serves π s ended stale t)
    (hb : ∀ id ∈ ids, s.Blooms π ended id) :
    Action.Ends (ids.forM fun id => do if (← get).isOpen id then let _ ← render id) t
      (fun _ u => Accordant π u ∧ Serves π s ended (stale \ {id | id ∈ ids}) u ∧
        u.journal = t.journal) fun _ _ => True := by
  induction ids generalizing t stale with
  | nil =>
    have hnone (id : TreeId) (hm : id ∈ stale) : id ∈ stale \ {id | id ∈ ([] : List TreeId)} :=
      ⟨hm, List.not_mem_nil⟩
    exact .pure ⟨ha, h.mono fun id _ => hnone id, rfl⟩
  | cons id ids ih =>
    obtain ⟨hid, hids⟩ := List.forall_mem_cons.1 hb
    have hsub (other : TreeId) (hm : other ∈ (stale \ {id}) \ {other | other ∈ ids}) :
        other ∈ stale \ {other | other ∈ id :: ids} :=
      ⟨hm.1.1, fun hin => (List.mem_cons.1 hin).elim hm.1.2 hm.2⟩
    have hrest {u : Session} (ha : Accordant π u) (hu : Serves π s ended (stale \ {id}) u)
        (hj : u.journal = t.journal) :=
      (ih ha hu hids).mono (R := fun _ v => Accordant π v ∧
        Serves π s ended (stale \ {other | other ∈ id :: ids}) v ∧ v.journal = t.journal)
        (fun _ _ hv => ⟨hv.1, hv.2.1.mono fun other _ => hsub other, hv.2.2.trans hj⟩)
        fun _ _ h => h
    refine .bind (.bind (.get ?_))
    split
    · rename_i ho
      refine .bind ((ends_render ho).mono ?_ fun _ _ _ => trivial)
      rintro view _ ⟨hv, rfl⟩
      exact .pure (hrest (ha.shown ho hv) (h.shown ha.steady.sound ho hv hid) rfl)
    · rename_i ho
      have hclosed : Serves π s ended (stale \ {id}) t := h.mono fun other hopen hm => by
        refine ⟨hm, ?_⟩
        rintro rfl
        exact ho ((h.isOpen other).trans hopen)
      exact .pure (hrest ha hclosed rfl)

/-- What is told when the requests `ended` end. -/
def told (s : Session) (π : Outcomes) (ended : List Token) : List Note :=
  ended.filterMap fun k => (s.prospect π k).bind Ending.note?

/-- **Pumping ends requests as they had to end**, tells their reasons, and draws the trees that got
nodes. -/
theorem serves_pump (ha : Accordant π t) (h : Serves π s ended ∅ t) (ht : t.isTimely) :
    pump.Ends t (fun _ u => ∃ more, Accordant π u ∧ Serves π s (ended ++ more) ∅ u ∧
      u.journal.notes = t.journal.notes ++ s.told π more) fun _ _ => True := by
  unfold pump
  refine .bind ((ends_drain_of_timely ha.steady ht).mono ?_ fun _ _ h => h)
  intro results u hc
  obtain ⟨hau, hf⟩ := ha.chain hc
  have hu := h.chain ha hc
  have hexpands : ∀ r ∈ results, ∃ id ref generation direction,
      r.purpose = .expand id ref generation direction := fun r hr => by
    obtain ⟨ending, -, hreports⟩ := hf.foretold r hr
    exact hreports.expands
  have hnotes : results.filterMap Resolution.note? = s.told π (results.map Resolution.token) := by
    rw [told, List.filterMap_map]
    refine List.filterMap_congr fun r hr => ?_
    obtain ⟨-, ending, he, hreports⟩ := h.foretold_of_mem hf hr
    rw [Function.comp_apply, he, hreports.note]
    rfl
  refine .bind ((ends_acts_of_expands results hexpands).mono ?_ fun _ _ h => h.elim)
  rintro _ _ ⟨rfl, journal, rfl, hjournal⟩
  have hlogged : Serves π s (ended ++ results.map Resolution.token) (enlarged results)
      { u with journal := journal } := hu.of_same rfl (fun _ => rfl) rfl rfl
  refine .bind ((serves_redraw _ (hau.log journal) hlogged fun id hid => ?_).mono ?_
    fun _ _ h => h)
  · exact Blooms.append.2 (.inr ((h.blooms_iff hf).2 (List.mem_eraseDups.1 hid)))
  · rintro _ v ⟨hav, hv, hj⟩
    refine .pure ⟨_, hav, hv.mono fun id _ hm => ?_, ?_⟩
    · exact absurd (List.mem_eraseDups.2 hm.1) hm.2
    · rw [hj, hjournal, hnotes, (hc.frame lawful_effect).notes]

end Session

end SymbolTrees
