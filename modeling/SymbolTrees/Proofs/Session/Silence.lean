import SymbolTrees.Proofs.Session.Provenance
import SymbolTrees.Proofs.Session.Superseded

/-!
# Superseded requests are silent

Whatever becomes of a superseded request or of its lookups makes no difference to what is seen of a
session: two runs that differ in nothing else look alike at every step. A node that was collapsed
while its request was under way takes its children from a newer request.
-/

namespace SymbolTrees

open SymbolTrees.Server (Outcome)

namespace Session

variable {dead : Token → Bool} {late : Nat → Bool} {s t : Session} {event : Event}
  {es fs events : List Event}

/-! ### The numbers under which requests were sent -/

/-- `late` tells of the numbers under which requests were sent whether they are left out. -/
structure Numbered (dead : Token → Bool) (late : Nat → Bool) (s : Session) : Prop where
  sent : ∀ i, late i → i < s.sent.length
  token : ∀ i r, s.sent[i]? = some r → dead r.token = late i

theorem Numbered.move (hn : Numbered dead late s) (hq : s.Quiet dead) (hm : Move s t) :
    Numbered dead late t := by
  rcases hm.sent_cases with he | ⟨r, he, hr, -⟩
  · exact ⟨fun i hi => he ▸ hn.sent i hi, fun i x hx => hn.token i x (he ▸ hx)⟩
  · refine ⟨?_, ?_⟩
    · intro i hi
      rw [he, List.length_append]
      exact Nat.lt_of_lt_of_le (hn.sent i hi) (Nat.le_add_right ..)
    · intro i x hx
      rw [he] at hx
      by_cases hlt : i < s.sent.length
      · rw [List.getElem?_append_left hlt] at hx
        exact hn.token i x hx
      · obtain rfl : i = s.sent.length := by
          have := (List.getElem?_eq_some_iff.1 hx).1
          rw [List.length_append, List.length_singleton] at this
          omega
        obtain rfl := Option.some.inj (List.getElem?_concat_length.symm.trans hx)
        rw [hr, hq.nextToken, eq_comm, ← Bool.not_eq_true]
        exact fun hi => Nat.lt_irrefl _ (hn.sent _ hi)

theorem Numbered.moves (hn : Numbered dead late s) (h : s.Sound) (hq : s.Quiet dead)
    (hm : Moves s t) : Numbered dead late t := by
  induction hm with
  | refl => exact hn
  | tail hms hmove ih => exact ih.move (hq.moves h hms) hmove

theorem Numbered.arrived (hn : Numbered dead late s) (i : Nat) (request : Sent)
    (outcome : Outcome) : Numbered dead late (s.arrived i request outcome) := by
  refine ⟨?_, ?_⟩
  · intro j hj
    rw [Session.arrived, List.length_modify]
    exact hn.sent j hj
  · intro j x hx
    rw [Session.arrived, List.getElem?_modify] at hx
    obtain ⟨y, hy, rfl⟩ := Option.map_eq_some_iff.1 hx
    rw [← hn.token j y hy]
    split <;> rfl

/-! ### In step -/

/-- Two sessions that look alike, and the numbers under which the requests were sent that are left
out. -/
structure InStep (dead : Token → Bool) (late : Nat → Bool) (s t : Session) : Prop where
  twins : Twins dead s t
  left : Numbered dead late s
  right : Numbered dead late t

theorem InStep.symm (h : InStep dead late s t) : InStep dead late t s :=
  ⟨h.twins.symm, h.right, h.left⟩

/-- The event is not the outcome of what is left out. -/
def Event.isTimely (late : Nat → Bool) : Event → Bool
  | .settle i _ => !late i
  | _ => true

/-- An outcome of what is left out is not seen. -/
theorem Alike.of_arrived {i : Nat} {request : Sent} (hr : s.sent[i]? = some request)
    (hd : dead request.token) (outcome : Outcome) : s.Alike dead (s.arrived i request outcome) := by
  refine { Alike.refl s with
    arrivals := ?_
    sent := ?_ }
  · rw [Session.arrived, List.filter_append, List.filter_cons_of_neg (by simp [hd]),
      List.filter_nil, List.append_nil]
  · refine List.ext_getElem? ?_
    intro j
    rw [Session.arrived, List.getElem?_map, List.getElem?_map, List.getElem?_modify]
    by_cases hj : i = j
    · subst hj
      simp [hr, Sent.seen, Sent.settled, hd]
    · simp [hj]

/-- What arrives for what is left out is dealt with on one side only. -/
theorem InStep.skip (h : InStep dead late s t) {i : Nat} (hi : late i) {outcome : Outcome}
    (hr : ∀ value r, outcome = .answer value → s.sent[i]? = some r → r.isLookup → dead r.token →
      s.CanRead r.token value) : InStep dead late (s.step (.settle i outcome)) t := by
  obtain ⟨r, hrequest⟩ : ∃ r, s.sent[i]? = some r :=
    ⟨_, List.getElem?_eq_getElem (h.left.sent i hi)⟩
  by_cases ho : r.isOpen
  · have hd : dead r.token := (h.left.token i r hrequest).trans hi
    rw [step, Action.after, settle_of_isOpen hrequest ho]
    refine ⟨⟨h.twins.left.arrived outcome hrequest ho, h.twins.right, ?_, h.twins.quietRight, ?_⟩,
      h.left.arrived i r outcome, h.right⟩
    · exact h.twins.quietLeft.arrived fun hl hd value hv => hr value r hv hrequest hl hd
    · exact (Alike.of_arrived hrequest hd outcome).symm.trans h.twins.alike
  · rw [step, Action.after, settle_of_not_isOpen fun x hx ho' => ho ?_]
    · exact h
    · exact Option.some.inj (hrequest.symm.trans hx) ▸ ho'

theorem InStep.settle (h : InStep dead late s t) {i : Nat} (hi : late i = false)
    (outcome : Outcome) :
    InStep dead late (s.step (.settle i outcome)) (t.step (.settle i outcome)) ∧
      (Event.settle i outcome).act.answer s = (Event.settle i outcome).act.answer t := by
  rcases h.twins.alike.sent_cases i with ⟨hs, ht⟩ | ⟨a, b, hs, ht, hab⟩
  · have hs' := settle_of_not_isOpen (s := s) (i := i) (by simp [hs]) outcome
    have ht' := settle_of_not_isOpen (s := t) (i := i) (by simp [ht]) outcome
    rw [step, step, Action.after, Action.after, Action.answer, Action.answer, hs', ht']
    exact ⟨h, rfl⟩
  · have ha : dead a.token = false := (h.left.token i a hs).trans hi
    have hb : dead b.token = false := (h.right.token i b ht).trans hi
    obtain ⟨-, -, -, hopen⟩ := Sent.mk.inj hab
    rw [ha, hb, Bool.not_false, Bool.and_true, Bool.and_true] at hopen
    have hread {x : Sent} {u : Session} (hx : dead x.token = false) :
        x.isLookup → dead x.token → ∀ value, outcome = .answer value → u.CanRead x.token value := by
      intro _ hd
      rw [hx] at hd
      cases hd
    by_cases ho : a.isOpen
    · have ho' : b.isOpen := hopen ▸ ho
      rw [step, step, Action.after, Action.after, Action.answer, Action.answer,
        settle_of_isOpen hs ho, settle_of_isOpen ht ho']
      have htwins : Twins dead (s.arrived i a outcome) (t.arrived i b outcome) :=
        ⟨h.twins.left.arrived outcome hs ho, h.twins.right.arrived outcome ht ho',
          h.twins.quietLeft.arrived (hread ha), h.twins.quietRight.arrived (hread hb),
          h.twins.alike.arrived i hab outcome⟩
      exact ⟨⟨htwins, h.left.arrived i a outcome, h.right.arrived i b outcome⟩, rfl⟩
    · have hs' := settle_of_not_isOpen (s := s) (i := i)
        (fun x hx => Option.some.inj (hs.symm.trans hx) ▸ ho) outcome
      have ht' := settle_of_not_isOpen (s := t) (i := i)
        (fun x hx => Option.some.inj (ht.symm.trans hx) ▸ hopen ▸ ho) outcome
      rw [step, step, Action.after, Action.after, Action.answer, Action.answer, hs', ht']
      exact ⟨h, rfl⟩

/-- **Whatever else happens to both sessions is seen of both alike.** -/
theorem InStep.both (h : InStep dead late s t) (hk : event.isTimely late) :
    InStep dead late (s.step event) (t.step event) ∧ event.act.answer s = event.act.answer t := by
  by_cases ho : event.isOwn
  · obtain ⟨ha, he⟩ := (lock_event h.twins event ho).after
    exact ⟨⟨h.twins.after ha, h.left.moves h.twins.left h.twins.quietLeft ha.left,
      h.right.moves h.twins.right h.twins.quietRight ha.right⟩, he⟩
  cases event with
  | settle i outcome => exact h.settle (by simpa [Event.isTimely] using hk) outcome
  | tick now =>
    obtain ⟨⟨hl, hr, hql, hqr, ha⟩, hnl, hnr⟩ := h
    exact ⟨⟨⟨hl.ticked now, hr.ticked now, ⟨hql.old, hql.stale, hql.lookups, hql.readable⟩,
      ⟨hqr.old, hqr.stale, hqr.lookups, hqr.readable⟩, { ha with now := rfl }⟩,
      ⟨hnl.sent, hnl.token⟩, ⟨hnr.sent, hnr.token⟩⟩, rfl⟩
  | _ => exact absurd rfl ho

/-! ### Two runs -/

/-- What the events of a run answer that are not outcomes of what is left out. -/
def answers (late : Nat → Bool) : Session → List Event → List (Except Fault Report)
  | _, [] => []
  | s, event :: events =>
    if event.isTimely late then event.act.answer s :: answers late (s.step event) events
    else answers late (s.step event) events

/-- What arrives in a run for the lookups that are left out can be read for the calls that they are
for. -/
def Legible (gone : Token → Prop) (s : Session) (events : List Event) : Prop :=
  ∀ before i value after r, events = before ++ .settle i (.answer value) :: after →
    (s.steps before).sent[i]? = some r → r.isLookup → gone r.token →
      (s.steps before).CanRead r.token value

theorem Legible.tail {gone : Token → Prop} (h : Legible gone s (event :: events)) :
    Legible gone (s.step event) events := by
  rintro before i value after r rfl hr hl hg
  exact h (event :: before) i value after r rfl hr hl hg

theorem legible_nil {gone : Token → Prop} : Legible gone s [] := by
  rintro before i value after r he
  cases before <;> cases he

theorem legible_cons {gone : Token → Prop}
    (hhead : ∀ i value r, event = .settle i (.answer value) → s.sent[i]? = some r → r.isLookup →
      gone r.token → s.CanRead r.token value)
    (htail : Legible gone (s.step event) events) : Legible gone s (event :: events) := by
  rintro before i value after r he hr hl hg
  cases before with
  | nil => exact hhead i value r (List.cons.inj he).1 hr hl hg
  | cons first before =>
    obtain ⟨rfl, hrest⟩ := List.cons.inj he
    exact htail before i value after r hrest hr hl hg

theorem InStep.skipEvent (h : InStep dead late s t) (hk : event.isTimely late = false)
    (hs : Legible (dead ·) s (event :: events)) : InStep dead late (s.step event) t := by
  cases event with
  | settle i outcome =>
    apply h.skip (by simpa [Event.isTimely] using hk)
    rintro value r rfl hr hl hd
    exact hs [] i value events r rfl hr hl hd
  | _ => cases hk

/-- **Two runs that differ in nothing but outcomes of what is left out stay in step.** -/
theorem InStep.steps (hm : Merged (Event.isTimely late) es fs) (h : InStep dead late s t)
    (hs : Legible (dead ·) s es) (ht : Legible (dead ·) t fs) :
    InStep dead late (s.steps es) (t.steps fs) ∧ answers late s es = answers late t fs := by
  induction hm generalizing s t with
  | nil => exact ⟨h, rfl⟩
  | left skipped rest ih =>
    obtain ⟨h, he⟩ := ih (h.skipEvent skipped hs) hs.tail ht
    exact ⟨h, by rw [answers, skipped]; exact he⟩
  | right skipped rest ih =>
    obtain ⟨h, he⟩ := ih (h.symm.skipEvent skipped ht).symm hs ht.tail
    exact ⟨h, by rw [answers, skipped]; exact he⟩
  | both kept rest ih =>
    obtain ⟨h, ha⟩ := h.both kept
    obtain ⟨h, he⟩ := ih h hs.tail ht.tail
    exact ⟨h, by rw [answers, answers, kept, ha, he]⟩

/-! ### Children from newer requests -/

section Renewed

variable {answered : Nat → Server.Request → Json → Prop} {id : TreeId} {ref : NodeRef} {k : Token}

/-- Requests for the node at a path are newer than `k`. -/
def NewerAt (id : TreeId) (path : List Nat) (k : Token) : TreeId → List Nat → Token → Prop :=
  fun other path' j => other = id → path' = path → k < j

variable (h : s.Sound) (ht : Traced answered (fun _ _ _ => True) s) (hm : s.Member id ref)
  (hw : (s.node ref).pending = some k)
include h hm hw

theorem lasting_givenUp : Lasting (NewerAt id ref.place.path k) (s.givenUp ref) := by
  have hk : k < s.nextToken := (h.waiting.nodes _ _ _ _ (hm.occurs h).found hw).1
  have hlt : id < s.registry.trees.length := hm.tree ▸ (h.stands hm).planted
  refine ⟨?_, ?_⟩
  · intro other path j hj _ _
    rw [nextToken_givenUp] at hj
    exact Int.lt_of_lt_of_le hk hj
  · intro other path j hother he _
    rw [registry_givenUp, Registry.updateNode, Registry.length_trees_update, he] at hother
    exact absurd hlt (Nat.not_lt.2 hother)

include ht

/-- A node whose request is given up has no children and waits for nothing. -/
theorem traced_givenUp (hrec : ∀ recording i request value, s.client = .replay recording →
    Server.Recording.answer recording request.method request.params = .ok value →
      answered i request value) :
    Traced answered (NewerAt id ref.place.path k) (s.givenUp ref) := by
  have hmove : Move s (s.givenUp ref) := .giveUp hm
  have ht' := ht.move h ⟨fun _ _ _ _ => trivial, fun _ _ _ _ => trivial⟩ hmove hrec
  have hbare {n : Node} (ho : (s.givenUp ref).Occurs id ref.place.path n) :
      n.children = [] ∧ n.pending = none := by
    have hleaf : (s.node ref).children = [] :=
      ((h.fits (hm.occurs h)).waiting (by rw [hw]; simp)).2.1
    rcases ho.of_updateNode_of_children h hm (f := fun node => { node with pending := none })
      rfl rfl (registry_givenUp ..) with ⟨hne, -⟩ | ⟨-, -, rfl⟩
    · exact absurd ⟨rfl, rfl⟩ hne
    · exact ⟨hleaf, rfl⟩
  refine ⟨ht'.queued, ?_, ?_⟩
  · intro other path n j inquiry ho hj hi
    refine ⟨?_, (ht'.waiting other path n j inquiry ho hj hi).2⟩
    rintro rfl rfl
    rw [(hbare ho).2] at hj
    cases hj
  · intro other path n d ho hd hc
    obtain ⟨j, -, hj⟩ := ht'.children other path n d ho hd hc
    refine ⟨j, ?_, hj⟩
    rintro rfl rfl
    exact absurd (hbare ho).1 hc

end Renewed

/-- A node that is collapsed while it waits for a request gets children from newer requests only. -/
theorem newer_of_collapse (client : Client) (settings : Settings) (root : Path) (now : Number)
    {s : Session} (hs : s = start client settings root now) {before : List Event} {id : TreeId}
    {ref : NodeRef} {k : Token} (hm : (s.steps before).Member id ref)
    (hdepth : ((s.steps before).node ref).depth ≠ 0)
    (hw : ((s.steps before).node ref).pending = some k) (after : List Event) :
    Traced (Answered s (before ++ .collapse id ref :: after)) (NewerAt id ref.place.path k)
      (s.steps (before ++ .collapse id ref :: after)) := by
  have h : s.Sound := hs ▸ sound_start ..
  have hu := h.steps before
  obtain ⟨hclient, ht⟩ := traced_steps client settings root now before
  rw [← hs] at hclient ht
  have hc : (s.steps before).client = s.client := by rw [hclient, hs]; rfl
  have hrec : ∀ recording i request value, (s.steps before).client = .replay recording →
      Server.Recording.answer recording request.method request.params = .ok value →
        Answered s before i request value :=
    fun recording i request value hr ha => .inr ⟨recording, hc ▸ hr, ha⟩
  have hgive : Move (s.steps before) ((s.steps before).givenUp ref) := .giveUp hm
  have ht' := traced_givenUp hu ht hm hw hrec
  obtain ⟨hc', hl', ht'⟩ := ht'.moves (hu.givenUp hm) (lasting_givenUp hu hm hw)
    (hgive.client_eq ▸ hrec) (moves_collapse hu hm hdepth)
  rw [← steps_concat] at hc' hl' ht'
  have ht' := ht'.mono fun i request value ha => ha.append [.collapse id ref]
  have hsteps := (Traced.steps h hl' (hc'.trans (hgive.client_eq.trans hc)) ht' after).2
  rwa [← List.append_cons] at hsteps

/-! ### After every run -/

open Classical in
/-- Whether what was sent as number `i` was superseded in a run. -/
noncomputable def belated (s : Session) (events : List Event) (i : Nat) : Bool :=
  decide (∃ r, (s.steps events).sent[i]? = some r ∧ Superseded s events r.token)

theorem belated_of_superseded {i : Nat} {r : Sent} (hr : (s.steps events).sent[i]? = some r)
    (hs : Superseded s events r.token) : belated s events i := by
  classical
  exact decide_eq_true ⟨r, hr, hs⟩

/-- Of both sessions the same is seen: the trees with what their lines stand for, the buffers, the
notifications, and the requests that were sent. -/
structure SameView (s t : Session) : Prop where
  registry : s.registry = t.registry
  buffers : s.buffers = t.buffers
  notes : s.journal.notes = t.journal.notes
  sent : s.sent.map (fun r => (r.token, r.isLookup, r.request)) =
    t.sent.map fun r => (r.token, r.isLookup, r.request)

theorem Alike.sameView (h : s.Alike dead t) : SameView s t := by
  refine ⟨h.registry, h.buffers, h.notes, ?_⟩
  have he : (fun r : Sent => (r.token, r.isLookup, r.request)) =
      (fun r => (r.token, r.isLookup, r.request)) ∘ Sent.seen dead := rfl
  rw [he, ← List.map_map, ← List.map_map, h.sent]

/-- How what was superseded in the run of `events` from `s` is without effect from then on. -/
structure Silence (s : Session) (events : List Event) : Prop where
  /-- Nobody waits for it any more. -/
  ended : ∀ inquiry, Lapsed s events inquiry → (s.steps events).Ended inquiry.token
  /-- Two runs that go on with the same events, but for the outcomes of what was superseded, have
  the same view, and answer the same to these events. What has arrived or arrives for lookups is
  taken to be such that it can be read. -/
  same : ∀ es fs,
    (∀ l value, Superseded s events l → .lookup l (.answer value) ∈ (s.steps events).arrivals →
      (s.steps events).CanRead l value) →
    Legible (Superseded s events) (s.steps events) es →
    Legible (Superseded s events) (s.steps events) fs →
    es.filter (Event.isTimely (belated s events)) = fs.filter (Event.isTimely (belated s events)) →
      SameView (s.steps (events ++ es)) (s.steps (events ++ fs)) ∧
        answers (belated s events) (s.steps events) es =
          answers (belated s events) (s.steps events) fs
  /-- A node that was collapsed while it waited for request `k` has children from a newer request
  at most. -/
  renewed : ∀ before after id ref k n d, events = before ++ .collapse id ref :: after →
    (s.steps before).Member id ref → ((s.steps before).node ref).depth ≠ 0 →
      ((s.steps before).node ref).pending = some k →
        (s.steps events).Occurs id ref.place.path n →
          ((s.steps events).tree id).direction = .calls d →
          n.children ≠ [] → ∃ j, k < j ∧ Sourced s events d n j

theorem Sound.silent (h : s.Sound) (es fs : List Event)
    (hq : ∀ l value, Superseded s events l → .lookup l (.answer value) ∈ (s.steps events).arrivals →
      (s.steps events).CanRead l value)
    (hes : Legible (Superseded s events) (s.steps events) es)
    (hfs : Legible (Superseded s events) (s.steps events) fs)
    (he : es.filter (Event.isTimely (belated s events)) =
      fs.filter (Event.isTimely (belated s events))) :
    SameView (s.steps (events ++ es)) (s.steps (events ++ fs)) ∧
      answers (belated s events) (s.steps events) es =
        answers (belated s events) (s.steps events) fs := by
  classical
  have hdead (k : Token) : decide (Superseded s events k) ↔ Superseded s events k :=
    decide_eq_true_iff
  have hquiet := quiet_superseded h hdead hq
  have hn : Numbered (fun k => decide (Superseded s events k)) (belated s events)
      (s.steps events) := by
    refine ⟨?_, ?_⟩
    · intro i hi
      obtain ⟨r, hr, -⟩ := of_decide_eq_true hi
      exact (List.getElem?_eq_some_iff.1 hr).1
    · intro i r hr
      rw [belated, Bool.eq_iff_iff, decide_eq_true_iff, decide_eq_true_iff, hr]
      simp
  have hin : InStep _ _ (s.steps events) (s.steps events) :=
    ⟨⟨h.steps events, h.steps events, hquiet, hquiet, .refl _⟩, hn, hn⟩
  obtain ⟨hend, hanswers⟩ := hin.steps (merged_of_filter_eq he)
    (fun before i value after r hr hs hl hg => hes before i value after r hr hs hl ((hdead _).1 hg))
    (fun before i value after r hr hs hl hg => hfs before i value after r hr hs hl ((hdead _).1 hg))
  rw [steps_append, steps_append]
  exact ⟨hend.twins.alike.sameView, hanswers⟩

/-- **Superseded requests are silent.** However a run goes on, no outcome of a request that was
superseded before, or of one of its lookups, makes a difference to what is seen, and a node that was
collapsed and expanded again has its children from the newer request. -/
theorem silence_steps (client : Client) (settings : Settings) (root : Path) (now : Number)
    (events : List Event) : Silence (start client settings root now) events where
  ended inquiry hl := hl.ended (sound_start ..)
  same es fs hq hes hfs he := (sound_start ..).silent es fs hq hes hfs he
  renewed before after id ref k n d he hm hdepth hw ho hd hc := by
    subst he
    have ht := newer_of_collapse client settings root now rfl hm hdepth hw after
    obtain ⟨j, hj, hf⟩ := ht.children id ref.place.path n d ho hd hc
    exact ⟨j, hj rfl rfl, hf.sourced⟩

/-- A caller is expanded. -/
def expandedRun : List Event := answeredRun ++ [.expand 0 ⟨0, 0, [0]⟩]

/-- It is collapsed again before its own callers are known. -/
def collapsedRun : List Event := expandedRun ++ [.collapse 0 ⟨0, 0, [0]⟩]

theorem superseded_collapsedRun : Superseded freshSession collapsedRun 2 := by
  have hpending : ((freshSession.steps expandedRun).pending.get? 2).map Inquiry.purpose =
      some (.expand 0 ⟨0, 0, [0]⟩ 0 .incoming) := by decide +kernel
  have hm : (freshSession.steps expandedRun).Member 0 ⟨0, 0, [0]⟩ :=
    ⟨by decide +kernel, rfl, by decide +kernel⟩
  have hdepth : ((freshSession.steps expandedRun).node ⟨0, 0, [0]⟩).depth ≠ 0 := by decide +kernel
  obtain ⟨inquiry, hi, hp⟩ := Option.map_eq_some_iff.1 hpending
  exact superseded_of_collapse (sound_start ..) hi hp hm hdepth []

/-- Whether its callers are found after all or not is not seen. -/
theorem silence_collapsedRun :
    SameView (freshSession.steps (collapsedRun ++ [.settle 1 (.answer (.arr [.obj []])), .pump]))
      (freshSession.steps (collapsedRun ++ [.settle 1 (.failure "no"), .pump])) := by
  have hs : Silence freshSession collapsedRun := silence_steps .server _ _ _ collapsedRun
  have hsent : ((freshSession.steps collapsedRun).sent[1]?).map (fun r => (r.token, r.isLookup)) =
      some (2, false) := by decide +kernel
  have hnone : (freshSession.steps collapsedRun).arrivals.isEmpty := by decide +kernel
  obtain ⟨r, hr, he⟩ := Option.map_eq_some_iff.1 hsent
  obtain ⟨htoken, hlookup⟩ := Prod.mk.inj he
  have hlate : belated freshSession collapsedRun 1 :=
    belated_of_superseded hr (htoken ▸ superseded_collapsedRun)
  refine (hs.same _ _ (fun l value _ ha => ?_) (legible_cons ?_ (legible_cons ?_ legible_nil))
    (legible_cons ?_ (legible_cons ?_ legible_nil)) ?_).1
  · rw [List.isEmpty_iff.1 hnone] at ha
    cases ha
  · rintro i value x hx hsx hl -
    obtain ⟨rfl, -⟩ := Event.settle.inj hx
    rw [← Option.some.inj (hr.symm.trans hsx), hlookup] at hl
    cases hl
  · exact fun _ _ _ hx => by cases hx
  · exact fun _ _ _ hx => by cases hx
  · exact fun _ _ _ hx => by cases hx
  · simp [Event.isTimely, hlate]

end Session

end SymbolTrees
