import SymbolTrees.Proofs.Session.Rules

/-!
# Superseded requests

A request for the nodes below a node is superseded when the node is collapsed, or when its tree is
closed or turned round. From then on nobody waits for the request or for one of its lookups,
whatever happens (`Lapsed.ended`).
-/

namespace SymbolTrees

namespace Session

variable {s t u : Session} {id : TreeId} {ref node : NodeRef} {k l : Token} {inquiry : Inquiry}
  {generation : Nat} {direction : CallDirection} {event : Event}

/-! ### Later states -/

/-- How the tables of a session go on: what is old in `t` was there in `s`. -/
structure Later (s t : Session) : Prop where
  nextToken : s.nextToken ≤ t.nextToken
  /-- A request that is not new is for what it was for, and nobody waits for it who did not. -/
  pending : ∀ k new, k < s.nextToken → t.pending.get? k = some new →
    ∃ old, s.pending.get? k = some old ∧ new.purpose = old.purpose ∧ (t.isLive new → s.isLive old)
  /-- A lookup that is new is for a request that is new or that somebody waited for. -/
  lookups : ∀ l parent index, t.lookups.get? l = some (parent, index) →
    s.lookups.get? l = some (parent, index) ∨ s.nextToken ≤ l ∧
      (s.nextToken ≤ parent ∨ ∃ inquiry, s.pending.get? parent = some inquiry ∧ s.isLive inquiry)

namespace Later

theorem refl (s : Session) : Later s s :=
  ⟨Int.le_refl _, fun _ new _ hi => ⟨new, hi, rfl, id⟩, fun _ _ _ hl => .inl hl⟩

theorem trans (h : Later s t) (h' : Later t u) : Later s u := by
  refine ⟨Int.le_trans h.nextToken h'.nextToken, ?_, ?_⟩
  · intro k new hk hi
    obtain ⟨mid, hmid, hp, hlive⟩ := h'.pending k new (Int.lt_of_lt_of_le hk h.nextToken) hi
    obtain ⟨old, hold, hp', hlive'⟩ := h.pending k mid hk hmid
    exact ⟨old, hold, hp.trans hp', fun hl => hlive' (hlive hl)⟩
  · intro l parent index hl
    rcases h'.lookups l parent index hl with hl | ⟨hl, hparent⟩
    · exact h.lookups l parent index hl
    refine .inr ⟨Int.le_trans h.nextToken hl, ?_⟩
    rcases hparent with hle | ⟨mid, hmid, hlive⟩
    · exact .inl (Int.le_trans h.nextToken hle)
    · by_cases hk : parent < s.nextToken
      · obtain ⟨old, hold, -, hlive'⟩ := h.pending parent mid hk hmid
        exact .inr ⟨old, hold, hlive' hlive⟩
      · exact .inl (Int.not_lt.1 hk)

theorem of_move (h : s.Sound) (hm : Move s t) : Later s t := by
  refine ⟨hm.nextToken_le, ?_, ?_⟩
  · intro k new hk hi
    obtain ⟨old, hold, hp, -⟩ := hm.pending_cases (Int.ne_of_lt hk) hi
    refine ⟨old, hold, hp, ?_⟩
    intro hlive
    cases ho : old.purpose with
    | expand id ref generation direction =>
      exact h.isLive_of_move hm hold hi ho (hp.trans ho) hlive
    | _ => simp only [isLive, ho]
  · intro l parent index hl
    rcases hm.lookups_cases hl with hl | ⟨rfl, inquiry, hi, hlive⟩
    · exact .inl hl
    · exact .inr ⟨Int.le_refl _, .inr ⟨inquiry, hi, hlive⟩⟩

theorem of_moves (h : s.Sound) (hm : Moves s t) : Later s t := by
  induction hm with
  | refl => exact .refl s
  | tail hm hmove ih => exact ih.trans (.of_move (h.moves hm) hmove)

theorem of_step (h : s.Sound) (event : Event) : Later s (s.step event) := by
  rcases h.step_cases event with hm | ⟨i, outcome, request, -, -, -, he⟩ | ⟨now, -, he⟩
  · exact .of_moves h hm
  · rw [he]
    exact ⟨Int.le_refl _, fun _ new _ hi => ⟨new, hi, rfl, id⟩, fun _ _ _ hl => .inl hl⟩
  · rw [he]
    exact ⟨Int.le_refl _, fun _ new _ hi => ⟨new, hi, rfl, id⟩, fun _ _ _ hl => .inl hl⟩

theorem of_steps (h : s.Sound) (events : List Event) : Later s (s.steps events) := by
  induction events generalizing s with
  | nil => exact .refl s
  | cons event events ih => exact (of_step h event).trans (ih (h.step event))

/-- A lookup that is not new is for what it was for. -/
theorem get?_lookups (h : Later s t) {target : Token × Nat} (hk : l < s.nextToken)
    (hl : t.lookups.get? l = some target) : s.lookups.get? l = some target :=
  (h.lookups l target.1 target.2 hl).resolve_right fun hn => absurd hk (Int.not_lt.2 hn.1)

end Later

/-- Nobody waits for the request. -/
def Ended (s : Session) (k : Token) : Prop :=
  ∀ inquiry, s.pending.get? k = some inquiry → s.isLive inquiry = false

theorem Ended.later (ho : s.Ended k) (hk : k < s.nextToken) (hl : Later s t) : t.Ended k := by
  intro new hi
  obtain ⟨old, hold, -, hlive⟩ := hl.pending k new hk hi
  by_contra hn
  have hf := ho old hold
  rw [hlive (by simpa using hn)] at hf
  cases hf

/-- No lookup for a request is new that nobody waits for. -/
theorem Ended.lookups (ho : s.Ended k) (hk : k < s.nextToken) (hl : Later s t) {index : Nat}
    (hi : t.lookups.get? l = some (k, index)) : s.lookups.get? l = some (k, index) := by
  apply (hl.lookups l k index hi).resolve_right
  rintro ⟨-, hle | ⟨inquiry, hp, hlive⟩⟩
  · exact absurd hk (Int.not_lt.2 hle)
  · rw [ho inquiry hp] at hlive
    cases hlive

/-! ### What supersedes a request -/

/-- The event takes the place away that a request is for: the node is collapsed, or its tree is
closed or turned round. -/
def Event.Supersedes (s : Session) (id : TreeId) (ref : NodeRef) : Event → Prop
  | .collapse other node => other = id ∧ s.Member id node ∧ node.place.path = ref.place.path ∧
    (s.node node).depth ≠ 0
  | .close handle => s.registry.slots.get? handle = some id
  | .switchDirection other => other = id ∧ s.isOpen id ∧ (s.tree id).isCallTree
  | _ => False

/-- What holds wherever an action ends holds after it. -/
theorem after_of_ends {α : Type} {x : SessionM α} {P : Session → Prop}
    (h : x.Ends s (fun _ t => P t) fun _ t => P t) : P (x.after s) :=
  Action.Ends.told (P := fun _ => P) h

/-- What is done in lockstep goes by moves. -/
theorem Lock.moves {α : Type} {dead : Token → Bool} {x y : SessionM α}
    {Q : α → Session → Session → Prop} (h : Lock dead x y s t Q) :
    x.Ends s (fun _ s' => Moves s s') fun _ s' => Moves s s' := by
  unfold Lock Action.Pair at h
  unfold Action.Ends
  cases hx : x s <;> cases hy : y t <;> rw [hx, hy] at h
  · exact h.2.1.left
  · exact h.elim
  · exact h.elim
  · exact h.2.left

/-- First the request of the node is given up. -/
theorem moves_collapse (h : s.Sound) (hm : s.Member id ref) (hd : (s.node ref).depth ≠ 0) :
    Moves (s.givenUp ref) (s.step (.collapse id ref)) := by
  have hmove : Move (s.givenUp ref) ((s.givenUp ref).unfolded ref false) :=
    .unfold (member_givenUp h hm) fun he => by cases he
  have hdrawn := (lock_render (twins_self ((h.givenUp hm).move hmove)) id).moves
  refine after_of_ends (.bind ?_)
  refine ends_collapse h (fun hn => absurd hm hn) (fun _ h0 => absurd h0 hd) (fun _ _ => .pure .refl)
    fun _ => hdrawn.mono (fun _ _ ht => .pure (.head hmove ht)) fun _ _ ht => .head hmove ht

/-- First the tree is turned round. -/
theorem moves_switchDirection (h : s.Sound) (ho : s.isOpen id)
    (hd : (s.tree id).direction = .calls direction) :
    Move (s.givenUp (s.rootOf id)) (s.turnedRound id direction) ∧
      Moves (s.turnedRound id direction) (s.step (.switchDirection id)) := by
  have htree := tree_givenUp_root h ho
  have hmove : Move (s.givenUp (s.rootOf id)) (s.turnedRound id direction) :=
    .turn (member_givenUp h (member_rootOf ho)).isOpen (by rw [htree]; exact hd) (by rw [htree])
  have hroot : (s.turnedRound id direction).Member id _ := member_rootOf (isOpen_turnedRound h ho)
  have h' := twins_self ((h.givenUp (member_rootOf ho)).move hmove)
  have hrest := Lock.bind h' (lock_askChildren h' hroot) fun token _ _ h _ =>
    Lock.bind h (lock_render h id) fun _ _ _ h _ => Lock.pure (a := token) (Q := Anyhow) h trivial
  refine ⟨hmove, after_of_ends (.bind ?_)⟩
  refine ends_switchDirection h (fun hn => absurd ho hn) (fun hn => ?_) fun other _ hother => ?_
  · rw [hd] at hn
    cases hn
  · obtain rfl := Direction.calls.inj (hd.symm.trans hother)
    exact hrest.moves.mono (fun _ _ ht => .pure ht) fun _ _ ht => ht

/-! ### What is left of a superseded request -/

/-- What is left once the place of the request `k` was taken away, before anything else is done. -/
structure Taken (s t : Session) (k : Token) : Prop where
  sound : t.Sound
  nextToken : t.nextToken = s.nextToken
  lookups : ∀ l target, t.lookups.get? l = some target → s.lookups.get? l = some target
  ended : t.Ended k

theorem lookups_givenUp {target : Token × Nat} (hl : (s.givenUp ref).lookups.get? l = some target) :
    s.lookups.get? l = some target := by
  unfold givenUp at hl
  split at hl
  · exact hl
  · exact (of_get?_dropped hl).2

theorem nextToken_givenUp : (s.givenUp ref).nextToken = s.nextToken := by
  unfold givenUp
  split <;> rfl

section Taken

variable (h : s.Sound) (hi : s.pending.get? k = some inquiry)
  (hp : inquiry.purpose = .expand id ref generation direction)
include h hi hp

/-- The node of the request is collapsed. -/
theorem taken_givenUp (hm : s.Member id node) (hpath : node.place.path = ref.place.path) :
    Taken s (s.givenUp node) k := by
  refine ⟨h.givenUp hm, nextToken_givenUp, fun l target hl => lookups_givenUp hl, ?_⟩
  by_cases hlive : s.isLive inquiry
  · obtain ⟨hmr, hw, -⟩ := h.live hi hp hlive
    have hn : s.node node = s.node ref := by
      have ho := hm.occurs h
      rw [hpath] at ho
      exact Option.some.inj (ho.found.symm.trans (hmr.occurs h).found)
    have hq : s.inquiryOf node = some inquiry := by
      rw [inquiryOf, hn, hw]
      exact hi
    intro other ho
    unfold givenUp at ho
    rw [hq] at ho
    exact absurd (h.waiting.own k inquiry hi).1 (Table.of_get?_erase ho).1
  · have hs : s.Ended k := fun other ho => by
      obtain rfl := Option.some.inj (hi.symm.trans ho)
      simpa using hlive
    exact hs.later (h.waiting.own k inquiry hi).2 (.of_move h (.giveUp hm))

/-- The tree of the request is closed. -/
theorem taken_close {handle : Int} (slot : s.registry.slots.get? handle = some id) :
    Taken s (s.step (.close handle)) k := by
  have hv := h.step (.close handle)
  obtain ⟨kind, hk⟩ := (h.grown id).known
  have he : s.step (.close handle) = { s with
      registry := s.registry.without handle id kind
      buffers := s.buffers.discard handle
      journal := s.journal.write .debug s!"closed {kind.text} tree {handle}" } := by
    refine after_of_ends (P := fun t => t = _) ?_
    unfold Event.act
    refine .bind ((ends_close slot hk).mono ?_ fun _ _ h => h.elim)
    rintro _ _ ⟨-, he⟩
    exact .pure he
  rw [he] at hv ⊢
  refine ⟨hv, rfl, fun l target hl => hl, ?_⟩
  intro other ho
  obtain rfl := Option.some.inj (hi.symm.trans ho)
  by_contra hlive
  obtain ⟨hopen, -⟩ := (hv.isLive_iff ho hp).1 (by simpa using hlive)
  exact ((h.registry.isOpen_without slot kind).1 hopen).2 rfl

/-- The tree of the request is turned round. -/
theorem taken_turnedRound {d : CallDirection} (ho : s.isOpen id)
    (hd : (s.tree id).direction = .calls d) : Taken s (s.turnedRound id d) k := by
  have hm := member_rootOf ho
  obtain ⟨hturn, -⟩ := moves_switchDirection h ho hd
  have hv := (h.givenUp hm).move hturn
  refine ⟨hv, nextToken_givenUp, fun l target hl => lookups_givenUp hl, ?_⟩
  intro other hother
  have hlater := (Later.of_move h (.giveUp hm)).trans (.of_move (h.givenUp hm) hturn)
  obtain ⟨old, hold, hpo, -⟩ := hlater.pending k other (h.waiting.own k inquiry hi).2 hother
  obtain rfl := Option.some.inj (hi.symm.trans hold)
  by_contra hlive
  obtain ⟨-, hg⟩ := (hv.isLive_iff hother (hpo.trans hp)).1 (by simpa using hlive)
  rw [tree_turnedRound h ho, Tree.generation_turned] at hg
  have hpast : generation ≤ (s.tree id).generation := (h.bound hi hp).2.past
  have hsame : ({ s.tree id with root := { (s.tree id).root with pending := none } } :
    Tree).generation = (s.tree id).generation := rfl
  omega

/-- An event that supersedes a request takes its place away first. -/
theorem Event.Supersedes.taken (he : event.Supersedes s id ref) :
    ∃ t, Taken s t k ∧ Moves t (s.step event) := by
  cases event with
  | collapse other node =>
    obtain ⟨rfl, hm, hpath, hd⟩ := he
    exact ⟨_, taken_givenUp h hi hp hm hpath, moves_collapse h hm hd⟩
  | close handle => exact ⟨_, taken_close h hi hp he, .refl⟩
  | switchDirection other =>
    obtain ⟨rfl, ho, hc⟩ := he
    obtain ⟨d, hd⟩ := Option.isSome_iff_exists.1 hc
    have hd := Direction.eq_of_calls? hd
    exact ⟨_, taken_turnedRound h hi hp ho hd, (moves_switchDirection h ho hd).2⟩
  | _ => exact he.elim

end Taken

/-! ### Superseded in a run -/

/-- The request was superseded in a run: when it was under way, an event took its place away. -/
def Lapsed (s : Session) (events : List Event) (inquiry : Inquiry) : Prop :=
  ∃ before event after id ref generation direction, events = before ++ event :: after ∧
    (s.steps before).pending.get? inquiry.token = some inquiry ∧
      inquiry.purpose = .expand id ref generation direction ∧
        event.Supersedes (s.steps before) id ref

/-- `k` is the number of a request that was superseded in a run, or of one of the lookups that were
then under way for it. -/
def Superseded (s : Session) (events : List Event) (k : Token) : Prop :=
  ∃ inquiry, Lapsed s events inquiry ∧ (k = inquiry.token ∨ k ∈ inquiry.lookups)

/-- A request is superseded when its node is collapsed. -/
theorem superseded_of_collapse (h : s.Sound) {before : List Event}
    (hi : (s.steps before).pending.get? k = some inquiry)
    (hp : inquiry.purpose = .expand id ref generation direction)
    (hm : (s.steps before).Member id ref)
    (hd : ((s.steps before).node ref).depth ≠ 0) (after : List Event) :
    Superseded s (before ++ .collapse id ref :: after) k := by
  obtain ⟨rfl, -⟩ := (h.steps before).waiting.own k inquiry hi
  exact ⟨inquiry, ⟨before, .collapse id ref, after, id, ref, generation, direction, rfl, hi, hp,
    rfl, hm, rfl, hd⟩, .inl rfl⟩

namespace Lapsed

variable {events : List Event} (h : s.Sound) (hl : Lapsed s events inquiry)
include h hl

/-- The sessions before the request was superseded and just when its place was taken away. -/
theorem history : ∃ u w id ref generation direction, u.Sound ∧
    u.pending.get? inquiry.token = some inquiry ∧
      inquiry.purpose = .expand id ref generation direction ∧ Later u (s.steps events) ∧
        Taken u w inquiry.token ∧ Later w (s.steps events) := by
  obtain ⟨before, event, after, id, ref, generation, direction, rfl, hi, hp, he⟩ := hl
  have hu := h.steps before
  obtain ⟨w, htaken, hmoves⟩ := he.taken hu hi hp
  rw [steps_append, steps_cons]
  have hv := Later.of_steps (hu.step event) after
  exact ⟨_, w, id, ref, generation, direction, hu, hi, hp, (Later.of_step hu event).trans hv,
    htaken, (Later.of_moves htaken.sound hmoves).trans hv⟩

theorem lt : inquiry.token < (s.steps events).nextToken := by
  obtain ⟨u, w, -, -, -, -, hu, hi, -, hlater, -⟩ := history h hl
  exact Int.lt_of_lt_of_le (hu.waiting.own _ _ hi).2 hlater.nextToken

/-- **Nobody waits for a superseded request**, whatever happens after it was superseded. -/
theorem ended : (s.steps events).Ended inquiry.token := by
  obtain ⟨u, w, -, -, -, -, hu, hi, -, -, htaken, hlater⟩ := history h hl
  exact htaken.ended.later (htaken.nextToken ▸ (hu.waiting.own _ _ hi).2) hlater

theorem purpose {new : Inquiry} (hi : (s.steps events).pending.get? inquiry.token = some new) :
    ∃ id ref generation direction, new.purpose = .expand id ref generation direction := by
  obtain ⟨u, w, id, ref, generation, direction, hu, hu', hp, hlater, -⟩ := history h hl
  obtain ⟨old, hold, hpo, -⟩ := hlater.pending _ new (hu.waiting.own _ _ hu').2 hi
  obtain rfl := Option.some.inj (hu'.symm.trans hold)
  exact ⟨id, ref, generation, direction, hpo.trans hp⟩

/-- Its number is that of no lookup. -/
theorem not_lookup (target : Token × Nat) :
    (s.steps events).lookups.get? inquiry.token ≠ some target := by
  obtain ⟨u, w, -, -, -, -, hu, hi, -, hlater, -⟩ := history h hl
  intro ht
  have ht' := hlater.get?_lookups (hu.waiting.own _ _ hi).2 ht
  rw [(hu.looking.known _ target.1 target.2 ht').2.1] at hi
  cases hi

/-- The lookups that are still kept for it are those that were under way when it was superseded. -/
theorem lookups {parent : Token} {index : Nat}
    (ht : (s.steps events).lookups.get? l = some (parent, index)) :
    l ∈ inquiry.lookups ↔ parent = inquiry.token := by
  obtain ⟨u, w, -, -, -, -, hu, hi, -, hlater, htaken, hlater'⟩ := history h hl
  constructor
  · intro hm
    obtain ⟨i, hli⟩ := hu.looking.listed _ inquiry hi l hm
    have ht' := hlater.get?_lookups (hu.looking.known _ _ _ hli).1 ht
    exact (Prod.mk.inj (Option.some.inj (ht'.symm.trans hli))).1
  · rintro rfl
    have hlt : inquiry.token < w.nextToken := htaken.nextToken ▸ (hu.waiting.own _ _ hi).2
    have ht' := htaken.lookups _ _ (htaken.ended.lookups hlt hlater' ht)
    obtain ⟨-, -, other, ho, hm, -⟩ := hu.looking.known _ _ _ ht'
    obtain rfl := Option.some.inj (hi.symm.trans ho)
    exact hm

theorem lt_lookup (hm : l ∈ inquiry.lookups) : l < (s.steps events).nextToken := by
  obtain ⟨u, w, -, -, -, -, hu, hi, -, hlater, -⟩ := history h hl
  obtain ⟨i, hli⟩ := hu.looking.listed _ inquiry hi l hm
  exact Int.lt_of_lt_of_le (hu.looking.known _ _ _ hli).1 hlater.nextToken

/-- The number of a lookup is that of no request. -/
theorem not_pending (hm : l ∈ inquiry.lookups) (new : Inquiry) :
    (s.steps events).pending.get? l ≠ some new := by
  obtain ⟨u, w, -, -, -, -, hu, hi, -, hlater, -⟩ := history h hl
  obtain ⟨i, hli⟩ := hu.looking.listed _ inquiry hi l hm
  obtain ⟨hlt, hnone, -⟩ := hu.looking.known _ _ _ hli
  intro hn
  obtain ⟨old, hold, -⟩ := hlater.pending _ new hlt hn
  rw [hnone] at hold
  cases hold

end Lapsed

/-- **What was superseded is without effect**, if what has arrived for its lookups can be read. -/
theorem quiet_superseded {dead : Token → Bool} {events : List Event} (h : s.Sound)
    (hdead : ∀ k, dead k ↔ Superseded s events k)
    (hr : ∀ l value, Superseded s events l → .lookup l (.answer value) ∈ (s.steps events).arrivals →
      (s.steps events).CanRead l value) : (s.steps events).Quiet dead where
  old k hk := by
    obtain ⟨inquiry, hl, rfl | hm⟩ := (hdead k).1 hk
    · exact hl.lt h
    · exact hl.lt_lookup h hm
  stale k new hk hi := by
    obtain ⟨inquiry, hl, rfl | hm⟩ := (hdead k).1 hk
    · exact ⟨hl.purpose h hi, hl.ended h new hi⟩
    · exact absurd hi (hl.not_pending h hm new)
  lookups l parent index ht := by
    rw [Bool.eq_iff_iff, hdead, hdead]
    constructor
    · rintro ⟨inquiry, hl, rfl | hm⟩
      · exact absurd ht (hl.not_lookup h _)
      · exact ⟨inquiry, hl, .inl ((hl.lookups h ht).1 hm)⟩
    · rintro ⟨inquiry, hl, rfl | hm⟩
      · exact ⟨inquiry, hl, .inr ((hl.lookups h ht).2 rfl)⟩
      · obtain ⟨-, -, new, hi, -⟩ := (h.steps events).looking.known l parent index ht
        exact absurd hi (hl.not_pending h hm new)
  readable l value ha hk := hr l value ((hdead l).1 hk) ha

end Session

end SymbolTrees
