import SymbolTrees.Proofs.Session.Change

/-!
# Sessions that look alike

A session can hold requests that nobody waits for any more. What is seen of it without them is
`seen`; sessions of which the same is seen are alike. The requests that are left out stay without
effect through all moves, as long as their lookups are answered by something that can be read
(`Quiet.move`).
-/

namespace SymbolTrees

open SymbolTrees.Server (Outcome)

/-- What is seen of a request that was sent: whether it is settled is of no interest if it is
left out. -/
def Sent.seen (dead : Token → Bool) (r : Sent) : Sent :=
  { r with isOpen := r.isOpen && !dead r.token }

namespace Session

variable {dead : Token → Bool} {s t u : Session}

/-- Two sessions differ at most in requests of `dead` and lookups of `dead`, and in the log. -/
structure Alike (dead : Token → Bool) (s t : Session) : Prop where
  settings : s.settings = t.settings
  style : s.style = t.style
  client : s.client = t.client
  now : s.now = t.now
  registry : s.registry = t.registry
  nextToken : s.nextToken = t.nextToken
  buffers : s.buffers = t.buffers
  notes : s.journal.notes = t.journal.notes
  pending : s.pending.filter (fun entry => !dead entry.1) =
    t.pending.filter fun entry => !dead entry.1
  lookups : s.lookups.filter (fun entry => !dead entry.1) =
    t.lookups.filter fun entry => !dead entry.1
  arrivals : s.arrivals.filter (fun arrival => !dead arrival.token) =
    t.arrivals.filter fun arrival => !dead arrival.token
  sent : s.sent.map (Sent.seen dead) = t.sent.map (Sent.seen dead)

/-! ### What alike sessions agree on -/

namespace Alike

theorem refl (s : Session) : s.Alike dead s :=
  ⟨rfl, rfl, rfl, rfl, rfl, rfl, rfl, rfl, rfl, rfl, rfl, rfl⟩

theorem symm (h : s.Alike dead t) : t.Alike dead s :=
  ⟨h.settings.symm, h.style.symm, h.client.symm, h.now.symm, h.registry.symm, h.nextToken.symm,
    h.buffers.symm, h.notes.symm, h.pending.symm, h.lookups.symm, h.arrivals.symm, h.sent.symm⟩

theorem trans (h : s.Alike dead t) (hu : t.Alike dead u) : s.Alike dead u :=
  ⟨h.settings.trans hu.settings, h.style.trans hu.style, h.client.trans hu.client,
    h.now.trans hu.now, h.registry.trans hu.registry, h.nextToken.trans hu.nextToken,
    h.buffers.trans hu.buffers, h.notes.trans hu.notes, h.pending.trans hu.pending,
    h.lookups.trans hu.lookups, h.arrivals.trans hu.arrivals, h.sent.trans hu.sent⟩

section Agree

variable (h : s.Alike dead t)
include h

theorem tree (id : TreeId) : s.tree id = t.tree id := congrArg (Registry.tree · id) h.registry
theorem node (ref : NodeRef) : s.node ref = t.node ref := congrArg (Registry.node · ref) h.registry
theorem isOpen (id : TreeId) : s.isOpen id = t.isOpen id :=
  congrArg (Registry.isOpen · id) h.registry

theorem rootOf (id : TreeId) : s.rootOf id = t.rootOf id := by
  rw [Session.rootOf, Session.rootOf, h.tree]

theorem isLive (inquiry : Inquiry) : s.isLive inquiry = t.isLive inquiry := by
  unfold Session.isLive
  cases inquiry.purpose with
  | expand id ref generation direction => simp only [h.isOpen, h.tree, h.node]
  | _ => rfl

theorem get?_pending {k : Token} (hk : dead k = false) : s.pending.get? k = t.pending.get? k := by
  have hf := congrArg (Table.get? · k) h.pending
  simpa only [Table.get?_filter _ _ fun k => !dead k, hk, Bool.not_false, if_true] using hf

theorem get?_lookups {k : Token} (hk : dead k = false) : s.lookups.get? k = t.lookups.get? k := by
  have hf := congrArg (Table.get? · k) h.lookups
  simpa only [Table.get?_filter _ _ fun k => !dead k, hk, Bool.not_false, if_true] using hf

/-- What was sent is the same, and unless it is left out, so is whether it is settled. -/
theorem sent_cases (i : Nat) : s.sent[i]? = none ∧ t.sent[i]? = none ∨
    ∃ a b, s.sent[i]? = some a ∧ t.sent[i]? = some b ∧ a.seen dead = b.seen dead := by
  have hi := congrArg (·[i]?) h.sent
  simp only [List.getElem?_map] at hi
  cases hs : s.sent[i]? with
  | none =>
    rw [hs, Option.map_none, eq_comm, Option.map_eq_none_iff] at hi
    exact .inl ⟨rfl, hi⟩
  | some a =>
    rw [hs, Option.map_some, eq_comm, Option.map_eq_some_iff] at hi
    obtain ⟨b, hb, he⟩ := hi
    exact .inr ⟨a, b, rfl, hb, he.symm⟩

/-! ### Changes on both sides -/

theorem withRegistry (r : Registry) :
    ({ s with registry := r } : Session).Alike dead { t with registry := r } :=
  { h with registry := rfl }

theorem pending_put {k : Token} (hk : dead k = false) (inquiry : Inquiry) :
    (s.pending.put k inquiry).filter (fun entry => !dead entry.1) =
      (t.pending.put k inquiry).filter fun entry => !dead entry.1 := by
  have hk' : !dead k := by rw [hk]; rfl
  rw [Table.filter_put _ _ (fun k => !dead k) inquiry hk',
    Table.filter_put _ _ (fun k => !dead k) inquiry hk', h.pending]

theorem lookups_put {k : Token} (hk : dead k = false) (target : Token × Nat) :
    (s.lookups.put k target).filter (fun entry => !dead entry.1) =
      (t.lookups.put k target).filter fun entry => !dead entry.1 := by
  have hk' : !dead k := by rw [hk]; rfl
  rw [Table.filter_put _ _ (fun k => !dead k) target hk',
    Table.filter_put _ _ (fun k => !dead k) target hk', h.lookups]

theorem lookups_erase (k : Token) : (s.lookups.erase k).filter (fun entry => !dead entry.1) =
    (t.lookups.erase k).filter fun entry => !dead entry.1 := by
  simp only [Table.erase]
  rw [List.filter_comm, h.lookups, List.filter_comm]

theorem updateNode (ref : NodeRef) (f : Node → Node) :
    ({ s with registry := s.registry.updateNode ref f } : Session).Alike dead
      { t with registry := t.registry.updateNode ref f } :=
  { h with registry := congrArg (Registry.updateNode · ref f) h.registry }

theorem awaiting (ref : NodeRef) : (s.awaiting ref).Alike dead (t.awaiting ref) := by
  rw [Session.awaiting, Session.awaiting, ← h.nextToken]
  exact { h with
    registry := congrArg (Registry.updateNode · ref _) h.registry
    nextToken := rfl }

theorem entered {token : Token} (hk : dead token = false) (purpose : Purpose) (deadline : Number) :
    (s.entered token purpose deadline).Alike dead (t.entered token purpose deadline) :=
  { h with pending := h.pending_put hk _ }

theorem posted (token : Token) (isLookup : Bool) (request : Server.Request) :
    (s.posted token isLookup request).Alike dead (t.posted token isLookup request) := by
  refine { h with
    arrivals := ?_
    sent := ?_ }
  · rw [Session.posted, Session.posted, List.filter_append, List.filter_append, h.arrivals,
      h.client]
  · rw [Session.posted, Session.posted, List.map_append, List.map_append, h.sent, h.client]

theorem released (ref : NodeRef) : (s.released ref).Alike dead (t.released ref) :=
  h.updateNode ref _

theorem dropped (inquiry : Inquiry) : (s.dropped inquiry).Alike dead (t.dropped inquiry) := by
  refine { h with
    pending := ?_
    lookups := ?_ }
  · simp only [Session.dropped, Table.erase]
    rw [List.filter_comm, h.pending, List.filter_comm]
  · simp only [Session.dropped]
    rw [List.filter_comm, h.lookups, List.filter_comm]

theorem unfolded (ref : NodeRef) (expanded : Bool) :
    (s.unfolded ref expanded).Alike dead (t.unfolded ref expanded) := h.updateNode ref _

theorem failed (inquiry : Inquiry) : (s.failed inquiry).Alike dead (t.failed inquiry) := by
  unfold Session.failed
  split
  · exact (h.dropped inquiry).released _
  · exact h.dropped inquiry

theorem grafted (inquiry : Inquiry) (ref : NodeRef) :
    (s.grafted inquiry ref).Alike dead (t.grafted inquiry ref) := by
  have hc : s.childrenOf inquiry ref = t.childrenOf inquiry ref := by
    rw [childrenOf, childrenOf, h.node]
  rw [Session.grafted, Session.grafted, hc]
  exact (h.dropped inquiry).updateNode ref _

theorem looking {parent : Token} (hp : dead parent = false) (hk : dead s.nextToken = false)
    (inquiry : Inquiry) (index : Nat) :
    (s.looking parent inquiry index).Alike dead (t.looking parent inquiry index) := by
  rw [Session.looking, Session.looking, ← h.nextToken]
  exact { h with
    nextToken := rfl
    lookups := h.lookups_put hk _
    pending := h.pending_put hp _ }

theorem arrived (i : Nat) {a b : Sent} (hab : a.seen dead = b.seen dead) (outcome : Outcome) :
    (s.arrived i a outcome).Alike dead (t.arrived i b outcome) := by
  obtain ⟨ht, hl, -⟩ := Sent.mk.inj hab
  refine { h with
    arrivals := ?_
    sent := ?_ }
  · rw [Session.arrived, Session.arrived, List.filter_append, List.filter_append, h.arrivals, ht,
      hl]
  · have hm (r : List Sent) : (r.modify i Sent.settled).map (Sent.seen dead) =
        (r.map (Sent.seen dead)).modify i Sent.settled := by
      refine List.ext_getElem? ?_
      intro j
      by_cases hj : i = j
      · simp [hj, Function.comp_def, Sent.seen, Sent.settled]
      · simp [hj]
    rw [Session.arrived, Session.arrived, hm, hm, h.sent]

end Agree

/-! ### Changes on one side -/

/-- That a request is forgotten is not seen if it is left out with its lookups. -/
theorem of_dropped {inquiry : Inquiry} (hk : dead inquiry.token)
    (hl : ∀ l ∈ inquiry.lookups, dead l) : s.Alike dead (s.dropped inquiry) := by
  refine { refl s with
    pending := ?_
    lookups := ?_ }
  · simp only [Session.dropped, Table.erase]
    rw [List.filter_filter]
    apply List.filter_congr
    intro entry _
    by_cases hd : dead entry.1
    · simp [hd]
    · have hne : entry.1 ≠ inquiry.token := fun he => hd (he ▸ hk)
      simp [hd, hne]
  · simp only [Session.dropped]
    rw [List.filter_filter]
    apply List.filter_congr
    intro entry _
    by_cases hd : dead entry.1
    · simp [hd]
    · have hne : entry.1 ∉ inquiry.lookups := fun hm => hd (hl _ hm)
      simp [hd, hne]

end Alike

/-! ### Requests without effect -/

/-- The answer of a lookup can be read for the call that it is for. -/
def CanRead (s : Session) (l : Token) (value : Json) : Prop :=
  ∀ parent index inquiry call, s.lookups.get? l = some (parent, index) →
    s.pending.get? parent = some inquiry → inquiry.calls[index]? = some call →
      ∃ symbol, LocatedSymbol.find? call.item value = .ok symbol

/-- The requests of `dead` are without effect: nobody waits for them any more, their lookups and no
others are of `dead` too, and what has arrived for those can be read. -/
structure Quiet (dead : Token → Bool) (s : Session) : Prop where
  old : ∀ k, dead k → k < s.nextToken
  stale : ∀ k inquiry, dead k → s.pending.get? k = some inquiry →
    (∃ id ref generation direction, inquiry.purpose = .expand id ref generation direction) ∧
      s.isLive inquiry = false
  lookups : ∀ l parent index, s.lookups.get? l = some (parent, index) → dead l = dead parent
  readable : ∀ l value, .lookup l (.answer value) ∈ s.arrivals → dead l → s.CanRead l value

theorem quiet_none (s : Session) : s.Quiet fun _ => false :=
  ⟨fun _ h => (by cases h), fun _ _ h => (by cases h), fun _ _ _ _ => rfl,
    fun _ _ _ h => by cases h⟩

namespace Quiet

theorem nextToken (hq : s.Quiet dead) : dead s.nextToken = false := by
  by_contra hd
  exact Int.lt_irrefl _ (hq.old _ (by simpa using hd))

theorem of_isLive (hq : s.Quiet dead) {k : Token} {inquiry : Inquiry}
    (hi : s.pending.get? k = some inquiry) (hl : s.isLive inquiry) : dead k = false := by
  by_contra hd
  have hs := (hq.stale k inquiry (by simpa using hd) hi).2
  rw [hl] at hs
  cases hs

/-- **What is without effect stays so through every move.** -/
theorem move (hq : s.Quiet dead) (h : s.Sound) (hm : Move s t) : t.Quiet dead := by
  have fresh {k : Token} (hd : dead k) : k ≠ s.nextToken := Int.ne_of_lt (hq.old k hd)
  refine ⟨fun k hd => Int.lt_of_lt_of_le (hq.old k hd) hm.nextToken_le, ?_, ?_, ?_⟩
  · intro k inquiry hd hi
    obtain ⟨old, ho, hp, -⟩ := hm.pending_cases (fresh hd) hi
    obtain ⟨⟨id, ref, generation, direction, hpo⟩, hs⟩ := hq.stale k old hd ho
    refine ⟨⟨id, ref, generation, direction, hp.trans hpo⟩, ?_⟩
    by_contra hl
    rw [h.isLive_of_move hm ho hi hpo (hp.trans hpo) (by simpa using hl)] at hs
    cases hs
  · intro l parent index hl
    rcases hm.lookups_cases hl with hl | ⟨rfl, inquiry, hi, hlive⟩
    · exact hq.lookups l parent index hl
    · rw [hq.nextToken, hq.of_isLive hi hlive]
  · intro l value ha hd parent index inquiry call hl hi hc
    have hl' := (hm.lookups_cases hl).resolve_right fun hn => fresh hd hn.1
    have hdp : dead parent := hq.lookups l parent index hl' ▸ hd
    obtain ⟨old, ho, -, hcalls⟩ := hm.pending_cases (fresh hdp) hi
    have hsame : inquiry.calls = old.calls := by
      apply hcalls.resolve_right
      intro hlive
      rw [hq.of_isLive ho hlive] at hdp
      cases hdp
    rcases hm.arrivals_cases ha with ha | ⟨isLookup, request, -, ha⟩
    · exact hq.readable l value ha hd parent index old call hl' ho (hsame ▸ hc)
    · exact absurd (Client.token_of_prompt ha) (fresh hd)

theorem moves (hq : s.Quiet dead) (h : s.Sound) (hm : Moves s t) : t.Quiet dead := by
  induction hm with
  | refl => exact hq
  | tail hms hmove ih => exact ih.move (h.moves hms) hmove

/-- The outcome of a request arrives, which can be read if it is for a lookup without effect. -/
theorem arrived (hq : s.Quiet dead) {i : Nat} {request : Sent} {outcome : Outcome}
    (hr : request.isLookup → dead request.token → ∀ value, outcome = .answer value →
      s.CanRead request.token value) : (s.arrived i request outcome).Quiet dead := by
  refine ⟨hq.old, hq.stale, hq.lookups, ?_⟩
  intro l value ha hd
  rcases List.mem_append.1 ha with ha | ha
  · exact hq.readable l value ha hd
  · cases hl : request.isLookup with
    | false =>
      rw [hl, List.mem_singleton] at ha
      cases ha
    | true =>
      rw [hl, List.mem_singleton] at ha
      obtain ⟨rfl, ho⟩ := Arrival.lookup.inj ha
      exact hr hl hd value ho.symm

end Quiet

end Session

end SymbolTrees
