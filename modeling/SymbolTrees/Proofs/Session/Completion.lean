import SymbolTrees.Proofs.Session.Lockstep
import SymbolTrees.Session.Resolution

/-!
# What arrives, in lockstep

What arrives is applied in lockstep to sessions that look alike; what arrives for requests that are
left out is applied on one side only, ends without a result and is not seen.
-/

namespace SymbolTrees.Session

open SymbolTrees.Server (Outcome)

variable {dead : Token → Bool} {s t s' t' : Session} {inquiry : Inquiry} {α : Type}

/-! ### The end of a request -/

theorem isLive_dropped (s : Session) (other : Inquiry) :
    (s.dropped other).isLive inquiry = s.isLive inquiry := rfl

/-- A request is forgotten with its lookups before anything else is done about its end. -/
theorem ends_forget {k : Unit → SessionM α} {Q : α → Session → Prop} {E : Fault → Session → Prop}
    (h : (k ()).Ends (s.dropped inquiry) Q E) :
    (remove inquiry >>= fun _ => dropLookups inquiry >>= k).Ends s Q E :=
  .bind (.modify (.bind (.modify h)))

theorem ends_fail_of_dead (hl : s.isLive inquiry = false) (reason : Failure) :
    (fail inquiry reason).Ends s (fun results s' => results = [] ∧ s' = s.dropped inquiry)
      fun _ _ => False := by
  unfold fail
  refine ends_forget (.bind (.get ?_))
  rw [isLive_dropped, hl]
  exact .pure ⟨rfl, rfl⟩

theorem ends_fail_of_live (hl : s.isLive inquiry) (reason : Failure) :
    (fail inquiry reason).Ends s (fun results s' => results = report inquiry (.failure reason) ∧
      s' = { s.failed inquiry with journal := s.journal.write .warning reason.message })
      fun _ _ => False := by
  unfold fail
  refine ends_forget (.bind (.get ?_))
  rw [isLive_dropped, hl]
  cases hp : inquiry.purpose with
  | expand id ref generation direction =>
    refine .bind (.modify (.bind (.modify (.pure ⟨rfl, ?_⟩))))
    rw [failed, hp]
    rfl
  | _ =>
    refine .bind (.modify (.pure ⟨rfl, ?_⟩))
    rw [failed, hp]
    rfl

theorem ends_graft_of_dead (hl : s.isLive inquiry = false) :
    (graft inquiry).Ends s (fun results s' => results = [] ∧
      ∃ journal : Journal, s' = { s.dropped inquiry with journal := journal } ∧
        journal.notes = s.journal.notes) fun _ _ => False := by
  unfold graft
  refine ends_forget (.bind (.get ?_))
  rw [isLive_dropped, hl]
  exact .bind (.modify (.pure ⟨rfl, _, rfl, rfl⟩))

theorem ends_graft_of_live {id : TreeId} {ref : NodeRef} {generation : Nat}
    {direction : CallDirection} (hl : s.isLive inquiry)
    (hp : inquiry.purpose = .expand id ref generation direction) :
    (graft inquiry).Ends s (fun results s' =>
      results = report inquiry (.children (s.childrenOf inquiry ref)) ∧ s' = s.grafted inquiry ref)
      fun _ _ => False := by
  unfold graft
  refine ends_forget (.bind (.get ?_))
  rw [isLive_dropped, hl, hp]
  exact .bind (.get (.bind (.modify (.pure ⟨rfl, rfl⟩))))

/-- Only nodes get nodes. -/
theorem ends_graft_of_other
    (hp : ∀ id ref generation direction, inquiry.purpose ≠ .expand id ref generation direction) :
    (graft inquiry).Ends s (fun results s' => results = [] ∧ s' = s.dropped inquiry)
      fun _ _ => False := by
  have hl : s.isLive inquiry := by
    unfold isLive
    split
    · rename_i h
      exact absurd h (hp _ _ _ _)
    · rfl
  unfold graft
  refine ends_forget (.bind (.get ?_))
  rw [isLive_dropped, hl]
  cases hpur : inquiry.purpose with
  | expand id ref generation direction => exact absurd hpur (hp _ _ _ _)
  | _ => exact .pure ⟨rfl, rfl⟩

/-- The queue and all requests but one are what they were. -/
structure Leaves (token : Token) (s s' : Session) : Prop where
  arrivals : s'.arrivals = s.arrivals
  others : ∀ k, k ≠ token → s'.pending.get? k = s.pending.get? k

theorem leaves_dropped (journal : Journal) :
    Leaves inquiry.token s { s.dropped inquiry with journal := journal } :=
  ⟨rfl, fun k hk => (Table.get?_erase s.pending _ k).trans (if_neg (Ne.symm hk))⟩

theorem leaves_grafted (ref : NodeRef) : Leaves inquiry.token s (s.grafted inquiry ref) :=
  ⟨rfl, fun k hk => (Table.get?_erase s.pending _ k).trans (if_neg (Ne.symm hk))⟩

theorem leaves_failed (journal : Journal) :
    Leaves inquiry.token s { s.failed inquiry with journal := journal } := by
  refine ⟨?_, fun k hk => ?_⟩ <;> unfold failed <;> split
  · rfl
  · rfl
  · exact (Table.get?_erase s.pending _ k).trans (if_neg (Ne.symm hk))
  · exact (Table.get?_erase s.pending _ k).trans (if_neg (Ne.symm hk))

theorem opens_of_ne_expand {purpose : Purpose}
    (h : ∀ id ref generation direction, purpose ≠ .expand id ref generation direction) :
    ∃ request, Opens purpose request := by
  cases purpose with
  | expand id ref generation direction => exact absurd rfl (h id ref generation direction)
  | openCalls uri direction => exact ⟨_, .calls uri 0 0 direction⟩
  | openOutline uri => exact ⟨_, .outline uri⟩

/-- Both sides end with one answer. -/
theorem lock_of_ends {x y : SessionM α} {r : α} {P P' : Session → Prop}
    {Q : α → Session → Session → Prop} (hx : x.Ends s (fun a s' => a = r ∧ P s') fun _ _ => False)
    (hy : y.Ends t (fun a t' => a = r ∧ P' t') fun _ _ => False)
    (hq : ∀ s' t', P s' → P' t' → After dead s t s' t' ∧ Q r s' t') : Lock dead x y s t Q := by
  refine Action.Pair.mono (Action.Pair.of_ends hx hy fun _ _ _ _ ha hb => ha.1.trans hb.1.symm) ?_
    fun _ _ h => h
  rintro _ s' t' ⟨⟨rfl, hs⟩, -, ht⟩
  exact hq s' t' hs ht

section End

variable (h : Twins dead s t) (hi : s.pending.get? inquiry.token = some inquiry)
  (hi' : t.pending.get? inquiry.token = some inquiry)
include h hi hi'

theorem lock_fail (reason : Failure) :
    Lock dead (fail inquiry reason) (fail inquiry reason) s t fun _ s' t' =>
      Leaves inquiry.token s s' ∧ Leaves inquiry.token t t' := by
  have hlive := h.alike.isLive inquiry
  cases hl : s.isLive inquiry with
  | true =>
    have hl' := hlive ▸ hl
    apply lock_of_ends (ends_fail_of_live hl reason) (ends_fail_of_live hl' reason)
    rintro _ _ rfl rfl
    have hafter := h.move (.fail hi hl) (.fail hi' hl') fun ha => ha.failed inquiry
    exact ⟨hafter.written h.alike.notes, leaves_failed _, leaves_failed _⟩
  | false =>
    have hl' := hlive ▸ hl
    apply lock_of_ends (ends_fail_of_dead hl reason) (ends_fail_of_dead hl' reason)
    rintro _ _ rfl rfl
    exact ⟨h.move (.drop hi (.inl hl)) (.drop hi' (.inl hl')) fun ha => ha.dropped inquiry,
      leaves_dropped _, leaves_dropped _⟩

theorem lock_graft (hc : inquiry.calls ≠ []) :
    Lock dead (graft inquiry) (graft inquiry) s t fun _ s' t' =>
      Leaves inquiry.token s s' ∧ Leaves inquiry.token t t' := by
  have hlive := h.alike.isLive inquiry
  cases hl : s.isLive inquiry with
  | true =>
    have hl' := hlive ▸ hl
    cases hp : inquiry.purpose with
    | expand id ref generation direction =>
      have hchildren : s.childrenOf inquiry ref = t.childrenOf inquiry ref := by
        rw [childrenOf, childrenOf, h.alike.node]
      apply lock_of_ends (ends_graft_of_live hl hp) (hchildren ▸ ends_graft_of_live hl' hp)
      rintro _ _ rfl rfl
      exact ⟨h.move (.graft hi hl hp hc) (.graft hi' hl' hp hc) fun ha => ha.grafted inquiry ref,
        leaves_grafted ref, leaves_grafted ref⟩
    | _ =>
      have hother : ∀ id ref generation direction,
          inquiry.purpose ≠ .expand id ref generation direction := by simp [hp]
      have ended := opens_of_ne_expand hother
      apply lock_of_ends (ends_graft_of_other hother) (ends_graft_of_other hother)
      rintro _ _ rfl rfl
      exact ⟨h.move (.drop hi (.inr ended)) (.drop hi' (.inr ended)) fun ha => ha.dropped inquiry,
        leaves_dropped _, leaves_dropped _⟩
  | false =>
    have hl' := hlive ▸ hl
    apply lock_of_ends (ends_graft_of_dead hl) (ends_graft_of_dead hl')
    rintro _ _ ⟨j, rfl, hj⟩ ⟨j', rfl, hj'⟩
    have hafter := h.move (.drop hi (.inl hl)) (.drop hi' (.inl hl')) fun ha => ha.dropped inquiry
    have hnotes := hj.trans (h.alike.notes.trans hj'.symm)
    exact ⟨hafter.written hnotes, leaves_dropped _, leaves_dropped _⟩

end End

/-! ### Lookups -/

/-- Nothing is taken from the queues. -/
def Grow (s t s' t' : Session) : Prop :=
  s.arrivals <+: s'.arrivals ∧ t.arrivals <+: t'.arrivals

theorem Grow.trans {s'' t'' : Session} (h : Grow s t s' t') (h' : Grow s' t' s'' t'') :
    Grow s t s'' t'' := ⟨h.1.trans h'.1, h.2.trans h'.2⟩

theorem Lock.grows {x y : SessionM α} {k : Token} (h : Lock dead x y s t fun _ s' t' =>
    Leaves k s s' ∧ Leaves k t t') : Lock dead x y s t fun _ s' t' => Grow s t s' t' :=
  Action.Pair.mono h (fun _ _ _ h => ⟨h.1, h.2.1.arrivals ▸ List.prefix_rfl,
    h.2.2.arrivals ▸ List.prefix_rfl⟩) fun _ _ h => h

/-- The symbol of a call is asked for, once. -/
theorem lock_askSymbol (h : Twins dead s t) {parent : Token} {index : Nat} {call : Call}
    (hi : s.pending.get? parent = some inquiry) (hl : s.isLive inquiry)
    (hc : inquiry.calls[index]? = some call)
    (hu : ∀ l, s.lookups.get? l ≠ some (parent, index)) :
    Lock dead (askSymbol parent index call) (askSymbol parent index call) s t fun _ s' t' =>
      s' = (s.looking parent inquiry index).posted s.nextToken true
        (.workspaceSymbols call.item.name) ∧ Grow s t s' t' := by
  have hnext := h.alike.nextToken
  have hp : dead parent = false := h.quietLeft.of_isLive hi hl
  have hi' : t.pending.get? parent = some inquiry := h.alike.get?_pending hp ▸ hi
  have hu' : ∀ l, t.lookups.get? l ≠ some (parent, index) := fun l ht => by
    have hd : dead l = false := (h.quietRight.lookups l parent index ht).trans hp
    exact hu l (h.alike.get?_lookups hd ▸ ht)
  have hmove := Move.look hi' (h.alike.isLive inquiry ▸ hl) hc hu'
  rw [← hnext] at hmove
  have hafter := h.move (.look hi hl hc hu) hmove fun ha =>
    (ha.looking hp h.quietLeft.nextToken inquiry index).posted _ _ _
  unfold askSymbol
  apply Action.Pair.bind (pair_newToken hnext)
  rintro _ _ _ ⟨rfl, rfl, rfl⟩
  refine Action.Pair.bind (Q := fun _ s' t' =>
    s' = s.looking parent inquiry index ∧ t' = t.looking parent inquiry index)
    (Action.Pair.modify ⟨?_, ?_⟩) ?_
  · rw [looking, hi]
  · rw [looking, hi', hnext]
  rintro _ _ _ ⟨rfl, rfl⟩
  refine Action.Pair.mono (pair_send (by exact h.alike.client) s.nextToken true _) ?_ ?_
  · rintro _ _ _ ⟨rfl, rfl⟩
    exact ⟨hafter, rfl, List.prefix_append .., List.prefix_append ..⟩
  · rintro _ _ ⟨rfl, rfl⟩
    exact hafter

/-- The symbols of the calls of a request are asked for, one after the other. -/
theorem lock_askSymbols (rest : List Call) {parent : Token} (h : Twins dead s t) {index : Nat}
    (known : List Call) (hi : s.pending.get? parent = some inquiry) (hl : s.isLive inquiry)
    (hc : inquiry.calls = known ++ rest) (hx : known.length = index)
    (hu : ∀ l i, s.lookups.get? l = some (parent, i) → i < index) :
    Lock dead ((rest.zipIdx index).forM fun (call, i) => askSymbol parent i call)
      ((rest.zipIdx index).forM fun (call, i) => askSymbol parent i call) s t
      fun _ s' t' => Grow s t s' t' := by
  induction rest generalizing s t index known inquiry with
  | nil => exact Lock.pure h ⟨List.prefix_rfl, List.prefix_rfl⟩
  | cons call rest ih =>
    have hcall : inquiry.calls[index]? = some call := by simp [hc, ← hx]
    refine Lock.bind h (lock_askSymbol h hi hl hcall fun l he =>
      Nat.lt_irrefl _ (hu l index he)) ?_
    rintro _ s' t' h' ⟨rfl, hg⟩
    have hput : Table.get? (s.pending.put parent { inquiry with
        lookups := inquiry.lookups ++ [s.nextToken] }) parent = some { inquiry with
          lookups := inquiry.lookups ++ [s.nextToken] } := Table.get?_put_self ..
    refine Action.Pair.mono (ih h' (known ++ [call]) hput hl ?_ ?_ ?_) ?_ ?_
    · simp [hc]
    · simp [hx]
    · exact index_lt_succ_of_put hu
    · exact fun _ _ _ hq => ⟨hq.1, hg.trans hq.2⟩
    · exact fun _ _ hq => hq

/-- The calls of a request are known: their symbols are looked up, or they become nodes. -/
def resolve (inquiry : Inquiry) : SessionM (List Resolution) := do
  if (← get).settings.resolveSymbols then
    let deadline ← deadline
    modify fun s => { s with
      pending := s.pending.put inquiry.token { inquiry with deadline := deadline } }
    inquiry.calls.zipIdx.forM fun (call, i) => askSymbol inquiry.token i call
    pure []
  else graft inquiry

theorem lock_resolve (h : Twins dead s t) (hi : s.pending.get? inquiry.token = some inquiry)
    (hi' : t.pending.get? inquiry.token = some inquiry) (hl : s.isLive inquiry)
    (hc : inquiry.calls ≠ []) (hn : inquiry.lookups = []) :
    Lock dead (resolve inquiry) (resolve inquiry) s t fun _ s' t' => Grow s t s' t' := by
  have hsettings := h.alike.settings
  have hk : dead inquiry.token = false := h.quietLeft.of_isLive hi hl
  unfold resolve
  apply Lock.get
  rw [← hsettings]
  split
  · refine Action.Pair.seq (pair_deadline h.alike.now hsettings) ?_ ?_
    · rintro _ _ ⟨-, rfl, rfl⟩
      exact h.refl
    rintro deadline s t ⟨hd, rfl, rfl⟩
    have hd' := hd
    rw [h.alike.now, hsettings] at hd'
    apply Action.Pair.modifyBind
    have hafter := h.move (.rearm hi hc hd) (.rearm hi' hc hd') fun ha =>
      { ha with pending := ha.pending_put hk _ }
    have hput : Table.get? (s.pending.put inquiry.token { inquiry with deadline := deadline })
        inquiry.token = some { inquiry with deadline := deadline } := Table.get?_put_self ..
    have hasked := lock_askSymbols inquiry.calls (h.after hafter) [] hput hl rfl rfl ?_
    · exact Lock.since hafter (Lock.bind (h.after hafter) hasked fun _ _ _ h' hg => Lock.pure h' hg)
    · intro l i hlookup
      obtain ⟨-, -, other, ho, hmem, -⟩ := h.left.looking.known l _ i hlookup
      obtain rfl := Option.some.inj (hi.symm.trans ho)
      rw [hn] at hmem
      cases hmem
  · exact (lock_graft h hi hi' hc).grows

/-! ### Answers -/

theorem dropped_of_lookups_eq_nil (hl : inquiry.lookups = []) :
    s.dropped inquiry = { s with pending := s.pending.erase inquiry.token } := by
  have hf : s.lookups.filter (fun entry => !inquiry.lookups.contains entry.1) = s.lookups :=
    List.filter_eq_self.2 fun entry _ => by simp [hl]
  rw [dropped, hf]

/-- A request that can still be answered has nothing looked up. -/
theorem Sound.lookups_of_reply (h : s.Sound) {token : Token} {outcome : Outcome}
    {rest : List Arrival} (ha : s.arrivals = .reply token outcome :: rest)
    (hi : s.pending.get? token = some inquiry) : inquiry.lookups = [] :=
  h.looking.lookups_eq_nil hi (h.queued.first token inquiry (.inl (ha ▸ List.mem_cons_self)) hi)

theorem ends_stale (hl : inquiry.lookups = []) :
    Action.Ends (remove inquiry >>= fun _ => dropStale inquiry) s (fun results s' => results = [] ∧
      ∃ journal : Journal, s' = { s.dropped inquiry with journal := journal } ∧
        journal.notes = s.journal.notes) fun _ _ => False := by
  rw [dropped_of_lookups_eq_nil hl]
  exact .bind (.modify (.bind (.modify (.pure ⟨rfl, _, rfl, rfl⟩))))

section Complete

variable {arrival : Arrival} {rest rest' : List Arrival} {token : Token} {outcome : Outcome}

/-- The oldest arrival is taken from both queues. -/
theorem Twins.take (h : Twins dead s t) (ha : s.arrivals = arrival :: rest)
    (ha' : t.arrivals = arrival :: rest') :
    After dead s t { s with arrivals := rest } { t with arrivals := rest' } := by
  refine h.move (.ignore ha) (.ignore ha') fun hal => { hal with arrivals := ?_ }
  have hf := hal.arrivals
  rw [ha, ha', List.filter_cons, List.filter_cons] at hf
  split at hf
  · exact (List.cons.inj hf).2
  · exact hf

theorem lock_completeExpansion (h : Twins dead s t) (hk : dead token = false)
    (ha : s.arrivals = .reply token outcome :: rest)
    (ha' : t.arrivals = .reply token outcome :: rest')
    (hi : s.pending.get? token = some inquiry) {id : TreeId} {ref : NodeRef} {generation : Nat}
    {direction : CallDirection} (hp : inquiry.purpose = .expand id ref generation direction) :
    Action.Pair (completeExpansion inquiry ref direction outcome)
      (completeExpansion inquiry ref direction outcome) { s with arrivals := rest }
      { t with arrivals := rest' } (fun _ s' t' => After dead s t s' t' ∧
        Grow { s with arrivals := rest } { t with arrivals := rest' } s' t') (After dead s t) := by
  have htake := h.take ha ha'
  have ht := h.after htake
  have hi' : t.pending.get? token = some inquiry := h.alike.get?_pending hk ▸ hi
  obtain rfl := (h.left.waiting.own token inquiry hi).1
  have hlive := h.alike.isLive inquiry
  unfold completeExpansion
  apply Action.Pair.get
  change Action.Pair (if !s.isLive inquiry then _ else _)
    (if !t.isLive inquiry then _ else _) _ _ _ _
  rw [← hlive]
  cases hl : s.isLive inquiry with
  | false =>
    have hl' := hlive ▸ hl
    refine Lock.since htake (lock_of_ends (ends_stale (h.left.lookups_of_reply ha hi))
      (ends_stale (h.right.lookups_of_reply ha' hi')) ?_)
    rintro _ _ ⟨j, rfl, hj⟩ ⟨j', rfl, hj'⟩
    have hafter := ht.move (.drop hi (.inl hl)) (.drop hi' (.inl hl')) fun ha => ha.dropped inquiry
    have hnotes := hj.trans (h.alike.notes.trans hj'.symm)
    exact ⟨hafter.written hnotes, List.prefix_rfl, List.prefix_rfl⟩
  | true =>
    have hfail (reason : Failure) := (lock_fail ht hi hi' reason).grows.since htake
    apply Action.Pair.get
    dsimp only
    rw [← ht.alike.node]
    cases outcome with
    | failure text => exact hfail _
    | cancelled => exact hfail _
    | answer value =>
      dsimp only
      refine Action.Pair.bindLift (fun calls hc => ?_) fun _ _ => htake
      split
      · exact hfail _
      rename_i hsome
      have hsome : calls ≠ [] := by simpa using hsome
      have hl' := hlive ▸ hl
      apply Action.Pair.modifyBind
      have hafter := h.move (.answer ha hi hp hl hc hsome) (.answer ha' hi' hp hl' hc hsome)
        fun hal => { ht.alike with pending := hal.pending_put hk _ }
      have hanswered := h.after hafter
      have hnone := h.left.lookups_of_reply ha hi
      exact Lock.since hafter (lock_resolve hanswered (Table.get?_put_self ..)
        (Table.get?_put_self ..) hl hsome hnone)

/-- An answer that is for no node is passed on. -/
theorem lock_remove (h : Twins dead s t) (hi : s.pending.get? inquiry.token = some inquiry)
    (hi' : t.pending.get? inquiry.token = some inquiry) (hn : inquiry.lookups = [])
    (ho : ∃ request, Opens inquiry.purpose request) :
    Lock dead (remove inquiry) (remove inquiry) s t fun _ s' t' => Grow s t s' t' := by
  have hafter := h.move (.drop hi (.inr ho)) (.drop hi' (.inr ho)) fun ha => ha.dropped inquiry
  rw [dropped_of_lookups_eq_nil hn, dropped_of_lookups_eq_nil hn] at hafter
  exact Lock.modify hafter ⟨List.prefix_rfl, List.prefix_rfl⟩

theorem lock_completeItems (h : Twins dead s t) (hi : s.pending.get? inquiry.token = some inquiry)
    (hi' : t.pending.get? inquiry.token = some inquiry) (hn : inquiry.lookups = [])
    (ho : ∃ request, Opens inquiry.purpose request) :
    Lock dead (completeItems inquiry outcome) (completeItems inquiry outcome) s t
      fun _ s' t' => Grow s t s' t' := by
  have hfail (reason : Failure) := (lock_fail h hi hi' reason).grows
  unfold completeItems
  cases outcome with
  | failure text => exact hfail _
  | cancelled => exact hfail _
  | answer value =>
    refine (Reads.lift _).bind h fun items _ => ?_
    split
    · exact hfail _
    · exact Lock.bind h (lock_remove h hi hi' hn ho) fun _ _ _ h hg => Lock.pure h hg

theorem lock_completeOutline (h : Twins dead s t) (hi : s.pending.get? inquiry.token = some inquiry)
    (hi' : t.pending.get? inquiry.token = some inquiry) (hn : inquiry.lookups = [])
    (ho : ∃ request, Opens inquiry.purpose request) (uri : Text) :
    Lock dead (completeOutline inquiry uri outcome) (completeOutline inquiry uri outcome) s t
      fun _ s' t' => Grow s t s' t' := by
  have hfail (reason : Failure) := (lock_fail h hi hi' reason).grows
  unfold completeOutline
  cases outcome with
  | failure text => exact hfail _
  | cancelled => exact hfail _
  | answer value =>
    dsimp only
    split
    · exact hfail _
    · refine Lock.bind h (lock_remove h hi hi' hn ho) fun _ s' t' h hg => ?_
      exact (Reads.lift _).bind h fun symbols _ => Lock.pure h hg

/-- What is done with what was found for the calls: once nothing is looked up any more, they become
nodes. -/
def finish (inquiry : Inquiry) (lookup : Token) (found : List (Option LocatedSymbol)) :
    SessionM (List Resolution) := do
  let settled := { inquiry with lookups := inquiry.lookups.filter (· ≠ lookup), found := found }
  modify fun s => { s with pending := s.pending.put inquiry.token settled }
  if settled.lookups.isEmpty then graft settled else pure []

/-- The oldest arrival ends a lookup for a request. -/
def matched (s : Session) (rest : List Arrival) (lookup : Token) (inquiry : Inquiry)
    (found : List (Option LocatedSymbol)) : Session :=
  { s with
    arrivals := rest
    lookups := s.lookups.erase lookup
    pending := s.pending.put inquiry.token
      { inquiry with lookups := inquiry.lookups.filter (· ≠ lookup), found := found } }

section Lookup

variable (h : Twins dead s t) (hk : dead token = false)
  (ha : s.arrivals = .lookup token outcome :: rest)
  (ha' : t.arrivals = .lookup token outcome :: rest')
include h hk ha ha'

/-- An outcome of a lookup is found for its call. -/
theorem Twins.matched {index : Nat} {found : List (Option LocatedSymbol)}
    (hl : s.lookups.get? token = some (inquiry.token, index))
    (hi : s.pending.get? inquiry.token = some inquiry) (finds : Finds inquiry index outcome found)
    {j j' : Journal} (hj : j.notes = s.journal.notes) (hj' : j'.notes = t.journal.notes) :
    After dead s t { s.matched rest token inquiry found with journal := j }
      { t.matched rest' token inquiry found with journal := j' } := by
  have hp : dead inquiry.token = false := h.quietLeft.lookups token _ index hl ▸ hk
  have hl' := h.alike.get?_lookups hk ▸ hl
  have hi' := h.alike.get?_pending hp ▸ hi
  have hafter := h.move (.find ha hl hi finds) (.find ha' hl' hi' finds) fun hal =>
    { (h.take ha ha').alike with
      lookups := hal.lookups_erase token
      pending := hal.pending_put hp _ }
  exact hafter.written (hj.trans (h.alike.notes.trans hj'.symm))

theorem lock_finish {index : Nat} {found : List (Option LocatedSymbol)}
    (hl : s.lookups.get? token = some (inquiry.token, index))
    (hi : s.pending.get? inquiry.token = some inquiry) (hc : inquiry.calls ≠ [])
    (finds : Finds inquiry index outcome found)
    {j j' : Journal} (hj : j.notes = s.journal.notes) (hj' : j'.notes = t.journal.notes) :
    Action.Pair (finish inquiry token found) (finish inquiry token found)
      { s.matched rest token inquiry inquiry.found with journal := j }
      { t.matched rest' token inquiry inquiry.found with journal := j' }
      (fun _ s' t' => After dead s t s' t' ∧
        Grow { s with arrivals := rest } { t with arrivals := rest' } s' t') (After dead s t) := by
  have hafter := h.matched hk ha ha' hl hi finds hj hj'
  unfold finish
  apply Action.Pair.modifyBind
  unfold Session.matched at hafter ⊢
  dsimp only
  rw [Table.put_put, Table.put_put]
  split
  · exact Lock.since hafter (Lock.grows (lock_graft (h.after hafter) (Table.get?_put_self ..)
      (Table.get?_put_self ..) hc))
  · exact Action.Pair.pure ⟨hafter, List.prefix_rfl, List.prefix_rfl⟩

/-- The outcome of a lookup of a request that is not left out. -/
theorem lock_completeLookup :
    Action.Pair (completeLookup token outcome) (completeLookup token outcome)
      { s with arrivals := rest } { t with arrivals := rest' }
      (fun _ s' t' => After dead s t s' t' ∧
        Grow { s with arrivals := rest } { t with arrivals := rest' } s' t') (After dead s t) := by
  have htake := h.take ha ha'
  have hlookup := h.alike.get?_lookups hk
  unfold completeLookup
  apply Action.Pair.get
  dsimp only
  rw [← hlookup]
  cases hl : s.lookups.get? token with
  | none =>
    refine Action.Pair.modifyBind (Action.Pair.pure ⟨?_, List.prefix_rfl, List.prefix_rfl⟩)
    exact htake.written htake.alike.notes
  | some target =>
    obtain ⟨parent, index⟩ := target
    have hp : dead parent = false := h.quietLeft.lookups token parent index hl ▸ hk
    obtain ⟨-, -, inquiry, hi, -, hlt⟩ := h.left.looking.known token parent index hl
    have hi' : t.pending.get? parent = some inquiry := h.alike.get?_pending hp ▸ hi
    obtain rfl := (h.left.waiting.own parent inquiry hi).1
    have hsome : inquiry.calls ≠ [] := List.ne_nil_of_length_pos (Nat.zero_lt_of_lt hlt)
    have hcall := List.getElem?_eq_getElem hlt
    refine Action.Pair.modifyBind (Action.Pair.get ?_)
    dsimp only
    rw [hi, hi']
    apply Action.Pair.modifyBind
    cases outcome with
    | failure text =>
      exact Action.Pair.modifyBind (lock_finish h hk ha ha' hl hi hsome (.same _) rfl rfl)
    | cancelled =>
      exact Action.Pair.modifyBind (lock_finish h hk ha ha' hl hi hsome (.same _) rfl rfl)
    | answer value =>
      rw [hcall]
      refine Action.Pair.bindLift (fun symbol hs => ?_) fun e he => ?_
      · exact lock_finish h hk ha ha' hl hi hsome (.symbol hcall hs) rfl rfl
      · exact h.matched hk ha ha' hl hi (.same _) rfl rfl

end Lookup

/-- What arrives for a request that is not left out is applied in lockstep. -/
theorem lock_complete (h : Twins dead s t) (hk : dead arrival.token = false)
    (ha : s.arrivals = arrival :: rest) (ha' : t.arrivals = arrival :: rest') :
    Action.Pair (complete arrival) (complete arrival) { s with arrivals := rest }
      { t with arrivals := rest' } (fun _ s' t' => After dead s t s' t' ∧
        Grow { s with arrivals := rest } { t with arrivals := rest' } s' t') (After dead s t) := by
  have htake := h.take ha ha'
  cases arrival with
  | lookup token outcome => exact lock_completeLookup h hk ha ha'
  | reply token outcome =>
    have hpending := h.alike.get?_pending hk
    unfold complete
    apply Action.Pair.get
    dsimp only [Arrival.token] at hpending ⊢
    rw [← hpending]
    cases hi : s.pending.get? token with
    | none =>
      refine Action.Pair.modifyBind (Action.Pair.pure ⟨?_, List.prefix_rfl, List.prefix_rfl⟩)
      exact htake.written htake.alike.notes
    | some inquiry =>
      have hi' := hpending ▸ hi
      have hn := h.left.lookups_of_reply ha hi
      obtain rfl := (h.left.waiting.own token inquiry hi).1
      dsimp only
      cases hp : inquiry.purpose with
      | expand id ref generation direction => exact lock_completeExpansion h hk ha ha' hi hp
      | openCalls uri direction =>
        exact Lock.since htake (lock_completeItems (h.after htake) hi hi' hn
          (opens_of_ne_expand (by simp [hp])))
      | openOutline uri =>
        exact Lock.since htake (lock_completeOutline (h.after htake) hi hi' hn
          (opens_of_ne_expand (by simp [hp])) uri)

end Complete

end SymbolTrees.Session
