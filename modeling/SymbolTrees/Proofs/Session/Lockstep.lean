import SymbolTrees.Proofs.Session.Alike

/-!
# Operations in lockstep

An operation on two sessions that look alike does the same to both: it is a row of moves on either
side, ends with one answer or one fault, and the sessions look alike after it. Of a session and
itself that says that operations are rows of moves.
-/

namespace SymbolTrees.Session

variable {dead : Token → Bool} {s t s' t' : Session} {α β : Type}

/-- Two sound sessions that look alike, where what is left out is without effect in both. -/
structure Twins (dead : Token → Bool) (s t : Session) : Prop where
  left : s.Sound
  right : t.Sound
  quietLeft : s.Quiet dead
  quietRight : t.Quiet dead
  alike : s.Alike dead t

theorem twins_self (h : s.Sound) : Twins (fun _ => false) s s :=
  ⟨h, h, quiet_none s, quiet_none s, .refl s⟩

/-- By moves `s` became `s'` and `t` became `t'`, and those look alike. -/
structure After (dead : Token → Bool) (s t s' t' : Session) : Prop where
  left : Moves s s'
  right : Moves t t'
  alike : s'.Alike dead t'

theorem After.trans {s'' t'' : Session} (h : After dead s t s' t') (h' : After dead s' t' s'' t'') :
    After dead s t s'' t'' :=
  ⟨Relation.ReflTransGen.trans h.left h'.left, Relation.ReflTransGen.trans h.right h'.right,
    h'.alike⟩

/-- Writing to the log is not seen. -/
theorem After.written (h : After dead s t s' t') {j j' : Journal} (hj : j.notes = j'.notes) :
    After dead s t { s' with journal := j } { t' with journal := j' } :=
  ⟨.tail h.left (.journal ..), .tail h.right (.journal ..), { h.alike with notes := hj }⟩

theorem Twins.refl (h : Twins dead s t) : After dead s t s t := ⟨.refl, .refl, h.alike⟩

theorem Twins.move (h : Twins dead s t) (hs : Move s s') (ht : Move t t')
    (ha : s.Alike dead t → s'.Alike dead t') : After dead s t s' t' :=
  ⟨.single hs, .single ht, ha h.alike⟩

theorem Twins.after (h : Twins dead s t) (ha : After dead s t s' t') : Twins dead s' t' :=
  ⟨h.left.moves ha.left, h.right.moves ha.right, h.quietLeft.moves h.left ha.left,
    h.quietRight.moves h.right ha.right, ha.alike⟩

/-- From `s` and `t` the two operations go by moves, and end alike with an answer in `Q` or with a
fault. -/
def Lock (dead : Token → Bool) (x y : SessionM α) (s t : Session)
    (Q : α → Session → Session → Prop) : Prop :=
  Action.Pair x y s t (fun a s' t' => After dead s t s' t' ∧ Q a s' t') (After dead s t)

/-- Nothing more is said of the end. -/
def Anyhow : α → Session → Session → Prop := fun _ _ _ => True

namespace Lock

variable {x y : SessionM α} {Q : α → Session → Session → Prop}

/-- What is done in lockstep after the sessions went by moves is done so since before. -/
theorem since {p q : Session} (hp : After dead s t p q) (h : Lock dead x y p q Q) :
    Action.Pair x y p q (fun a s' t' => After dead s t s' t' ∧ Q a s' t') (After dead s t) :=
  Action.Pair.mono h (fun _ _ _ h => ⟨hp.trans h.1, h.2⟩) fun _ _ h => hp.trans h

theorem bind {f g : α → SessionM β} {R : β → Session → Session → Prop}
    (hw : Twins dead s t) (h : Lock dead x y s t Q)
    (hf : ∀ a s' t', Twins dead s' t' → Q a s' t' → Lock dead (f a) (g a) s' t' R) :
    Lock dead (x >>= f) (y >>= g) s t R := by
  refine Action.Pair.bind h fun a s' t' ⟨ha, hq⟩ => ?_
  exact (hf a s' t' (hw.after ha) hq).since ha

theorem get {f g : Session → SessionM β} {R : β → Session → Session → Prop}
    (h : Lock dead (f s) (g t) s t R) :
    Lock dead (MonadState.get >>= f) (MonadState.get >>= g) s t R := Action.Pair.get h

theorem pure (hw : Twins dead s t) {a : α} (h : Q a s t) :
    Lock dead (Pure.pure a) (Pure.pure a) s t Q := ⟨rfl, hw.refl, h⟩

theorem throw (hw : Twins dead s t) (e : Fault) :
    Lock dead (MonadExcept.throw e) (MonadExcept.throw e) s t Q := ⟨rfl, hw.refl⟩

/-- Only the answer is still made up. -/
theorem returns (hw : Twins dead s t) (h : Lock dead x y s t Q) {f : α → β} :
    Lock dead (x >>= fun a => Pure.pure (f a)) (y >>= fun a => Pure.pure (f a)) s t Anyhow :=
  bind hw h fun _ _ _ hw _ => pure hw trivial

/-- What stops early does nothing more. -/
theorem throwBind (hw : Twins dead s t) (e : Fault) {f g : β → SessionM α} :
    Lock dead (MonadExcept.throw e >>= f) (MonadExcept.throw e >>= g) s t Q := ⟨rfl, hw.refl⟩

theorem modify {f g : Session → Session} {Q : Unit → Session → Session → Prop}
    (ha : After dead s t (f s) (g t)) (h : Q () (f s) (g t)) :
    Lock dead (modify f) (modify g) s t Q := ⟨rfl, ha, h⟩

end Lock

/-- Both operations leave the sessions as they are, with an answer in `P` or with a fault. -/
def Reads (x y : SessionM α) (s t : Session) (P : α → Prop) : Prop :=
  Action.Pair x y s t (fun a s' t' => (s' = s ∧ t' = t) ∧ P a) fun s' t' => s' = s ∧ t' = t

namespace Reads

variable {x y : SessionM α} {P : α → Prop}

theorem bind {f g : α → SessionM β} {R : β → Session → Session → Prop} (hw : Twins dead s t)
    (h : Reads x y s t P) (hf : ∀ a, P a → Lock dead (f a) (g a) s t R) :
    Lock dead (x >>= f) (y >>= g) s t R := by
  refine Action.Pair.bind (Action.Pair.mono h (fun _ _ _ h => h) ?_) ?_
  · rintro _ _ ⟨rfl, rfl⟩
    exact hw.refl
  · rintro a _ _ ⟨⟨rfl, rfl⟩, hp⟩
    exact hf a hp

theorem bindReads {f g : α → SessionM β} {R : β → Prop} (h : Reads x y s t P)
    (hf : ∀ a, P a → Reads (f a) (g a) s t R) : Reads (x >>= f) (y >>= g) s t R := by
  apply Action.Pair.bind h
  rintro a _ _ ⟨⟨rfl, rfl⟩, hp⟩
  exact hf a hp

theorem get {f g : Session → SessionM β} {R : β → Prop} (h : Reads (f s) (g t) s t R) :
    Reads (MonadState.get >>= f) (MonadState.get >>= g) s t R := Action.Pair.get h

theorem pure {a : α} (h : P a) : Reads (Pure.pure a) (Pure.pure a) s t P := ⟨rfl, ⟨rfl, rfl⟩, h⟩

theorem throw (e : Fault) : Reads (MonadExcept.throw e) (MonadExcept.throw e) s t P :=
  ⟨rfl, rfl, rfl⟩

theorem lift (x : Except Malformed α) : Reads (liftM x) (liftM x) s t (x = .ok ·) :=
  Action.Pair.lift (fun _ ha => ⟨⟨rfl, rfl⟩, ha⟩) fun _ _ => ⟨rfl, rfl⟩

theorem liftFault (x : Except Fault α) : Reads (liftM x) (liftM x) s t (x = .ok ·) :=
  Action.Pair.liftFault (fun _ ha => ⟨⟨rfl, rfl⟩, ha⟩) fun _ _ => ⟨rfl, rfl⟩

end Reads

/-! ### Checks and drawing -/

section Basic

variable (h : Twins dead s t)
include h

theorem lock_notify (urgency : Urgency) (message : Text) :
    Lock dead (notify urgency message) (notify urgency message) s t Anyhow :=
  Lock.modify (h.refl.written (congrArg (· ++ [_]) h.alike.notes)) trivial

theorem reads_requireOpen (id : TreeId) :
    Reads (requireOpen id) (requireOpen id) s t fun _ => s.isOpen id := by
  unfold requireOpen
  apply Reads.get
  rw [← h.alike.isOpen, ← h.alike.tree]
  by_cases ho : s.isOpen id
  · simp only [ho]
    exact Reads.pure trivial
  · simp only [ho]
    exact Reads.throw _

theorem reads_requireMember (id : TreeId) (ref : NodeRef) :
    Reads (requireMember id ref) (requireMember id ref) s t fun _ => s.Member id ref := by
  unfold requireMember
  refine (reads_requireOpen h id).bindReads fun _ ho => Reads.get ?_
  rw [← h.alike.registry, ← h.alike.tree, ← h.alike.node]
  by_cases hm : s.registry.isMember id ref
  · obtain ⟨htree, hc⟩ := Bool.and_eq_true_iff.1 hm
    simp only [hm]
    exact Reads.pure ⟨ho, beq_iff_eq.1 htree, hc⟩
  · simp only [hm]
    exact Reads.throw _

theorem lock_render (id : TreeId) : Lock dead (render id) (render id) s t Anyhow := by
  have hview : View.ofTree (s.tree id) s.style = View.ofTree (t.tree id) t.style := by
    rw [h.alike.tree, h.alike.style]
  unfold render
  refine (reads_requireOpen h id).bind h fun _ ho => Lock.get ?_
  dsimp only
  rw [← hview]
  refine (Reads.lift _).bind h fun view hv => ?_
  refine Lock.bind h (Q := Anyhow) ⟨rfl, ?_, trivial⟩ fun _ _ _ h _ => Lock.pure h trivial
  refine h.move (.draw ho hv) (.draw (h.alike.isOpen id ▸ ho) (hview ▸ hv)) fun ha => ?_
  rw [← ha.tree, ← ha.registry, ← ha.buffers]
  exact { ha with
    registry := rfl
    buffers := rfl }

end Basic

/-! ### Asking -/

section Ask

/-- Both sides take one number. -/
theorem pair_newToken (hn : s.nextToken = t.nextToken) {F : Session → Session → Prop} :
    Action.Pair newToken newToken s t (fun token s' t' => token = s.nextToken ∧
      s' = { s with nextToken := s.nextToken + 1 } ∧
        t' = { t with nextToken := t.nextToken + 1 }) F :=
  ⟨hn, rfl, rfl, rfl⟩

/-- A request is sent, also if a recording cannot answer it. -/
theorem pair_send (hc : s.client = t.client) (token : Token) (isLookup : Bool)
    (request : Server.Request) :
    Action.Pair (send token isLookup request) (send token isLookup request) s t
      (fun _ s' t' => s' = s.posted token isLookup request ∧ t' = t.posted token isLookup request)
      fun s' t' => s' = s.posted token isLookup request ∧ t' = t.posted token isLookup request := by
  unfold send
  refine Action.Pair.modifyBind (Action.Pair.get ?_)
  dsimp only
  rw [← hc]
  apply Action.Pair.modifyBind
  cases hs : s.client with
  | server =>
    have ht : t.client = .server := hc ▸ hs
    refine Action.Pair.pure ⟨?_, ?_⟩
    · simp [posted, hs, Client.prompt, Client.isServer]
    · simp [posted, ht, Client.prompt, Client.isServer]
  | replay recording =>
    have ht : t.client = .replay recording := hc ▸ hs
    dsimp only
    cases ha : Server.Recording.answer recording request.method request.params with
    | ok value =>
      refine ⟨rfl, ?_, ?_⟩
      · simp [posted, hs, ha, Client.prompt, Client.isServer, Arrival.of]
      · simp [posted, ht, ha, Client.prompt, Client.isServer, Arrival.of]
    | error e =>
      refine ⟨rfl, ?_, ?_⟩
      · simp [posted, hs, ha, Client.prompt, Client.isServer]
      · simp [posted, ht, ha, Client.prompt, Client.isServer]

/-- Both sides have one time until which requests that are sent now are kept. -/
theorem pair_deadline (hn : s.now = t.now) (hs : s.settings = t.settings) :
    Action.Pair deadline deadline s t
      (fun deadline s' t' => s.now.add s.settings.timeout = .ok deadline ∧ s' = s ∧ t' = t)
      fun s' t' => (∃ e, s.now.add s.settings.timeout = .error e) ∧ s' = s ∧ t' = t := by
  unfold deadline
  apply Action.Pair.get
  rw [← hn, ← hs]
  exact Action.Pair.lift (fun deadline ho => ⟨ho, rfl, rfl⟩) fun e he => ⟨⟨e, he⟩, rfl, rfl⟩

/-- A request is entered if its deadline can be told. -/
theorem pair_enter (hn : s.now = t.now) (hs : s.settings = t.settings) (token : Token)
    (purpose : Purpose) :
    Action.Pair (enter token purpose) (enter token purpose) s t
      (fun _ s' t' => ∃ deadline, s.now.add s.settings.timeout = .ok deadline ∧
        s' = s.entered token purpose deadline ∧ t' = t.entered token purpose deadline)
      fun s' t' => (∃ e, s.now.add s.settings.timeout = .error e) ∧ s' = s ∧ t' = t := by
  unfold enter
  apply Action.Pair.bind (pair_deadline hn hs)
  rintro deadline _ _ ⟨ho, rfl, rfl⟩
  exact Action.Pair.modify ⟨deadline, ho, rfl, rfl⟩

theorem Alike.member (ha : s.Alike dead t) {id : TreeId} {ref : NodeRef} (hm : s.Member id ref) :
    t.Member id ref := by
  obtain ⟨ho, htree, hc⟩ := hm
  exact ⟨ha.isOpen id ▸ ho, htree, ha.tree id ▸ hc⟩

variable (h : Twins dead s t)
include h

/-- What a node of an open tree waits for is the same on both sides. -/
theorem Twins.get?_awaited {id : TreeId} {ref : NodeRef} {k : Token} (hm : s.Member id ref)
    (hw : (s.node ref).pending = some k) : s.pending.get? k = t.pending.get? k := by
  have hm' : t.Member id ref := h.alike.member hm
  have hw' : (t.node ref).pending = some k := h.alike.node ref ▸ hw
  have hs {inquiry : Inquiry} (hi : s.pending.get? k = some inquiry) : dead k = false :=
    h.quietLeft.of_isLive hi (h.left.isLive_of_member hm hw hi)
  have ht {inquiry : Inquiry} (hi : t.pending.get? k = some inquiry) : dead k = false :=
    h.quietRight.of_isLive hi (h.right.isLive_of_member hm' hw' hi)
  cases hi : s.pending.get? k with
  | some inquiry => rw [← hi, h.alike.get?_pending (hs hi)]
  | none =>
    cases hi' : t.pending.get? k with
    | none => rfl
    | some inquiry =>
      rw [h.alike.get?_pending (ht hi'), hi'] at hi
      cases hi

theorem Twins.isInFlight {id : TreeId} {ref : NodeRef} (hm : s.Member id ref) :
    s.isInFlight (s.node ref) = t.isInFlight (s.node ref) := by
  unfold Session.isInFlight
  cases hw : (s.node ref).pending with
  | none => rfl
  | some k =>
    simp only [Table.contains]
    rw [h.get?_awaited hm hw]

theorem Twins.askable {id : TreeId} {ref : NodeRef} {direction : CallDirection} {item : CallItem}
    (ha : s.Askable id ref direction item) : t.Askable id ref direction item := by
  have hn := h.alike.node ref
  refine ⟨h.alike.member ha.member, h.alike.tree id ▸ ha.direction, hn ▸ ha.item, hn ▸ ha.leaf,
    hn ▸ ha.closed, ?_⟩
  rw [← hn, ← h.isInFlight ha.member]
  exact ha.idle

/-- A node is made to wait, and the calls of its item are asked for. -/
def ask (ref : NodeRef) (purpose : Purpose) (request : Server.Request) :
    SessionM (Option Token) := do
  let token ← newToken
  modifyRegistry fun r => r.updateNode ref fun node => { node with pending := some token }
  enter token purpose
  send token false request
  pure (some token)

theorem lock_ask {id : TreeId} {ref : NodeRef} {direction : CallDirection} {item : CallItem}
    {purpose : Purpose} (ha : s.Askable id ref direction item)
    (hp : purpose = .expand id ref (s.tree id).generation direction) :
    Lock dead (ask ref purpose (.calls direction item)) (ask ref purpose (.calls direction item))
      s t Anyhow := by
  subst hp
  have ha' := h.askable ha
  have hnext := h.alike.nextToken
  have htime : s.now.add s.settings.timeout = t.now.add t.settings.timeout := by
    rw [h.alike.now, h.alike.settings]
  unfold ask
  apply Action.Pair.bind (pair_newToken hnext)
  rintro _ _ _ ⟨rfl, rfl, rfl⟩
  refine Action.Pair.bind (Q := fun _ s' t' => s' = s.awaiting ref ∧ t' = t.awaiting ref)
    (Action.Pair.modify ⟨rfl, by rw [awaiting, hnext]⟩) ?_
  rintro _ _ _ ⟨rfl, rfl⟩
  refine Action.Pair.seq (pair_enter (by exact h.alike.now) (by exact h.alike.settings) _ _) ?_ ?_
  · rintro _ _ ⟨⟨e, he⟩, rfl, rfl⟩
    exact h.move (.askInVain ha he) (.askInVain ha' (htime ▸ he)) fun hal => hal.awaiting ref
  rintro _ _ _ ⟨deadline, hd, rfl, rfl⟩
  have hmove := Move.ask ha' (htime ▸ hd)
  rw [← hnext, ← h.alike.tree] at hmove
  have hafter := h.move (.ask ha hd) hmove fun hal =>
    ((hal.awaiting ref).entered h.quietLeft.nextToken _ _).posted _ _ _
  refine Action.Pair.seq (pair_send (by exact h.alike.client) s.nextToken false _) ?_ ?_
  · rintro _ _ ⟨rfl, rfl⟩
    exact hafter
  · rintro _ _ _ ⟨rfl, rfl⟩
    exact Action.Pair.pure ⟨hafter, trivial⟩

/-- A node of an open tree asks for the nodes below it. -/
theorem lock_askChildren {id : TreeId} {ref : NodeRef} (hm : s.Member id ref) :
    Lock dead (askChildren id ref none) (askChildren id ref none) s t Anyhow := by
  have hn := h.alike.node ref
  have htree := h.alike.tree id
  have hflight := h.isInFlight hm
  unfold askChildren
  apply Lock.get
  simp only [Option.getD_none]
  rw [← hn, ← htree, ← hflight]
  cases hd : (s.tree id).direction.calls? with
  | none => exact Lock.throw h _
  | some direction =>
    cases hi : (s.node ref).payload.callItem? with
    | none => exact Lock.throw h _
    | some item =>
      dsimp only
      split
      · exact Lock.pure h trivial
      · rename_i hidle
        obtain rfl := hm.tree
        have hs := h.left.stands hm
        obtain ⟨hleaf, hidle⟩ : (s.node ref).children = [] ∧ s.isInFlight (s.node ref) = false := by
          simpa using hidle
        have hfits := (h.left.grown ref.tree).fits _ _ hs.found
        have hclosed : (s.node ref).expanded = false := by
          by_contra he
          refine hfits.opened ?_ (by simpa using he) hleaf
          have hd' : (s.registry.tree ref.tree).direction.calls? = some direction := hd
          rw [hd']
          rfl
        have ha : s.Askable ref.tree ref direction item :=
          ⟨hm, Direction.eq_of_calls? hd, hi, hleaf, hclosed, hidle⟩
        exact lock_ask h ha rfl

/-- A request is made for no node. -/
def inquire (purpose : Purpose) (request : Server.Request) : SessionM Token := do
  let token ← newToken
  enter token purpose
  send token false request
  pure token

theorem lock_inquire {purpose : Purpose} {request : Server.Request} (ho : Opens purpose request) :
    Lock dead (inquire purpose request) (inquire purpose request) s t Anyhow := by
  have hnext := h.alike.nextToken
  have htime : s.now.add s.settings.timeout = t.now.add t.settings.timeout := by
    rw [h.alike.now, h.alike.settings]
  have hskip (hal : s.Alike dead t) : ({ s with nextToken := s.nextToken + 1 } : Session).Alike dead
      { t with nextToken := t.nextToken + 1 } :=
    { hal with nextToken := congrArg (· + 1) hal.nextToken }
  unfold inquire
  apply Action.Pair.bind (pair_newToken hnext)
  rintro _ _ _ ⟨rfl, rfl, rfl⟩
  refine Action.Pair.seq (pair_enter (by exact h.alike.now) (by exact h.alike.settings) _ _) ?_ ?_
  · rintro _ _ ⟨-, rfl, rfl⟩
    exact h.move (.skip s) (.skip t) hskip
  rintro _ _ _ ⟨deadline, hd, rfl, rfl⟩
  have hmove := Move.inquire ho (htime ▸ hd)
  rw [← hnext] at hmove
  have hafter := h.move (.inquire ho hd) (hnext ▸ hmove) fun hal =>
    ((hskip hal).entered h.quietLeft.nextToken _ _).posted _ _ _
  refine Action.Pair.seq (pair_send (by exact h.alike.client) s.nextToken false _) ?_ ?_
  · rintro _ _ ⟨rfl, rfl⟩
    exact hafter
  · rintro _ _ _ ⟨rfl, rfl⟩
    exact Action.Pair.pure ⟨hafter, trivial⟩

theorem lock_askItems (uri : Text) (line character : Int) (direction : Direction) :
    Lock dead (askItems uri line character direction) (askItems uri line character direction) s t
      Anyhow := by
  unfold askItems
  cases direction.calls? with
  | none => exact Lock.throw h _
  | some direction => exact lock_inquire h (.calls uri line character direction)

theorem lock_askOutline (uri : Text) :
    Lock dead (askOutline uri) (askOutline uri) s t Anyhow := lock_inquire h (.outline uri)

omit h in
theorem ends_giveUp (hs : s.Sound) (ref : NodeRef) :
    (giveUp ref).Ends s (fun _ s' => s' = s.givenUp ref) fun _ _ => False := by
  unfold giveUp
  refine .bind (.get (.bind (.modify ?_)))
  cases hw : (s.node ref).pending with
  | none =>
    refine .pure ?_
    rw [givenUp, inquiryOf, hw]
    rfl
  | some token =>
    refine .bind (.get ?_)
    dsimp only
    cases hi : s.pending.get? token with
    | none =>
      refine .pure ?_
      rw [givenUp, inquiryOf, hw, Option.bind_some, hi]
      rfl
    | some inquiry =>
      refine .bind (.modify (.modify ?_))
      rw [givenUp, inquiryOf, hw, Option.bind_some, hi, ← (hs.waiting.own token inquiry hi).1]
      rfl

/-- The request that a node of an open tree waits for is given up. -/
theorem lock_giveUp {id : TreeId} {ref : NodeRef} (hm : s.Member id ref) :
    Lock dead (giveUp ref) (giveUp ref) s t fun _ s' t' =>
      s' = s.givenUp ref ∧ t' = t.givenUp ref := by
  have hi : s.inquiryOf ref = t.inquiryOf ref := by
    rw [inquiryOf, inquiryOf, ← h.alike.node]
    cases hw : (s.node ref).pending with
    | none => rfl
    | some k => exact h.get?_awaited hm hw
  have ha : (s.givenUp ref).Alike dead (t.givenUp ref) := by
    unfold givenUp
    rw [← hi]
    split
    · exact h.alike.released ref
    · exact (h.alike.dropped _).released ref
  refine Action.Pair.mono (Action.Pair.of_ends (ends_giveUp h.left ref) (ends_giveUp h.right ref)
    fun _ _ _ _ _ _ => rfl) ?_ fun _ _ h => h
  rintro _ _ _ ⟨rfl, rfl⟩
  exact ⟨⟨.single (.giveUp hm), .single (.giveUp (h.alike.member hm)), ha⟩, rfl, rfl⟩

end Ask

end SymbolTrees.Session
