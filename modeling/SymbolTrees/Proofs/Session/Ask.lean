import SymbolTrees.Proofs.Session.Operations

/-!
# What asking comes to

A request is entered under the next number and sent, and the node that it is for waits for it. It
is not, if there is nothing to be asked, if its deadline cannot be told, or if a recording cannot be
asked for it. What is refused is refused before anything is done.
-/

namespace SymbolTrees

open SymbolTrees.Server (Request)

/-- What is asked for is refused, or is not there. -/
def Fault.isRejection : Fault → Bool
  | .refused _ | .missing _ => true
  | _ => false

/-- A fault that comes of what cannot be read. -/
def IsMalformed (e : Fault) : Prop := ∃ reason, e = .malformed reason

theorem IsMalformed.not_isRejection {e : Fault} (h : IsMalformed e) : e.isRejection = false := by
  obtain ⟨reason, rfl⟩ := h
  rfl

/-- What is said when a node is asked for that cannot be asked for. -/
def Fault.isUnaskable : Fault → Bool
  | .refused (.noCallsIn _) | .refused (.noCallItem _) => true
  | _ => false

/-- To be unaskable is a reason to be refused. -/
theorem isUnaskable_of_not_isRejection {e : Fault} (h : e.isRejection = false) :
    e.isUnaskable = false := by
  cases e with
  | refused reason => cases h
  | _ => rfl

/-- That something is not there is no such reason. -/
theorem Missing.fault_isUnaskable (what : Missing) : what.fault.isUnaskable = false := by
  unfold fault
  split <;> rfl

theorem IsMalformed.not_isUnaskable {e : Fault} (h : IsMalformed e) : e.isUnaskable = false :=
  isUnaskable_of_not_isRejection h.not_isRejection

/-- The recording has no answer for the request that can be read. -/
def Client.Baffled (client : Client) (request : Request) : Prop :=
  ∃ recording reason, client = .replay recording ∧
    Server.Recording.answer recording request.method request.params = .error reason

namespace Session

variable {s t : Session} {id : TreeId} {ref : NodeRef}

/-! ### Requests -/

theorem ends_deadline : deadline.Ends s
    (fun d t => t = s ∧ s.now.add s.settings.timeout = .ok d)
    fun e t => t = s ∧ ∃ reason, e = .malformed reason ∧
      s.now.add s.settings.timeout = .error reason := by
  unfold deadline
  refine .bind (.get ?_)
  cases hd : s.now.add s.settings.timeout with
  | ok d => exact ⟨rfl, rfl⟩
  | error e => exact ⟨rfl, e, rfl, rfl⟩

theorem ends_enter (token : Token) (purpose : Purpose) : (enter token purpose).Ends s
    (fun _ t => ∃ d, s.now.add s.settings.timeout = .ok d ∧ t = s.entered token purpose d)
    fun e t => t = s ∧ ∃ reason, e = .malformed reason ∧
      s.now.add s.settings.timeout = .error reason := by
  unfold enter
  refine .bind (ends_deadline.mono ?_ fun _ _ h => h)
  rintro d _ ⟨rfl, hd⟩
  exact .modify ⟨d, hd, rfl⟩

/-- A request is sent, also if a recording cannot answer it. -/
theorem ends_send (token : Token) (isLookup : Bool) (request : Request) :
    (send token isLookup request).Ends s (fun _ t => t = s.posted token isLookup request)
      fun e t => t = s.posted token isLookup request ∧ IsMalformed e ∧
        s.client.Baffled request := by
  unfold send
  refine .bind (.modify (.bind (.get (.bind (.modify ?_)))))
  dsimp only
  cases hc : s.client with
  | server =>
    refine .pure ?_
    simp [posted, hc, Client.prompt, Client.isServer]
  | replay recording =>
    refine .bindRead (fun value ha => .modify ?_)
      fun e he => ⟨?_, ⟨e, rfl⟩, recording, e, rfl, he⟩
    · simp [posted, hc, ha, Client.prompt, Client.isServer, Arrival.of]
    · simp [posted, hc, he, Client.prompt, Client.isServer]

/-- A number is used for a request that is entered and sent. -/
theorem ends_newToken {Q : Token → Session → Prop} {E : Fault → Session → Prop}
    (h : Q s.nextToken { s with nextToken := s.nextToken + 1 }) : newToken.Ends s Q E := h

/-- The nodes below a node are asked for, unless they are there or asked for already. -/
inductive Asks (s : Session) (id : TreeId) (ref : NodeRef) : Option Token → Session → Prop where
  | known (there : (s.node ref).children ≠ [] ∨ s.isInFlight (s.node ref)) : Asks s id ref none s
  | sent {direction : CallDirection} {item : CallItem} {deadline : Number}
    (askable : s.Askable id ref direction item)
    (timely : s.now.add s.settings.timeout = .ok deadline) :
    Asks s id ref (some s.nextToken) (((s.awaiting ref).entered s.nextToken
      (.expand id ref (s.tree id).generation direction) deadline).posted s.nextToken false
        (.calls direction item))

theorem Asks.moves {token : Option Token} (h : Asks s id ref token t) : Moves s t := by
  cases h with
  | known => exact .refl
  | sent askable timely => exact .single (.ask askable timely)

/-- Why the nodes below a node are not asked for. -/
inductive Balks (s : Session) (id : TreeId) (ref : NodeRef) : Fault → Session → Prop where
  /-- The tree or the node is not one that can be asked for. -/
  | refused {e : Fault} (rejection : e.isRejection)
    (bare : (s.tree id).direction.calls? = none ∨ (s.node ref).payload.callItem? = none) :
    Balks s id ref e s
  /-- The deadline cannot be told, and nothing is sent. -/
  | untimely {reason : Malformed} {direction : CallDirection} {item : CallItem}
    (askable : s.Askable id ref direction item)
    (late : s.now.add s.settings.timeout = .error reason) :
    Balks s id ref (.malformed reason) (s.awaiting ref)
  /-- The request is sent, and a recording has no answer that can be read. -/
  | baffled {reason : Malformed} {direction : CallDirection} {item : CallItem} {deadline : Number}
    (askable : s.Askable id ref direction item)
    (timely : s.now.add s.settings.timeout = .ok deadline)
    (baffled : s.client.Baffled (.calls direction item)) :
    Balks s id ref (.malformed reason) (((s.awaiting ref).entered s.nextToken
      (.expand id ref (s.tree id).generation direction) deadline).posted s.nextToken false
        (.calls direction item))

/-- A node of a sound session can be asked for unless it was or has nodes below it. -/
theorem Sound.askable (h : s.Sound) (hm : s.Member id ref) {direction : CallDirection}
    {item : CallItem} (hd : (s.tree id).direction = .calls direction)
    (hi : (s.node ref).payload.callItem? = some item) (hl : (s.node ref).children = [])
    (hidle : s.isInFlight (s.node ref) = false) : s.Askable id ref direction item := by
  obtain rfl := hm.tree
  have hfits := (h.grown ref.tree).fits _ _ (h.stands hm).found
  refine ⟨hm, hd, hi, hl, ?_, hidle⟩
  by_contra he
  refine hfits.opened ?_ (by simpa using he) hl
  have hd' : (s.registry.tree ref.tree).direction = .calls direction := hd
  rw [hd']
  rfl

theorem ends_askChildren (h : s.Sound) (hm : s.Member id ref) :
    (askChildren id ref none).Ends s (Asks s id ref) (Balks s id ref) := by
  unfold askChildren
  refine .bind (.get ?_)
  simp only [Option.getD_none]
  cases hd : (s.tree id).direction.calls? with
  | none => exact .throw (.refused rfl (.inl hd))
  | some direction =>
    cases hi : (s.node ref).payload.callItem? with
    | none => exact .throw (.refused rfl (.inr hi))
    | some item =>
      dsimp only
      split
      · rename_i hknown
        exact .pure (.known (by simpa using hknown))
      · rename_i hidle
        obtain ⟨hleaf, hidle⟩ : (s.node ref).children = [] ∧ s.isInFlight (s.node ref) = false := by
          simpa using hidle
        have ha := h.askable hm (Direction.eq_of_calls? hd) hi hleaf hidle
        refine .bind (ends_newToken (.bind (.modify (.bind ?_))))
        refine (ends_enter _ _).mono ?_ ?_
        · rintro _ _ ⟨deadline, htimely, rfl⟩
          refine .bind ((ends_send _ _ _).mono ?_ ?_)
          · rintro _ _ rfl
            exact .pure (.sent ha htimely)
          · rintro _ _ ⟨rfl, ⟨reason, rfl⟩, hb⟩
            exact .baffled ha htimely hb
        · rintro _ _ ⟨rfl, reason, rfl, hlate⟩
          exact .untimely ha hlate

/-- A request that is made for no node. -/
inductive Inquires (s : Session) (purpose : Purpose) (request : Request) :
    Token → Session → Prop where
  | sent {deadline : Number} (opens : Opens purpose request)
    (timely : s.now.add s.settings.timeout = .ok deadline) :
    Inquires s purpose request s.nextToken
      (({ s with nextToken := s.nextToken + 1 }.entered s.nextToken purpose deadline).posted
        s.nextToken false request)

/-- Why a request that is made for no node is not made, or comes to nothing. -/
inductive Defers (s : Session) (purpose : Purpose) (request : Request) : Fault → Session → Prop where
  | untimely {reason : Malformed} (late : s.now.add s.settings.timeout = .error reason) :
    Defers s purpose request (.malformed reason) { s with nextToken := s.nextToken + 1 }
  | baffled {reason : Malformed} {deadline : Number}
    (timely : s.now.add s.settings.timeout = .ok deadline) (baffled : s.client.Baffled request) :
    Defers s purpose request (.malformed reason)
      (({ s with nextToken := s.nextToken + 1 }.entered s.nextToken purpose deadline).posted
        s.nextToken false request)

theorem Defers.isMalformed {purpose : Purpose} {request : Request} {e : Fault}
    (h : Defers s purpose request e t) : IsMalformed e := by
  cases h <;> exact ⟨_, rfl⟩

theorem ends_inquire {purpose : Purpose} {request : Request} (ho : Opens purpose request) :
    (inquire purpose request).Ends s (Inquires s purpose request) (Defers s purpose request) := by
  unfold inquire
  refine .bind (ends_newToken (.bind ((ends_enter _ _).mono ?_ ?_)))
  · rintro _ _ ⟨deadline, htimely, rfl⟩
    refine .bind ((ends_send _ _ _).mono ?_ ?_)
    · rintro _ _ rfl
      exact .pure (.sent ho htimely)
    · rintro _ _ ⟨rfl, ⟨reason, rfl⟩, hb⟩
      exact .baffled htimely hb
  · rintro _ _ ⟨rfl, reason, rfl, hlate⟩
    exact .untimely hlate

/-! ### Checks and drawing -/

/-- Whether the tree is open is looked up, and nothing is done. -/
theorem checks_open : (requireOpen id).Ends s (fun _ t => t = s ∧ s.isOpen id)
    fun e t => t = s ∧ (∃ what : Missing, e = what.fault) ∧ ¬s.isOpen id := by
  unfold requireOpen
  refine .bind (.get ?_)
  cases ho : s.isOpen id with
  | true => exact .pure ⟨rfl, rfl⟩
  | false => exact .throw ⟨rfl, ⟨_, rfl⟩, Bool.false_ne_true⟩

theorem ends_requireOpen (ho : s.isOpen id) :
    (requireOpen id).Ends s (fun _ t => t = s) fun _ _ => False :=
  checks_open.mono (fun _ _ h => h.1) fun _ _ h => h.2.2 ho

/-- Whether the node is part of the tree is looked up, and nothing is done. -/
theorem checks_member : (requireMember id ref).Ends s (fun _ t => t = s ∧ s.Member id ref)
    fun e t => t = s ∧ (∃ what : Missing, e = what.fault) ∧ ¬s.Member id ref := by
  unfold requireMember
  refine .bind (checks_open.mono ?_ fun _ _ ⟨ht, he, ho⟩ => ⟨ht, he, fun hm => ho hm.isOpen⟩)
  rintro _ _ ⟨rfl, ho⟩
  refine .bind (.get ?_)
  cases hm : Registry.isMember _ id ref with
  | true =>
    obtain ⟨htree, hc⟩ := Bool.and_eq_true_iff.1 hm
    exact .pure ⟨rfl, ho, beq_iff_eq.1 htree, hc⟩
  | false =>
    refine .throw ⟨rfl, ⟨_, rfl⟩, fun hmember => ?_⟩
    have hm' : Registry.isMember _ id ref = true :=
      Bool.and_eq_true_iff.2 ⟨beq_iff_eq.2 hmember.tree, hmember.contains⟩
    rw [hm] at hm'
    cases hm'

/-- A tree as it was drawn. -/
def shown (s : Session) (id : TreeId) (view : View) : Session :=
  { s with
    registry := s.registry.update id fun t => t.show view
    buffers := s.buffers.replace (s.tree id).handle view.lines view.annotations }

section Shown

variable (s : Session) (id : TreeId) (view : View) {other : TreeId}

@[simp] theorem isOpen_shown : (s.shown id view).isOpen other = s.isOpen other :=
  Registry.isOpen_update rfl rfl

@[simp] theorem root_shown : ((s.shown id view).tree other).root = (s.tree other).root :=
  Registry.tree_update_of_keeps Tree.root rfl

@[simp] theorem handle_shown : ((s.shown id view).tree other).handle = (s.tree other).handle :=
  Registry.tree_update_of_keeps Tree.handle rfl

theorem tree_shown_of_ne (hne : other ≠ id) : (s.shown id view).tree other = s.tree other :=
  Registry.tree_update_of_ne hne

end Shown

/-- An open tree is drawn, unless one of its rows cannot be. -/
theorem ends_render (ho : s.isOpen id) : (render id).Ends s
    (fun view t => View.ofTree (s.tree id) s.style = .ok view ∧ t = s.shown id view)
    fun e t => t = s ∧ IsMalformed e ∧ ∃ reason, View.ofTree (s.tree id) s.style = .error reason := by
  unfold render
  refine .bind ((ends_requireOpen ho).mono ?_ fun _ _ h => h.elim)
  rintro _ _ rfl
  refine .bind (.get (.bindRead (fun view hv => ?_) fun e he => ⟨rfl, ⟨e, rfl⟩, e, he⟩))
  exact .bind (.modify (.pure ⟨hv, rfl⟩))

/-- An open tree whose rows are known is drawn. -/
theorem ends_render_of_ofTree {view : View} (ho : s.isOpen id)
    (hv : View.ofTree (s.tree id) s.style = .ok view) :
    (render id).Ends s (fun other t => other = view ∧ t = s.shown id view) fun _ _ => False := by
  refine (ends_render ho).mono ?_ ?_
  · rintro other t ⟨hother, rfl⟩
    obtain rfl : view = other := Except.ok.inj (hv.symm.trans hother)
    exact ⟨rfl, rfl⟩
  · rintro e t ⟨-, -, reason, he⟩
    cases hv.symm.trans he

end Session

end SymbolTrees
