import SymbolTrees.Proofs.Session.Economy

/-!
# What a recording was asked

Whoever asks a recording for what it cannot tell is stopped by that. So as long as nothing is
stopped, a recording had an answer to every request that was sent to it. That takes no more than a
look at every operation in turn: each of them keeps it, where it comes to its end.
-/

namespace SymbolTrees

namespace Action

variable {σ α β : Type} {P : σ → Prop}

/-- Where the action comes to its end, `P` holds if it held before. -/
def Upholds (P : σ → Prop) (x : Action σ α) : Prop :=
  ∀ s, P s → x.Ends s (fun _ t => P t) fun _ _ => True

namespace Upholds

theorem of_ok {x : Action σ α} {a : α} {s t : σ} (h : x.Upholds P) (hs : P s) (hx : x s = .ok a t) :
    P t := (h s hs).of_ok hx

theorem pure (a : α) : (Pure.pure a : Action σ α).Upholds P := fun _ hs => hs

theorem throw (e : Fault) : (MonadExcept.throw e : Action σ α).Upholds P := fun _ _ => trivial

theorem get : (MonadState.get : Action σ σ).Upholds P := fun _ hs => hs

theorem modify {g : σ → σ} (h : ∀ s, P s → P (g s)) : (modify g : Action σ Unit).Upholds P := h

theorem bind {x : Action σ α} {f : α → Action σ β} (hx : x.Upholds P) (hf : ∀ a, (f a).Upholds P) :
    (x >>= f).Upholds P := fun s hs =>
  .bind ((hx s hs).mono (fun a t ht => hf a t ht) fun _ _ _ => trivial)

/-- What is stopped comes to no end. -/
theorem throwBind (e : Fault) (f : α → Action σ β) :
    ((MonadExcept.throw e : Action σ α) >>= f).Upholds P := fun _ _ => trivial

theorem read (x : Except Malformed α) : (liftM x : Action σ α).Upholds P := by
  intro s hs
  cases x with
  | ok a => exact hs
  | error e => trivial

theorem lift (x : Except Fault α) : (liftM x : Action σ α).Upholds P := by
  intro s hs
  cases x with
  | ok a => exact hs
  | error e => trivial

theorem forM {f : α → Action σ PUnit} (hf : ∀ a, (f a).Upholds P) (xs : List α) :
    (xs.forM f).Upholds P := fun _ hs =>
  .forM (I := fun _ t => P t) (fun x _ t ht => hf x t ht) hs

theorem mapM {f : α → Action σ β} (hf : ∀ a, (f a).Upholds P) (xs : List α) :
    (xs.mapM f).Upholds P := by
  induction xs with
  | nil => exact .pure _
  | cons x xs ih =>
    rw [List.mapM_cons]
    exact (hf x).bind fun b => ih.bind fun bs => .pure _

theorem filterMapM {f : α → Action σ (Option β)} (hf : ∀ a, (f a).Upholds P) (xs : List α) :
    (xs.filterMapM f).Upholds P := by
  induction xs with
  | nil => exact .pure _
  | cons x xs ih =>
    rw [List.filterMapM_cons]
    refine (hf x).bind fun b => ?_
    cases b with
    | none => exact ih
    | some b => exact ih.bind fun bs => .pure _

end Upholds

end Action

open SymbolTrees.Server (Outcome Request)

/-- A recording that can be asked answers at once. -/
theorem Client.prompt_of_not_baffled {recording : Json} {request : Request}
    (h : ¬(Client.replay recording).Baffled request) (isLookup : Bool) (token : Token) :
    ∃ outcome, (Client.replay recording).prompt isLookup token request =
      [.of isLookup token outcome] := by
  cases ha : Server.Recording.answer recording request.method request.params with
  | ok value => exact ⟨.answer value, by simp only [Client.prompt, ha]⟩
  | error reason => exact absurd ⟨recording, reason, rfl, ha⟩ h

namespace Session

open SymbolTrees.Action (Upholds)

/-- Nothing was sent that a recording cannot be asked. -/
def Heard (s : Session) : Prop := ∀ r ∈ s.sent, ¬s.client.Baffled r.request

variable {s : Session} {id : TreeId} {ref : NodeRef} {inquiry : Inquiry}

/-! ### Asking -/

theorem heard_onRegistry {α : Type} (act : RegistryM α) : Upholds Heard (onRegistry act) := by
  intro s hs
  unfold Action.Ends onRegistry
  cases act s.registry with
  | ok a r => exact hs
  | error e r => trivial

theorem heard_newToken : Upholds Heard newToken := fun _ hs => hs

/-- **What is sent to the end was heard.** -/
theorem heard_send (token : Token) (isLookup : Bool) (request : Request) :
    Upholds Heard (send token isLookup request) := by
  intro s hs
  have posted (isOpen : Bool) (hheard : ¬s.client.Baffled request) :
      ∀ r ∈ s.sent ++ [⟨token, isLookup, request, isOpen⟩], ¬s.client.Baffled r.request := by
    intro r hr
    rcases List.mem_append.1 hr with hr | hr
    · exact hs r hr
    · rw [List.mem_singleton.1 hr]
      exact hheard
  unfold send
  refine .bind (.modify (.bind (.get (.bind (.modify ?_)))))
  dsimp only
  cases hc : s.client with
  | server =>
    rw [hc] at posted
    refine .pure (hc ▸ posted _ ?_)
    rintro ⟨recording, reason, he, -⟩
    cases he
  | replay recording =>
    refine .bindRead (fun value ha => .modify ?_) fun _ _ => trivial
    rw [hc] at posted
    refine hc ▸ posted _ ?_
    rintro ⟨other, reason, he, hb⟩
    obtain rfl := Client.replay.inj he
    cases hb.symm.trans ha

theorem heard_deadline : Upholds Heard deadline := .bind .get fun _ => .read _

theorem heard_enter (token : Token) (purpose : Purpose) : Upholds Heard (enter token purpose) :=
  .bind heard_deadline fun _ => .modify fun _ h => h

theorem heard_inquire (purpose : Purpose) (request : Request) :
    Upholds Heard (inquire purpose request) :=
  heard_newToken.bind fun _ => (heard_enter _ _).bind fun _ => (heard_send _ _ _).bind fun _ =>
    .pure _

theorem heard_askItems (uri : Text) (line character : Int) (direction : Direction) :
    Upholds Heard (askItems uri line character direction) := by
  unfold askItems
  split
  · exact .throw _
  · exact heard_inquire _ _

theorem heard_askChildren (id : TreeId) (ref : NodeRef) (direction : Option Direction) :
    Upholds Heard (askChildren id ref direction) := by
  unfold askChildren
  refine .bind .get fun s => ?_
  dsimp only
  split
  · exact .throw _
  · exact .throw _
  · split
    · exact .pure _
    · refine heard_newToken.bind fun token => .bind (.modify fun _ h => h) fun _ => ?_
      exact (heard_enter _ _).bind fun _ => (heard_send _ _ _).bind fun _ => .pure _

theorem heard_askSymbol (parent : Token) (index : Nat) (call : Call) :
    Upholds Heard (askSymbol parent index call) :=
  heard_newToken.bind fun _ => .bind (.modify fun _ h => h) fun _ => heard_send _ _ _

theorem heard_dropLookups (inquiry : Inquiry) : Upholds Heard (dropLookups inquiry) :=
  .modify fun _ h => h

theorem heard_giveUp (ref : NodeRef) : Upholds Heard (giveUp ref) := by
  unfold giveUp
  refine .bind .get fun s => .bind (.modify fun _ h => h) fun _ => ?_
  split
  · exact .pure _
  · refine .bind .get fun t => ?_
    split
    · exact .pure _
    · exact .bind (.modify fun _ h => h) fun _ => heard_dropLookups _

/-! ### Applying what has arrived -/

theorem heard_write (level : Level) (message : Text) : Upholds Heard (write level message) :=
  .modify fun _ h => h

theorem heard_remove (inquiry : Inquiry) : Upholds Heard (remove inquiry) :=
  .modify fun _ h => h

theorem heard_dropStale (inquiry : Inquiry) : Upholds Heard (dropStale inquiry) :=
  (heard_write _ _).bind fun _ => .pure _

theorem heard_fail (inquiry : Inquiry) (reason : Failure) :
    Upholds Heard (fail inquiry reason) := by
  unfold fail
  refine (heard_remove _).bind fun _ => (heard_dropLookups _).bind fun _ => .bind .get fun s => ?_
  split
  · exact .pure _
  · split
    · exact .bind (.modify fun _ h => h) fun _ => (heard_write _ _).bind fun _ => .pure _
    · exact (heard_write _ _).bind fun _ => .pure _

theorem heard_graft (inquiry : Inquiry) : Upholds Heard (graft inquiry) := by
  unfold graft
  refine (heard_remove _).bind fun _ => (heard_dropLookups _).bind fun _ => .bind .get fun s => ?_
  split
  · exact heard_dropStale _
  · split
    · exact .bind .get fun t => .bind (.modify fun _ h => h) fun _ => .pure _
    · exact .pure _

theorem heard_completeExpansion (inquiry : Inquiry) (ref : NodeRef) (direction : CallDirection)
    (outcome : Outcome) : Upholds Heard (completeExpansion inquiry ref direction outcome) := by
  unfold completeExpansion
  refine .bind .get fun s => ?_
  split
  · exact (heard_remove _).bind fun _ => heard_dropStale _
  refine .bind .get fun t => ?_
  split
  · refine .bind (.read _) fun calls => ?_
    split
    · exact heard_fail _ _
    refine .bind (.modify fun _ h => h) fun _ => .bind .get fun u => ?_
    split
    · refine heard_deadline.bind fun deadline => .bind (.modify fun _ h => h) fun _ => ?_
      exact .bind (.forM (fun entry => heard_askSymbol _ _ _) _) fun _ => .pure _
    · exact heard_graft _
  · exact heard_fail _ _

theorem heard_completeLookup (token : Token) (outcome : Outcome) :
    Upholds Heard (completeLookup token outcome) := by
  unfold completeLookup
  refine .bind .get fun s => ?_
  split
  · exact (heard_write _ _).bind fun _ => .pure _
  refine .bind (.modify fun _ h => h) fun _ => .bind .get fun t => ?_
  split
  · exact .pure _
  · refine .bind (.modify fun _ h => h) fun _ => ?_
    have entered {settled : Inquiry} {f : Session → Session} (hf : ∀ s, s.Heard → (f s).Heard) :
        Upholds Heard (do
          modify f
          if settled.lookups.isEmpty then graft settled else pure [] : SessionM _) := by
      refine .bind (.modify hf) fun _ => ?_
      split
      · exact heard_graft _
      · exact .pure _
    dsimp only
    split
    · exact .bind (.read _) fun _ => entered fun _ h => h
    · exact entered fun _ h => h
    · exact (heard_write _ _).bind fun _ => entered fun _ h => h

theorem heard_completeItems (inquiry : Inquiry) (outcome : Outcome) :
    Upholds Heard (completeItems inquiry outcome) := by
  unfold completeItems
  split
  · refine .bind (.read _) fun items => ?_
    split
    · exact heard_fail _ _
    · exact (heard_remove _).bind fun _ => .pure _
  · exact heard_fail _ _

theorem heard_completeOutline (inquiry : Inquiry) (uri : Text) (outcome : Outcome) :
    Upholds Heard (completeOutline inquiry uri outcome) := by
  unfold completeOutline
  split
  · split
    · exact heard_fail _ _
    · exact (heard_remove _).bind fun _ => .bind (.read _) fun _ => .pure _
  · exact heard_fail _ _

theorem heard_complete (arrival : Arrival) : Upholds Heard (complete arrival) := by
  cases arrival with
  | lookup token outcome => exact heard_completeLookup _ _
  | reply token outcome =>
    unfold complete
    refine .bind .get fun s => ?_
    split
    · exact (heard_write _ _).bind fun _ => .pure _
    · split
      · exact heard_completeExpansion _ _ _ _
      · exact heard_completeItems _ _
      · exact heard_completeOutline _ _ _

theorem heard_applyArrivals (n : Nat) : Upholds Heard (applyArrivals n) := by
  induction n with
  | zero => exact .pure _
  | succ n ih =>
    unfold applyArrivals
    refine .bind .get fun s => ?_
    split
    · exact .pure _
    · refine .bind (.modify fun _ h => h) fun _ => (heard_complete _).bind fun first => ?_
      exact ih.bind fun more => .pure _

theorem heard_expire (inquiry : Inquiry) : Upholds Heard (expire inquiry) := by
  unfold expire
  refine .bind .get fun s => ?_
  split
  · exact .pure _
  split
  · exact (heard_write _ _).bind fun _ => heard_graft _
  · exact .bind .get fun t => heard_fail _ _

theorem heard_drain : Upholds Heard drain := by
  unfold drain
  refine .bind .get fun s => (heard_applyArrivals _).bind fun first => ?_
  refine .bind .get fun t => (heard_applyArrivals _).bind fun second => ?_
  exact .bind .get fun u => .bind (.mapM (fun entry => heard_expire _) _) fun expired => .pure _

/-! ### Trees -/

theorem heard_requireOpen (id : TreeId) : Upholds Heard (requireOpen id) := by
  unfold requireOpen
  refine .bind .get fun s => ?_
  split
  · exact .throw _
  · exact .pure _

theorem heard_requireMember (id : TreeId) (ref : NodeRef) :
    Upholds Heard (requireMember id ref) := by
  unfold requireMember
  refine (heard_requireOpen _).bind fun _ => .bind .get fun s => ?_
  split
  · exact .throw _
  · exact .pure _

theorem heard_render (id : TreeId) : Upholds Heard (render id) := by
  intro s hs
  unfold render
  refine .bind (checks_open.mono ?_ fun _ _ _ => trivial)
  rintro _ _ ⟨rfl, -⟩
  exact .bind (.get (.bindRead (fun view _ => .bind (.modify (.pure hs))) fun _ _ => trivial))

theorem heard_setExpanded (ref : NodeRef) (expanded : Bool) :
    Upholds Heard (setExpanded ref expanded) := .modify fun _ h => h

theorem heard_putTree (t : Tree) : Upholds Heard (putTree t) :=
  (heard_onRegistry _).bind fun _ => (heard_onRegistry _).bind fun _ =>
    (heard_write _ _).bind fun _ => .pure _

theorem heard_openCalls (item : CallItem) (direction : Direction) :
    Upholds Heard (openCalls item direction) := by
  unfold openCalls
  split
  · exact .throwBind _ _
  refine (heard_onRegistry _).bind fun handle => .bind (.lift _) fun root => ?_
  refine .bind (.lift _) fun t => (heard_putTree _).bind fun id => .bind .get fun s => ?_
  exact (heard_askChildren _ _ _).bind fun _ => (heard_render _).bind fun _ => .pure _

theorem heard_openOutline (uri : Text) (root : Except Fault Node) :
    Upholds Heard (openOutline uri root) :=
  .bind (heard_onRegistry _) fun _ => .bind (.lift _) fun _ => .bind (.lift _) fun _ =>
    (heard_putTree _).bind fun _ => (heard_render _).bind fun _ => .pure _

theorem heard_expand (id : TreeId) (ref : NodeRef) : Upholds Heard (expand id ref) := by
  unfold expand
  refine (heard_requireMember _ _).bind fun _ => .bind .get fun s => ?_
  dsimp only
  split
  · split
    · exact (heard_setExpanded _ _).bind fun _ => (heard_render _).bind fun _ => .pure _
    · exact .pure _
  · split
    · exact .pure _
    · exact heard_askChildren _ _ _

theorem heard_collapse (id : TreeId) (ref : NodeRef) : Upholds Heard (collapse id ref) := by
  unfold collapse
  refine (heard_requireMember _ _).bind fun _ => .bind .get fun s => ?_
  dsimp only
  split
  · exact .throwBind _ _
  refine (heard_giveUp _).bind fun _ => ?_
  split
  · exact (heard_setExpanded _ _).bind fun _ => (heard_render _).bind fun _ => .pure _
  · exact .pure _

theorem heard_toggle (id : TreeId) (ref : NodeRef) : Upholds Heard (toggle id ref) := by
  unfold toggle
  refine .bind .get fun s => ?_
  dsimp only
  split
  · exact (heard_collapse _ _).bind fun _ => .pure _
  · exact heard_expand _ _

theorem heard_focus (id : TreeId) (ref : NodeRef) : Upholds Heard (focus id ref) := by
  unfold focus
  refine (heard_requireMember _ _).bind fun _ => (heard_onRegistry _).bind fun handle => ?_
  refine .bind .get fun s => .bind (.lift _) fun t => (heard_putTree _).bind fun new => ?_
  split
  · exact .bind .get fun u => (heard_askChildren _ _ _).bind fun _ =>
      (heard_render _).bind fun _ => .pure _
  · exact (heard_render _).bind fun _ => .pure _

theorem heard_switchDirection (id : TreeId) : Upholds Heard (switchDirection id) := by
  unfold switchDirection
  refine (heard_requireOpen _).bind fun _ => .bind .get fun s => ?_
  dsimp only
  split
  · exact .throwBind _ _
  split
  · exact .throwBind _ _
  refine .bind .get fun t => (heard_giveUp _).bind fun _ => ?_
  refine .bind (.modify fun _ h => h) fun _ => .bind (.lift _) fun direction => ?_
  refine .bind (.modify fun _ h => h) fun _ => .bind .get fun u => ?_
  exact (heard_askChildren _ _ _).bind fun _ => (heard_render _).bind fun _ => .pure _

/-! ### Events -/

theorem heard_act (r : Resolution) : Upholds Heard (act r) := by
  unfold act
  split
  · exact .bind (.modify fun _ h => h) fun _ => .pure _
  · exact (heard_openCalls _ _).bind fun _ => .pure _
  · exact (heard_openOutline _ _).bind fun _ => .pure _
  · exact .pure _
  · exact .pure _

theorem heard_conclude (results : List Resolution) : Upholds Heard (conclude results) := by
  unfold conclude
  refine .bind (.filterMapM heard_act _) fun grown => ?_
  refine .bind (.forM (fun id => ?_) _) fun _ => .pure _
  refine .bind .get fun s => ?_
  split
  · exact (heard_render _).bind fun _ => .pure _
  · exact .pure _

theorem heard_pump : Upholds Heard pump := heard_drain.bind heard_conclude

/-- **An event that comes to its end was heard** in all that it sent. -/
theorem heard_event (h : s.Sound) (event : Event) (hs : s.Heard) :
    event.act.Ends s (fun _ t => t.Heard) fun _ _ => True := by
  have upholds {α : Type} {x : SessionM α} (hx : Upholds Heard x) (f : α → Report) :
      (x >>= fun a => pure (f a)).Ends s (fun _ t => t.Heard) fun _ _ => True :=
    hx.bind (fun _ => .pure _) s hs
  -- What is not due is not sent.
  have rests (ho : event.isOwn) (hp : event ≠ .pump) (hd : ∀ request, ¬Due s event request) :
      event.act.Ends s (fun _ t => t.Heard) fun _ _ => True := by
    refine (pays_event h ho hp).mono ?_ fun _ _ _ => trivial
    rintro report t ⟨token, hmeets, -⟩
    have hmakes := hmeets.makes hd
    unfold Heard
    rw [hmakes.sent, hmakes.given.2.1, List.append_nil]
    exact hs
  cases event with
  | openCalls item direction => exact upholds (heard_openCalls _ _) _
  | startCalls uri line character direction => exact upholds (heard_askItems _ _ _ _) _
  | startOutline uri => exact upholds (heard_inquire _ _) _
  | expand id ref => exact upholds (heard_expand _ _) _
  | toggle id ref => exact upholds (heard_toggle _ _) _
  | focus id ref => exact upholds (heard_focus _ _) _
  | switchDirection id => exact upholds (heard_switchDirection _) _
  | pump => exact upholds heard_pump _
  | tick now => exact hs
  | settle i outcome =>
    unfold Action.Ends
    by_cases hr : ∃ request, s.sent[i]? = some request ∧ request.isOpen
    · obtain ⟨request, hr, ho⟩ := hr
      rw [settle_of_isOpen hr ho]
      intro r hm
      rcases of_mem_settle hr hm with rfl | hm
      · exact hs request (List.mem_of_getElem? hr)
      · exact hs r hm
    · rw [settle_of_not_isOpen fun request hi ho => hr ⟨request, hi, ho⟩]
      exact hs
  | _ => exact rests rfl (by simp) fun _ hd => by cases hd

end Session

end SymbolTrees
