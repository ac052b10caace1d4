import SymbolTrees.Proofs.Session.Sending
import SymbolTrees.Proofs.Session.Settled

/-!
# Economy

A request for calls is sent where one is due and nowhere else, and once: when a tree of calls is
opened or turned round, when a node is copied or unfolded below which nothing is known, and when a
session is pumped, for every item that a tree is opened for. All else that is sent then are lookups.
-/

namespace SymbolTrees

open SymbolTrees.Server (Request)

/-- The request that is made when a tree is opened for the item of an answer. -/
def Resolution.opening? (r : Resolution) : Option Request :=
  match r.result, r.purpose with
  | .items (item :: _), .openCalls _ direction => some (.calls direction item)
  | _, _ => none

/-- It is told apart from the two reasons for which a node cannot be asked for. -/
theorem Fault.askable {e : Fault} (h : e.isUnaskable = false) :
    (∀ direction, e ≠ .refused (.noCallsIn direction)) ∧ ∀ name, e ≠ .refused (.noCallItem name) := by
  constructor
  · rintro direction rfl
    cases h
  · rintro name rfl
    cases h

/-- Whether requests were answered does not matter for what was sent. -/
theorem map_settled_modify {sent : List Sent} {i : Nat} :
    (sent.modify i Sent.settled).map Sent.settled = sent.map Sent.settled := by
  refine List.ext_getElem? fun j => ?_
  rw [List.getElem?_map, List.getElem?_map, List.getElem?_modify]
  by_cases hj : i = j
  · cases sent[j]? <;> simp [hj, Sent.settled]
  · simp [hj]

namespace Session

variable {s t u : Session} {event : Event} {e : Fault} {posts more : List Sent}
  {results : List Resolution} {inquiry : Inquiry} {R : Session → List Resolution → Session → Prop}

/-- What is said of how an event ends, said of its answer and of the session after it. -/
theorem answer_of_ends {Q : Report → Session → Prop} {E : Fault → Session → Prop}
    (h : event.act.Ends s Q E) :
    (∃ report, event.act.answer s = .ok report ∧ Q report (s.step event)) ∨
      ∃ e, event.act.answer s = .error e ∧ E e (s.step event) := by
  apply Action.Ends.told (P := fun a t => (∃ report, a = .ok report ∧ Q report t) ∨
    ∃ e, a = .error e ∧ E e t)
  exact h.mono (fun report _ hq => .inl ⟨report, rfl, hq⟩) fun e _ he => .inr ⟨e, rfl, he⟩

/-! ### Events that do not pump -/

/-- What the event is for is there. -/
def Event.Addresses (s : Session) : Event → Prop
  | .openCalls _ direction | .startCalls _ _ _ direction => direction.calls?.isSome
  | .startOutline _ => True
  | .expand id ref | .toggle id ref | .focus id ref => s.Member id ref
  | .switchDirection id => s.isOpen id ∧ (s.tree id).direction.calls?.isSome
  | _ => False

theorem Due.addresses {request : Request} (h : Due s event request) : event.Addresses s := by
  cases h with
  | openCalls | startCalls => rfl
  | startOutline => trivial
  | expand wants => exact wants.casesOn fun askable => askable.member
  | toggle wants => exact wants.casesOn fun askable => askable.member
  | focus member => exact member
  | switchDirection isOpen isCalls =>
    refine ⟨isOpen, ?_⟩
    rw [isCalls]
    rfl

theorem due_openCalls {item : CallItem} {direction : CallDirection} {request : Request} :
    Due s (.openCalls item (.calls direction)) request ↔ request = .calls direction item :=
  ⟨fun h => by cases h; rfl, fun h => h ▸ .openCalls item direction⟩

theorem due_startCalls {uri : Text} {line character : Int} {direction : CallDirection}
    {request : Request} : Due s (.startCalls uri line character (.calls direction)) request ↔
      request = .prepareCalls uri line character :=
  ⟨fun h => by cases h; rfl, fun h => h ▸ .startCalls uri line character direction⟩

theorem due_startOutline {uri : Text} {request : Request} :
    Due s (.startOutline uri) request ↔ request = .documentSymbols uri :=
  ⟨fun h => by cases h; rfl, fun h => h ▸ .startOutline uri⟩

/-- The event has sent what is due, and says so. -/
def Pays (s : Session) (event : Event) : Report → Session → Prop := fun report t =>
  ∃ token, s.Meets (Due s event) token t ∧ ∀ k, report = .token k → k = token

/-- The event has failed for nothing that it was asked of, or it was for something that is not
there. -/
structure Declines (s : Session) (event : Event) (e : Fault) (t : Session) : Prop where
  askable : e.isUnaskable = false
  falls : event.Addresses s → s.Falls (Due s event) e t
  refrains : ¬event.Addresses s → s.Makes [] t

theorem Falls.declines (h : s.Falls (Due s event) e t) (ha : event.Addresses s) :
    Declines s event e t :=
  ⟨h.1.not_isUnaskable, fun _ => h, fun hn => absurd ha hn⟩

theorem Refrains.declines (h : s.Refrains e t) (ha : ¬event.Addresses s) : Declines s event e t :=
  ⟨h.1, fun hn => absurd hn ha, fun _ => h.2⟩

/-- Nothing is done about a node that is not there. -/
theorem rests_absent {α : Type} {id : TreeId} {ref : NodeRef} (hm : ¬s.Member id ref)
    (f : Unit → SessionM α) :
    (requireMember id ref >>= f).Ends s (fun _ _ => False) s.Refrains := by
  refine .bind (checks_member.mono ?_ ?_)
  · rintro _ _ ⟨-, hm'⟩
    exact absurd hm' hm
  · rintro e t ⟨ht, ⟨what, rfl⟩, -⟩
    exact refrains_missing ht

/-- For an event that can send nothing. -/
theorem pays_of_rests {α : Type} {x : SessionM α} {f : α → Report}
    (hx : x.Ends s (fun _ t => s.Makes [] t) s.Refrains) (ha : ¬event.Addresses s)
    (hf : ∀ a k, f a ≠ .token k) :
    (x >>= fun a => pure (f a)).Ends s (Pays s event) (Declines s event) := by
  have hd : ∀ request, ¬Due s event request := fun request hdue => ha hdue.addresses
  refine .bind (hx.mono (fun a t hm => .pure ⟨none, hm.meets hd, ?_⟩) fun _ _ h => h.declines ha)
  exact fun k hk => absurd hk (hf a k)

/-- For an event that sends what is due. -/
theorem pays_of_sends {α : Type} {x : SessionM α} {f : α → Report} {due : Request → Prop}
    {Q : α → Session → Prop} (hd : ∀ request, due request ↔ Due s event request)
    (ha : event.Addresses s) (hx : x.Ends s Q (s.Falls due))
    (hq : ∀ a t, Q a t → ∃ token, s.Meets due token t ∧ ∀ k, f a = .token k → k = token) :
    (x >>= fun a => pure (f a)).Ends s (Pays s event) (Declines s event) := by
  refine .bind (hx.mono (fun a t h => .pure ?_) fun _ _ h => ?_)
  · obtain ⟨token, hmeets, hk⟩ := hq a t h
    exact ⟨token, hmeets.after (.refl s) hd, hk⟩
  · exact (h.after (.refl s) hd).declines ha

/-- For an event that is refused for its direction. -/
theorem pays_of_refused {x : SessionM Report} {e : Fault} (he : e.isUnaskable = false)
    (ha : ¬event.Addresses s) (hx : x s = .error e s) :
    x.Ends s (Pays s event) (Declines s event) := by
  unfold Action.Ends
  rw [hx]
  exact ((Makes.refl s).refrains he).declines ha

/-- For an event about a node that is not there: it is looked for first. -/
theorem pays_of_absent {α : Type} {id : TreeId} {ref : NodeRef} {f : Unit → SessionM α}
    {g : α → Report} (ha : ¬event.Addresses s) (hm : ¬s.Member id ref) :
    ((requireMember id ref >>= f) >>= fun a => pure (g a)).Ends s (Pays s event)
      (Declines s event) :=
  .bind ((rests_absent hm f).mono (fun _ _ h => h.elim) fun _ _ h => h.declines ha)

theorem rests_toggle {id : TreeId} {ref : NodeRef} (hm : ¬s.Member id ref) :
    (toggle id ref).Ends s (fun _ _ => False) s.Refrains :=
  ends_toggle (fun _ _ => rests_absent hm _) (rests_absent hm _)

theorem rests_switchDirection {id : TreeId} (h : s.Sound)
    (ha : ¬(Event.switchDirection id).Addresses s) :
    (switchDirection id).Ends s (fun _ _ => False) s.Refrains := by
  refine ends_switchDirection h (fun _ _ => refrains_missing rfl)
    (fun _ => (Makes.refl s).refrains rfl) fun direction ho hd => absurd ⟨ho, ?_⟩ ha
  rw [hd]
  rfl

theorem Report.eq_of_token {j k : Option Token} (h : Report.token k = .token j) : j = k :=
  (Report.token.inj h).symm

/-- **What an event sends is what is due.** -/
theorem pays_event (h : s.Sound) (ho : event.isOwn) (hp : event ≠ .pump) :
    event.act.Ends s (Pays s event) (Declines s event) := by
  cases event with
  | openCalls item direction =>
    cases direction with
    | calls direction =>
      refine pays_of_sends (fun _ => due_openCalls.symm) rfl (sends_openCalls h item direction) ?_
      rintro a t ⟨token, hmeets⟩
      exact ⟨token, hmeets, fun k hk => by cases hk⟩
    | outline => exact pays_of_refused rfl (by simp [Event.Addresses, Direction.calls?]) rfl
    | unknown name => exact pays_of_refused rfl (by simp [Event.Addresses, Direction.calls?]) rfl
  | startCalls uri line character direction =>
    cases direction with
    | calls direction =>
      exact pays_of_sends (fun _ => due_startCalls.symm) rfl
        (sends_inquire (.calls uri line character direction))
        fun a t hmeets => ⟨_, hmeets, fun _ => Report.eq_of_token⟩
    | outline => exact pays_of_refused rfl (by simp [Event.Addresses, Direction.calls?]) rfl
    | unknown name => exact pays_of_refused rfl (by simp [Event.Addresses, Direction.calls?]) rfl
  | startOutline uri =>
    exact pays_of_sends (fun _ => due_startOutline.symm) trivial (sends_inquire (.outline uri))
      fun a t hmeets => ⟨_, hmeets, fun _ => Report.eq_of_token⟩
  | expand id ref =>
    by_cases hm : s.Member id ref
    · refine pays_of_sends (fun request => ⟨.expand, fun hd => ?_⟩) hm (sends_expand h hm)
        fun a t hmeets => ⟨_, hmeets, fun _ => Report.eq_of_token⟩
      cases hd
      assumption
    · exact pays_of_absent hm hm
  | toggle id ref =>
    by_cases hm : s.Member id ref
    · refine pays_of_sends (fun request => ⟨.toggle, fun hd => ?_⟩) hm (sends_toggle h hm)
        fun a t hmeets => ⟨_, hmeets, fun _ => Report.eq_of_token⟩
      cases hd
      assumption
    · exact .bind ((rests_toggle hm).mono (fun _ _ h => h.elim) fun _ _ h => h.declines hm)
  | focus id ref =>
    by_cases hm : s.Member id ref
    · refine pays_of_sends (fun _ => .rfl) hm (sends_focus h hm) ?_
      rintro a t ⟨token, hmeets⟩
      exact ⟨token, hmeets, fun k hk => by cases hk⟩
    · exact pays_of_absent hm hm
  | switchDirection id =>
    by_cases ha : (Event.switchDirection id).Addresses s
    · exact pays_of_sends (fun _ => .rfl) ha (sends_switchDirection h ha.1 ha.2)
        fun a t hmeets => ⟨_, hmeets, fun _ => Report.eq_of_token⟩
    · exact .bind ((rests_switchDirection h ha).mono (fun _ _ h => h.elim)
        fun _ _ h => h.declines ha)
  | openOutline uri entries =>
    exact pays_of_rests (sends_openOutline h uri (fun _ hn => ⟨entries, hn⟩)
      fun _ he => isRejection_of_outline he) not_false fun _ _ hk => by cases hk
  | showOutline uri answer =>
    exact pays_of_rests (sends_openOutline h uri (fun _ hn => outline_of_outlineOfJson hn)
      fun _ he => isRejection_of_outlineOfJson he) not_false fun _ _ hk => by cases hk
  | collapse id ref =>
    exact pays_of_rests (f := fun _ => .nothing) (rests_collapse h id ref) not_false
      fun _ _ hk => by cases hk
  | jump id ref => exact pays_of_rests (rests_jump id ref) not_false fun _ _ hk => by cases hk
  | details id ref => exact pays_of_rests (rests_details id ref) not_false fun _ _ hk => by cases hk
  | render id => exact pays_of_rests (rests_render id) not_false fun _ _ hk => by cases hk
  | close handle => exact pays_of_rests (rests_close h handle) not_false fun _ _ hk => by cases hk
  | setHidden handle hidden =>
    exact pays_of_rests (rests_setHidden handle hidden) not_false fun _ _ hk => by cases hk
  | toggleHidden kind =>
    exact pays_of_rests (rests_toggleHidden kind) not_false fun _ _ hk => by cases hk
  | pump => exact absurd rfl hp
  | settle request outcome => cases ho
  | tick now => cases ho

/-! ### Lookups -/

/-- The lookups for the symbols of calls, sent one after the other from number `k` on. -/
def searches (client : Client) : Token → List Call → List Sent
  | _, [] => []
  | k, call :: rest =>
    ⟨k, true, .workspaceSymbols call.item.name, client.isServer⟩ :: searches client (k + 1) rest

theorem sent_seeking (inquiry : Inquiry) (calls : List Call) (index : Nat) :
    (s.seeking inquiry calls index).sent = s.sent ++ searches s.client s.nextToken calls := by
  induction calls generalizing s inquiry index with
  | nil => exact (List.append_nil _).symm
  | cons call rest ih => exact (ih _ _).trans (List.append_assoc ..)

theorem isLookup_of_mem_searches {client : Client} {k : Token} {calls : List Call} {r : Sent}
    (hr : r ∈ searches client k calls) :
    r.isLookup ∧ ∃ call ∈ calls, r.request = .workspaceSymbols call.item.name := by
  induction calls generalizing k with
  | nil => cases hr
  | cons call rest ih =>
    rcases List.mem_cons.1 hr with rfl | hr
    · exact ⟨rfl, call, List.mem_cons_self, rfl⟩
    · obtain ⟨hl, other, ho, he⟩ := ih hr
      exact ⟨hl, other, List.mem_cons_of_mem _ ho, he⟩

/-- Only lookups were sent, and none unless symbols are to be looked up. -/
structure Seeks (s : Session) (posts : List Sent) (t : Session) : Prop where
  settings : t.settings = s.settings
  sent : t.sent = s.sent ++ posts
  lookups : ∀ r ∈ posts, r.isLookup ∧ (∃ name, r.request = .workspaceSymbols name) ∧
    s.settings.resolveSymbols

namespace Seeks

theorem nothing (settings : t.settings = s.settings) (sent : t.sent = s.sent) : s.Seeks [] t :=
  ⟨settings, by simp [sent], by simp⟩

theorem trans (h : s.Seeks posts t) (h' : t.Seeks more u) : s.Seeks (posts ++ more) u := by
  refine ⟨h'.settings.trans h.settings, by rw [h'.sent, h.sent, List.append_assoc], ?_⟩
  intro r hr
  rcases List.mem_append.1 hr with hr | hr
  · exact h.lookups r hr
  · exact h.settings ▸ h'.lookups r hr

/-- The symbols of calls are looked up. -/
theorem seeking (inquiry : Inquiry) (calls : List Call) (hr : s.settings.resolveSymbols) :
    s.Seeks (searches s.client s.nextToken calls) (s.seeking inquiry calls 0) := by
  refine ⟨(frame_seeking calls 0).settings, sent_seeking inquiry calls 0, fun r hm => ?_⟩
  obtain ⟨hl, call, -, he⟩ := isLookup_of_mem_searches hm
  exact ⟨hl, ⟨_, he⟩, hr⟩

end Seeks

theorem Effect.seeks (he : Effect s results t) : ∃ posts, s.Seeks posts t := by
  cases he with
  | refuse =>
    refine ⟨[], .nothing ?_ ?_⟩
    · exact frame_failed.settings
    · unfold failed
      split <;> rfl
  | @seek token value rest inquiry id ref generation direction calls deadline arrivals pending purpose
      live read some resolves timely =>
    have hput : s.Seeks [] { s.taken rest with
        pending := s.pending.put inquiry.token (inquiry.asking calls deadline) } :=
      .nothing rfl rfl
    exact ⟨_, hput.trans (.seeking _ calls resolves)⟩
  | _ => exact ⟨[], .nothing rfl rfl⟩

theorem Expiry.seeks (he : Expiry s results t) : s.Seeks [] t := by
  cases he with
  | timeOut =>
    refine .nothing frame_failed.settings ?_
    unfold failed
    split <;> rfl
  | _ => exact .nothing rfl rfl

theorem Chain.seeks (hR : ∀ u v results, R u results v → ∃ posts, u.Seeks posts v)
    (hc : Chain R s results t) : ∃ posts, s.Seeks posts t := by
  refine hc.keeps (P := fun u => ∃ posts, s.Seeks posts u) ⟨[], .nothing rfl rfl⟩ ?_ ?_
  · rintro u journal ⟨posts, hu⟩ -
    exact ⟨posts, hu.settings, hu.sent, hu.lookups⟩
  · rintro u v more ⟨posts, hu⟩ hv
    obtain ⟨posts', hv⟩ := hR _ _ _ hv
    exact ⟨_, hu.trans hv⟩

theorem Stumbles.seeks (hs : s.Stumbles t) : ∃ posts, s.Seeks posts t := by
  cases hs with
  | @baffled token value rest inquiry id ref generation direction before after call deadline arrivals
      pending purpose live read resolves timely =>
    have hput : s.Seeks [] { s.taken rest with
        pending := s.pending.put inquiry.token
          (inquiry.asking (before ++ call :: after) deadline) } := .nothing rfl rfl
    exact ⟨_, hput.trans (.seeking _ (before ++ [call]) resolves)⟩
  | _ => exact ⟨[], .nothing rfl rfl⟩

/-- While a session is drained, only lookups are sent. -/
theorem seeks_drain (h : s.Steady) : drain.Ends s (fun _ t => ∃ posts, s.Seeks posts t)
    fun e t => IsMalformed e ∧ ∃ posts, s.Seeks posts t := by
  refine (ends_drain h).mono ?_ ?_
  · intro results t hdrains
    refine hdrains.chain.seeks fun u v more hp => ?_
    cases hp with
    | effect effect => exact effect.seeks
    | expiry expiry => exact ⟨[], expiry.seeks⟩
  · rintro e t ⟨he, results, u, hc, hs⟩
    obtain ⟨posts, hu⟩ := hc.seeks fun _ _ _ => Effect.seeks
    obtain ⟨more, ht⟩ := hs.seeks
    exact ⟨he, _, hu.trans ht⟩

/-! ### Pumping -/

/-- The requests were sent, and no others. -/
def Orders (s : Session) (requests : List Request) (t : Session) : Prop :=
  ∃ posts, s.Makes posts t ∧ posts.map Sent.request = requests

/-- The first of the requests were sent, and no others. -/
def Begins (s : Session) (requests : List Request) : Fault → Session → Prop := fun e t =>
  e.isUnaskable = false ∧ ∃ first, first <+: requests ∧ s.Orders first t

theorem Orders.trans {first second : List Request} (h : s.Orders first t)
    (h' : t.Orders second u) : s.Orders (first ++ second) u := by
  obtain ⟨posts, hmakes, rfl⟩ := h
  obtain ⟨more, hmakes', rfl⟩ := h'
  exact ⟨posts ++ more, hmakes.trans hmakes', List.map_append⟩

theorem Begins.after {first second : List Request} (h : s.Orders first t)
    (h' : t.Begins second e u) : s.Begins (first ++ second) e u := by
  obtain ⟨he, more, ⟨rest, rfl⟩, hmore⟩ := h'
  exact ⟨he, first ++ more, ⟨rest, List.append_assoc ..⟩, h.trans hmore⟩

theorem Makes.orders (h : s.Makes [] t) : s.Orders [] t := ⟨[], h, rfl⟩

theorem Makes.begins (h : s.Makes [] t) (he : e.isUnaskable = false) (requests : List Request) :
    s.Begins requests e t := ⟨he, [], List.nil_prefix, h.orders⟩

/-- The one request that is due was sent. -/
theorem Meets.orders {request : Request} {token : Option Token}
    (h : s.Meets (· = request) token t) : s.Orders [request] t := by
  obtain ⟨posts, hmakes, hsends⟩ := h
  refine ⟨posts, hmakes, ?_⟩
  cases hsends with
  | nothing idle => exact absurd rfl (idle request)
  | request k isDue =>
    rw [← isDue]
    rfl

theorem Falls.begins {request : Request} (h : s.Falls (· = request) e t) :
    s.Begins [request] e t := by
  refine ⟨h.1.not_isUnaskable, ?_⟩
  cases h.2 with
  | untimely late makes => exact ⟨[], List.nil_prefix, makes.orders⟩
  | baffled isDue baffled token meets => exact ⟨_, List.prefix_rfl, meets.orders⟩
  | undrawn isOpen undrawn token meets => exact ⟨_, List.prefix_rfl, meets.orders⟩

/-- A request that ended leads to the one request for the tree that is opened, if there is one. -/
theorem orders_act (h : s.Sound) (r : Resolution) : (act r).Ends s
    (fun _ t => s.Orders r.opening?.toList t) (s.Begins r.opening?.toList) := by
  obtain ⟨token, purpose, result⟩ := r
  have idle : s.Orders [] s := (Makes.refl s).orders
  cases result with
  | failure reason =>
    have hnotified (journal : Journal) : s.Makes [] { s with journal := journal } :=
      .nothing ⟨rfl, rfl, rfl⟩ rfl rfl
    exact .bind (.modify (.pure (hnotified _).orders))
  | children nodes => cases purpose <;> exact .pure idle
  | items items =>
    cases items with
    | nil => cases purpose <;> exact .pure idle
    | cons item rest =>
      cases purpose with
      | openCalls uri direction =>
        refine .bind ((sends_openCalls h item direction).mono ?_ fun _ _ h => h.begins)
        rintro _ t ⟨token, hmeets⟩
        exact .pure hmeets.orders
      | _ => exact .pure idle
  | symbols symbols =>
    cases purpose with
    | openOutline uri =>
      exact .bind ((sends_openOutline h uri (fun _ hn => outline_of_outlineOfJson hn)
        fun _ he => isRejection_of_outlineOfJson he).mono (fun _ _ h => .pure h.orders)
        fun _ _ h => h.2.begins h.1 _)
    | _ => exact .pure idle

theorem orders_acts (h : s.Sound) (results : List Resolution) : (results.filterMapM act).Ends s
    (fun _ t => t.Sound ∧ s.Orders (results.filterMap Resolution.opening?) t)
    (s.Begins (results.filterMap Resolution.opening?)) := by
  induction results generalizing s with
  | nil => exact .pure ⟨h, (Makes.refl s).orders⟩
  | cons r rest ih =>
    rw [List.filterMapM_cons, filterMap_cons_toList]
    refine .bind (((orders_act h r).and (lock_act (twins_self h) r).moves).mono ?_ ?_)
    · rintro grown t ⟨horders, hmoves⟩
      have hrest := (ih (h.moves hmoves)).mono
        (R := fun _ u => u.Sound ∧ s.Orders (r.opening?.toList ++ rest.filterMap _) u)
        (fun _ _ h => ⟨h.1, horders.trans h.2⟩) fun _ _ h => h.after horders
      cases grown with
      | none => exact hrest
      | some id => exact .bind (hrest.mono (fun _ _ h => .pure h) fun _ _ h => h)
    · rintro e t ⟨⟨he, first, ⟨more, hfirst⟩, horders⟩, -⟩
      exact ⟨he, first, ⟨more ++ _, by rw [← List.append_assoc, hfirst]⟩, horders⟩

theorem rests_redraw (ids : List TreeId) :
    Action.Ends (ids.forM fun id => do if (← get).isOpen id then let _ ← render id) s
      (fun _ t => s.Makes [] t) s.Refrains := by
  refine ends_redrawing (I := fun _ t => s.Makes [] t) (.refl s) (fun _ _ _ ht _ => ht) ?_
  intro id rest t ht _
  exact (rests_render id).mono (fun _ _ h => h.after ht) fun _ _ h => (h.2.after ht).refrains h.1

/-- What is sent while a session is pumped: lookups, and then a request for every tree of calls that
is opened, as far as that gets. -/
def Supplies (s : Session) (openings : List Request) (t : Session) : Prop :=
  ∃ lookups calls, t.sent = s.sent ++ lookups ++ calls ∧
    (∀ r ∈ lookups, r.isLookup ∧ (∃ name, r.request = .workspaceSymbols name) ∧
      s.settings.resolveSymbols) ∧
    (∀ r ∈ calls, r.isLookup = false) ∧ calls.map Sent.request = openings

theorem Orders.supplies {requests : List Request} (h : t.Orders requests u)
    (hs : s.Seeks posts t) : s.Supplies requests u := by
  obtain ⟨calls, hmakes, hrequests⟩ := h
  exact ⟨posts, calls, by rw [hmakes.sent, hs.sent], hs.lookups, hmakes.plain, hrequests⟩

/-- What is done once a session is drained: trees are opened, failures are notified, and the trees
that grew are drawn. -/
def conclude (results : List Resolution) : SessionM (List Resolution) := do
  let grown ← results.filterMapM act
  grown.eraseDups.forM fun id => do
    if (← get).isOpen id then
      let _ ← render id
  pure results

theorem pump_eq : pump = drain >>= conclude := rfl

theorem orders_conclude (h : s.Sound) (results : List Resolution) : (conclude results).Ends s
    (fun reported t => reported = results ∧ s.Orders (results.filterMap Resolution.opening?) t)
    (s.Begins (results.filterMap Resolution.opening?)) := by
  have hrest {t u : Session} (ht : s.Orders (results.filterMap Resolution.opening?) t)
      (hu : t.Makes [] u) : s.Orders (results.filterMap Resolution.opening?) u :=
    List.append_nil (results.filterMap _) ▸ ht.trans hu.orders
  refine .bind ((orders_acts h results).mono ?_ fun _ _ h => h)
  rintro grown t ⟨-, ht⟩
  refine .bind ((rests_redraw _).mono (fun _ _ hu => .pure ⟨rfl, hrest ht hu⟩) ?_)
  exact fun e u hu => ⟨hu.1, _, List.prefix_rfl, hrest ht hu.2⟩

/-- **To pump a session is to ask for the trees that are opened.** -/
theorem supplies_pump (h : s.Steady) : pump.Ends s
    (fun results t => Event.pump.reports s = results ∧
      s.Supplies (results.filterMap Resolution.opening?) t)
    fun e t => e.isUnaskable = false ∧
      ∃ first, first <+: (Event.pump.reports s).filterMap Resolution.opening? ∧
        s.Supplies first t := by
  have hdrain := (seeks_drain h).and (ends_drain h)
  have hreports : drain.Ends s (fun results _ => Event.pump.reports s = results)
      fun _ _ => Event.pump.reports s = [] := by
    unfold Action.Ends Event.reports
    cases drain s <;> rfl
  rw [pump_eq]
  refine .bind ((hdrain.and hreports).mono ?_ ?_)
  · rintro results t ⟨⟨⟨posts, hseeks⟩, hdrains⟩, hr⟩
    have ht := hdrains.chain.sound lawful_progress h.sound
    refine (orders_conclude ht results).mono ?_ ?_
    · rintro _ u ⟨rfl, horders⟩
      exact ⟨hr, horders.supplies hseeks⟩
    · rintro e u ⟨he, first, hfirst, horders⟩
      rw [hr]
      exact ⟨he, first, hfirst, horders.supplies hseeks⟩
  · rintro e t ⟨⟨⟨he, posts, hseeks⟩, -⟩, -⟩
    exact ⟨he.not_isUnaskable, [], List.nil_prefix, (Makes.refl t).orders.supplies hseeks⟩

/-! ### Runs -/

/-- How a session is sparing with requests at an event. -/
structure Economy (s : Session) (event : Event) : Prop where
  /-- Every node of an open tree of calls stands for an item. -/
  items : ∀ id ref direction, s.Member id ref → (s.tree id).direction = .calls direction →
    ∃ item, (s.node ref).payload.callItem? = some item
  /-- What is due is sent, once, and nothing else; the event answers its number. The deadline of a
  request may be beyond what can be told: then nothing is sent, and the event fails. -/
  sends : event ≠ .pump → ∃ token posts,
    (s.step event).sent.map Sent.settled = (s.sent ++ posts).map Sent.settled ∧
    (∀ k, event.act.answer s = .ok (.token k) → k = token) ∧
    (Submits s (Due s event) token posts ∨ posts = [] ∧ (∃ e, event.act.answer s = .error e) ∧
      ∃ reason, s.now.add s.settings.timeout = .error reason)
  /-- A session that is pumped looks symbols up, and then asks for the first level of every tree of
  calls that it opens; where it fails, it has done so up to there. -/
  pumps : event = .pump → ∃ first, first <+: (event.reports s).filterMap Resolution.opening? ∧
    s.Supplies first (s.step event) ∧ ∀ report, event.act.answer s = .ok report →
      first = (event.reports s).filterMap Resolution.opening?
  /-- An event for something that is there fails at most because the deadline of what is due cannot
  be told, because it cannot be answered, or because a tree cannot be drawn. -/
  fails : event.Addresses s → ∀ e, event.act.answer s = .error e →
    IsMalformed e ∧ s.Hinders (Due s event) (s.step event)
  /-- No node is asked for that cannot be asked for. -/
  askable : ∀ e, event.act.answer s = .error e →
    (∀ direction, e ≠ .refused (.noCallsIn direction)) ∧ ∀ name, e ≠ .refused (.noCallItem name)

theorem Sound.items (h : s.Sound) (id : TreeId) (ref : NodeRef) (direction : CallDirection)
    (hm : s.Member id ref) (hd : (s.tree id).direction = .calls direction) :
    ∃ item, (s.node ref).payload.callItem? = some item := by
  have hitem := (h.fits (hm.occurs h)).item
  rw [hd] at hitem
  exact Option.isSome_iff_exists.1 hitem

/-- What an event that does not pump has made of a session. -/
theorem economy_of_ends (h : s.Sound) (hp : event ≠ .pump)
    (he : event.act.Ends s (Pays s event) (Declines s event)) : Economy s event := by
  have posted {posts : List Sent} {t : Session} (hm : s.Makes posts t) :
      t.sent.map Sent.settled = (s.sent ++ posts).map Sent.settled := by rw [hm.sent]
  rcases answer_of_ends he with ⟨report, hanswer, token, ⟨posts, hmakes, hsends⟩, hk⟩ |
    ⟨e, hanswer, he⟩
  · refine ⟨h.items, fun _ => ⟨token, posts, posted hmakes, fun k hk' => ?_, .inl hsends⟩,
      fun h => absurd h hp, fun _ e he => ?_, fun e he => ?_⟩
    · exact hk k (Except.ok.inj (hanswer.symm.trans hk'))
    · cases hanswer.symm.trans he
    · cases hanswer.symm.trans he
  · have hnone (k : Option Token) (hk : event.act.answer s = .ok (.token k)) (token : Option Token) :
        k = token := by cases hanswer.symm.trans hk
    refine ⟨h.items, fun _ => ?_, fun h => absurd h hp, fun haddress f hf => ?_, fun f hf => ?_⟩
    · by_cases haddress : event.Addresses s
      · cases (he.falls haddress).2 with
        | untimely late makes =>
          exact ⟨none, [], posted makes, fun k hk => hnone k hk _, .inr ⟨rfl, ⟨e, hanswer⟩, _, late⟩⟩
        | baffled isDue baffled token meets =>
          obtain ⟨posts, hmakes, hsends⟩ := meets
          exact ⟨token, posts, posted hmakes, fun k hk => hnone k hk _, .inl hsends⟩
        | undrawn isOpen undrawn token meets =>
          obtain ⟨posts, hmakes, hsends⟩ := meets
          exact ⟨token, posts, posted hmakes, fun k hk => hnone k hk _, .inl hsends⟩
      · exact ⟨none, [], posted (he.refrains haddress), fun k hk => hnone k hk _,
          .inl (.nothing fun request hdue => haddress hdue.addresses)⟩
    · obtain rfl := Except.error.inj (hanswer.symm.trans hf)
      exact he.falls haddress
    · obtain rfl := Except.error.inj (hanswer.symm.trans hf)
      exact Fault.askable he.askable

theorem economy_of_pump (h : s.Steady) : Economy s .pump := by
  have hends := supplies_pump h
  have hact : Event.pump.act.Ends s
      (fun _ t => s.Supplies ((Event.pump.reports s).filterMap Resolution.opening?) t)
      fun e t => e.isUnaskable = false ∧
        ∃ first, first <+: (Event.pump.reports s).filterMap Resolution.opening? ∧
          s.Supplies first t := by
    refine .bind (hends.mono ?_ fun _ _ h => h)
    rintro results t ⟨hr, hsupplies⟩
    exact .pure (hr ▸ hsupplies)
  refine ⟨h.sound.items, fun hp => absurd rfl hp, fun _ => ?_, fun ha => ha.elim, fun f hf => ?_⟩
  · rcases answer_of_ends hact with ⟨report, -, hsupplies⟩ | ⟨e, hanswer, -, first, hf, hsupplies⟩
    · exact ⟨_, List.prefix_rfl, hsupplies, fun _ _ => rfl⟩
    · exact ⟨first, hf, hsupplies, fun report hr => by cases hanswer.symm.trans hr⟩
  · rcases answer_of_ends hact with ⟨report, hanswer, -⟩ | ⟨e, hanswer, he, -⟩
    · cases hanswer.symm.trans hf
    · obtain rfl := Except.error.inj (hanswer.symm.trans hf)
      exact Fault.askable he

/-- **A session is sparing with requests.** After every run, whatever happens next: a request for
calls is sent only where one is due, and then once. -/
theorem economy_steps (client : Client) (settings : Settings) (root : Path) (now : Number)
    (events : List Event) (event : Event) :
    Economy ((start client settings root now).steps events) event := by
  have h := (Steady.of_start client settings root now).steps events
  generalize (start client settings root now).steps events = s at h
  have still {t : Session} (hstep : s.step event = t) (hp : event ≠ .pump)
      (hd : ∀ request, ¬Due s event request) (ha : ¬event.Addresses s)
      (hs : t.sent.map Sent.settled = s.sent.map Sent.settled)
      (hok : ∃ report, event.act.answer s = .ok report ∧ ∀ k, report ≠ .token k) :
      Economy s event := by
    obtain ⟨report, hanswer, hk⟩ := hok
    refine ⟨h.sound.items, fun _ => ⟨none, [], ?_, fun k hk' => ?_, .inl (.nothing hd)⟩,
      fun he => absurd he hp, fun he => absurd he ha, fun e he => ?_⟩
    · rw [hstep, hs, List.append_nil]
    · exact absurd (Except.ok.inj (hanswer.symm.trans hk')) (hk k)
    · cases hanswer.symm.trans he
  cases event with
  | pump => exact economy_of_pump h
  | tick now =>
    exact still rfl (by simp) (fun _ hd => by cases hd) (fun h => h) rfl
      ⟨.nothing, rfl, fun _ hk => by cases hk⟩
  | settle i outcome =>
    by_cases hr : ∃ request, s.sent[i]? = some request ∧ request.isOpen
    · obtain ⟨request, hr, ho⟩ := hr
      have hact := settle_of_isOpen hr ho outcome
      refine still (t := s.arrived i request outcome) ?_ (by simp) (fun _ hd => by cases hd)
        (fun h => h) ?_ ⟨.done true, ?_, fun _ hk => by cases hk⟩
      · rw [Session.step, Action.after, hact]
      · exact map_settled_modify
      · rw [Action.answer, hact]
    · have hact := settle_of_not_isOpen (fun request hi ho => hr ⟨request, hi, ho⟩) outcome
      refine still (t := s) ?_ (by simp) (fun _ hd => by cases hd) (fun h => h) rfl
        ⟨.done false, ?_, fun _ hk => by cases hk⟩
      · rw [Session.step, Action.after, hact]
      · rw [Action.answer, hact]
  | _ => exact economy_of_ends h.sound (by simp) (pays_event h.sound rfl (by simp))

end Session

end SymbolTrees
