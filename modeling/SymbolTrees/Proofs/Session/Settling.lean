import SymbolTrees.Proofs.Session.Heard
import SymbolTrees.Proofs.Session.Pumping
import SymbolTrees.Proofs.Session.Replay
import SymbolTrees.Proofs.Session.Weight
import SymbolTrees.Session.Unfold

/-!
# Settling

In a session on a recording in which nothing has failed, the answer to every request that is under
way is in the queue (`Ready`). So when the session is pumped, nothing is left but what the trees ask
for that are opened then, and when it is pumped again, nothing is left at all.
-/

namespace SymbolTrees

open SymbolTrees.Action (Upholds)
open SymbolTrees.Server (Outcome Request)

namespace Session

variable {s t u : Session} {results more : List Resolution} {k : Token} {inquiry : Inquiry}
  {recording : Json} {n m : Nat} {posts : List Sent}

/-! ### Answers in the queue -/

/-- The answer to every request that is under way is in the queue. -/
def Prompted (s : Session) : Prop :=
  ∀ k inquiry, s.pending.get? k = some inquiry → ∃ outcome, .reply k outcome ∈ s.arrivals

/-- What was heard in the end was heard before. -/
theorem Heard.of_moves (h : t.Heard) (hm : Moves s t) : s.Heard := fun r hr =>
  hm.minds.1 ▸ h r (hm.sent_grows.subset hr)

/-- A session on a recording in which nothing has failed, between two events. -/
structure Ready (recording : Json) (s : Session) : Prop where
  steady : s.Steady
  client : s.client = .replay recording
  heard : s.Heard
  filed : s.Filed
  prompted : s.Prompted

/-- What was heard is answered at once. -/
theorem Heard.prompt (h : s.Heard) (hc : s.client = .replay recording) {r : Sent}
    (hr : r ∈ s.sent) :
    ∃ outcome, s.client.prompt r.isLookup r.token r.request = [.of r.isLookup r.token outcome] := by
  have hheard := h r hr
  rw [hc] at hheard ⊢
  exact Client.prompt_of_not_baffled hheard _ _

/-- **What is asked for is answered**, if it is heard. -/
theorem Ready.makes (h : s.Ready recording) (hm : Moves s t) (hmakes : s.Makes posts t)
    (hheard : t.Heard) : t.Ready recording := by
  have hsound := h.steady.sound
  have hclient : t.client = .replay recording := hmakes.given.2.1.trans h.client
  have hfiled := h.filed.moves hm
  refine ⟨h.steady.moves hm, hclient, hheard, hfiled, fun k new hi => ?_⟩
  rw [hmakes.arrivals]
  rcases (hmakes.spares hm).pending k new hi with ⟨old, -, hold, -⟩ | ⟨hk, -⟩
  · obtain ⟨outcome, ha⟩ := h.prompted k old hold
    exact ⟨outcome, List.mem_append_left _ ha⟩
  · obtain ⟨i, request, ⟨r, hsent, rfl, hplain, -⟩, -⟩ := hfiled k new hi
    have hr := List.mem_of_getElem? hsent
    have hpost : r ∈ posts := by
      rw [hmakes.sent] at hr
      refine (List.mem_append.1 hr).resolve_left fun hs => ?_
      exact Int.not_le.2 (hsound.queued.issued r hs) hk
    obtain ⟨outcome, hprompt⟩ := hheard.prompt hclient hr
    rw [hmakes.given.2.1, hplain] at hprompt
    refine ⟨outcome, List.mem_append_right _ (List.mem_flatMap.2 ⟨r, hpost, ?_⟩)⟩
    rw [hplain, hprompt]
    exact List.mem_cons_self

/-- What is under way stays answered while the queue is worked off. -/
theorem Chain.supplied (h : s.Steady) (hc : s.client = .replay recording)
    (hchain : Chain Effect s results t) (hheard : t.Heard)
    (hs : ∀ k inquiry, s.pending.get? k = some inquiry → s.Supplied k inquiry) :
    ∀ k inquiry, t.pending.get? k = some inquiry → t.Supplied k inquiry := by
  induction hchain with
  | refl => exact hs
  | log before same ih => exact ih hheard
  | @tail results more u v before next ih =>
    have hu := before.steady_effect h
    have hmoves := next.moves hu.sound
    have hclient : v.client = .replay recording :=
      hmoves.minds.1.trans ((before.frame lawful_effect).client.trans hc)
    refine fun k new hnew => next.supplied hu.sound (fun r hr name hname l => ?_)
      (ih (hheard.of_moves hmoves)) hnew
    have hb := hheard r hr
    rw [hname, hclient] at hb
    rw [← hmoves.minds.1, hclient]
    exact Client.prompt_of_not_baffled hb true l

theorem heard_absorb : Upholds Heard absorb :=
  .bind .get fun _ => (heard_applyArrivals _).bind fun _ => .bind .get fun _ =>
    (heard_applyArrivals _).bind fun _ => .pure _

/-- **A session on a recording is drained to the end**, if nothing fails: nothing is under way then,
so nothing can be late. -/
theorem Ready.ends_drain (h : s.Ready recording) : drain.Ends s (fun results t =>
    Chain Effect s results t ∧ t.Ready recording ∧ t.arrivals = [] ∧ t.pending = [])
      fun _ _ => True := by
  rw [drain_eq]
  refine .bind (((ends_absorb h.steady).and (heard_absorb s h.heard)).mono ?_ fun _ _ _ => trivial)
  rintro results t ⟨⟨hc, ha⟩, hheard⟩
  have ht := hc.steady_effect h.steady
  have hmoves := hc.moves (fun _ _ _ hs he => he.moves hs) h.steady.sound
  have hnone := pending_eq_nil_of_supplied ht.sound (hc.supplied h.steady h.client hheard
    fun k inquiry hi => .inl (h.prompted k inquiry hi)) ha
  have hready : t.Ready recording := by
    refine ⟨ht, hmoves.minds.1.trans h.client, hheard, h.filed.moves hmoves, fun k inquiry hi => ?_⟩
    rw [hnone] at hi
    cases hi
  refine .bind (.get ?_)
  rw [hnone]
  refine .bind ((ends_expireAll_of_timely [] (by simp)).mono ?_ fun _ _ h => h.elim)
  rintro _ _ ⟨rfl, rfl⟩
  refine .pure ⟨?_, hready, ha, hnone⟩
  rwa [List.append_nil]

/-! ### Trees that are opened -/

/-- `n` requests were made, and those for nodes. -/
structure Admits (s : Session) (n : Nat) (t : Session) : Prop where
  length : t.pending.length = s.pending.length + n
  expands : ∀ k inquiry, t.pending.get? k = some inquiry → s.pending.get? k = some inquiry ∨
    ∃ id ref generation direction, inquiry.purpose = .expand id ref generation direction

namespace Admits

theorem of_eq (h : t.pending = s.pending) : s.Admits 0 t :=
  ⟨congrArg List.length h, fun _ _ hi => .inl (h ▸ hi)⟩

theorem trans (h : s.Admits n t) (h' : t.Admits m u) : s.Admits (n + m) u := by
  refine ⟨by rw [h'.length, h.length, Nat.add_assoc], fun k inquiry hi => ?_⟩
  exact (h'.expands k inquiry hi).elim (h.expands k inquiry) .inr

end Admits

theorem admits_render (id : TreeId) :
    (render id).Ends s (fun _ t => s.Admits 0 t) fun _ _ => True := by
  unfold render
  refine .bind (checks_open.mono ?_ fun _ _ _ => trivial)
  rintro _ _ ⟨rfl, -⟩
  refine .bind (.get (.bindRead (fun _ _ => ?_) fun _ _ => trivial))
  exact .bind (.modify (.pure (.of_eq rfl)))

/-- A node that can be asked for is asked for. -/
theorem Asks.admits {id : TreeId} {ref : NodeRef} {direction : CallDirection} {item : CallItem}
    {token : Option Token} (h : s.Sound) (askable : s.Askable id ref direction item)
    (hasks : Asks s id ref token t) : s.Admits 1 t := by
  cases hasks with
  | known there =>
    rcases there with there | there
    · exact absurd askable.leaf there
    · rw [askable.idle] at there
      cases there
  | sent =>
    refine ⟨?_, fun k inquiry hi => ?_⟩
    · have hnew : s.nextToken ∉ s.pending.map Prod.fst := fun hm => by
        obtain ⟨entry, hentry, he⟩ := List.mem_map.1 hm
        have hi := Table.get?_of_mem h.waiting.distinct hentry
        rw [he, h.waiting.get?_next] at hi
        cases hi
      change (s.pending.put _ _).length = _
      rw [Table.put_of_not_mem _ _ _ hnew, List.length_append]
      rfl
    · rcases Table.of_get?_put hi with ⟨rfl, rfl⟩ | ⟨-, hi⟩
      · exact .inr ⟨_, _, _, _, rfl⟩
      · exact .inl hi

/-- A tree of calls that is opened asks for its first level. -/
theorem admits_openCalls (h : s.Sound) (item : CallItem) (direction : CallDirection) :
    (openCalls item (.calls direction)).Ends s (fun _ t => s.Admits 1 t) fun _ _ => True := by
  refine ends_openCalls (ends_plant h (.call item direction) rfl fun t hp => ?_)
  have ht := h.moves hp.moves
  have hwants := (wants_root direction item hp.isOpen (by rw [hp.tree]) (by rw [hp.tree]; rfl)
    (by rw [hp.tree]; rfl) (by rw [hp.tree]; rfl) (by rw [hp.tree]; rfl) _).2 rfl
  obtain ⟨askable⟩ := hwants
  rw [present_true]
  refine .bind (.get (.bind ((ends_askChildren ht (member_rootOf hp.isOpen)).mono
    (fun token u hasks => ?_) fun _ _ _ => trivial)))
  have hu : s.Admits 1 u := (Admits.of_eq hp.pending).trans (hasks.admits ht askable)
  exact .bind ((admits_render _).mono (fun _ v hv => .pure (hu.trans hv)) fun _ _ h => h)

theorem admits_openOutline (h : s.Sound) {uri : Text} {value : Json} :
    (openOutline uri (Node.outlineOfJson uri value)).Ends s (fun _ t => s.Admits 0 t)
      fun _ _ => True := by
  refine ends_openOutline (fun _ _ => trivial) fun root hroot => ?_
  obtain ⟨entries, hmade⟩ := outline_of_outlineOfJson hroot
  refine ends_plant h (.outline hmade) rfl fun t hp => ?_
  exact .bind ((admits_render _).mono (fun _ _ hu => .pure ((Admits.of_eq hp.pending).trans hu))
    fun _ _ _ => trivial)

/-- A report leads to one request if it is one of items that a tree is opened for. -/
theorem admits_act (h : s.Sound) (r : Resolution) :
    (act r).Ends s (fun _ t => s.Admits r.opening?.toList.length t) fun _ _ => True := by
  obtain ⟨token, purpose, result⟩ := r
  have idle : s.Admits 0 s := .of_eq rfl
  cases result with
  | failure reason => exact .bind (.modify (.pure (.of_eq rfl)))
  | children nodes => cases purpose <;> exact .pure idle
  | items items =>
    cases items with
    | nil => cases purpose <;> exact .pure idle
    | cons item rest =>
      cases purpose with
      | openCalls uri direction =>
        exact .bind ((admits_openCalls h item direction).mono (fun _ _ ht => .pure ht)
          fun _ _ _ => trivial)
      | _ => exact .pure idle
  | symbols symbols =>
    cases purpose with
    | openOutline uri =>
      exact .bind ((admits_openOutline h).mono (fun _ _ ht => .pure ht) fun _ _ _ => trivial)
    | _ => exact .pure idle

theorem admits_acts (h : s.Sound) (results : List Resolution) : (results.filterMapM act).Ends s
    (fun _ t => s.Admits (results.filterMap Resolution.opening?).length t) fun _ _ => True := by
  induction results generalizing s with
  | nil => exact .pure (.of_eq rfl)
  | cons r rest ih =>
    rw [List.filterMapM_cons, filterMap_cons_toList, List.length_append]
    refine .bind (((admits_act h r).and (lock_act (twins_self h) r).moves).mono ?_
      fun _ _ _ => trivial)
    rintro grown t ⟨hadmits, hmoves⟩
    have hrest := (ih (h.moves hmoves)).mono (fun _ _ hu => hadmits.trans hu) fun _ _ h => h
    cases grown with
    | none => exact hrest
    | some id => exact .bind (hrest.mono (fun _ _ h => .pure h) fun _ _ h => h)

theorem admits_redraw (ids : List TreeId) :
    Action.Ends (ids.forM fun id => do if (← get).isOpen id then let _ ← render id) s
      (fun _ t => s.Admits 0 t) fun _ _ => True := by
  refine ends_redrawing (I := fun _ t => s.Admits 0 t) (.of_eq rfl) (fun _ _ _ ht _ => ht) ?_
  exact fun id rest t ht _ => (admits_render id).mono (fun _ _ hu => ht.trans hu) fun _ _ h => h

/-- **What a pumped session asks for** once it is drained: the first level of every tree of calls
that it opens. -/
theorem admits_conclude (h : s.Sound) (results : List Resolution) : (conclude results).Ends s
    (fun more t => more = results ∧ s.Admits (results.filterMap Resolution.opening?).length t)
      fun _ _ => True := by
  unfold conclude
  refine .bind ((admits_acts h results).mono (fun grown t ht => ?_) fun _ _ h => h)
  exact .bind ((admits_redraw _).mono (fun _ _ hu => .pure ⟨rfl, ht.trans hu⟩) fun _ _ h => h)

/-! ### Pumping again and again -/

/-- Whatever was sent has arrived. -/
theorem Makes.length_arrivals (h : s.Makes posts t) (hheard : t.Heard)
    (hc : t.client = .replay recording) :
    t.arrivals.length = s.arrivals.length + posts.length := by
  have hone (r : Sent) (hr : r ∈ posts) :
      (s.client.prompt r.isLookup r.token r.request).length = 1 := by
    obtain ⟨outcome, he⟩ := hheard.prompt hc (h.sent ▸ List.mem_append_right _ hr)
    rw [← h.given.2.1, he]
    rfl
  rw [h.arrivals, List.length_append, List.length_flatMap, List.map_congr_left hone]
  simp

/-- How a session on a recording is left when it was pumped to the end. -/
structure Pumped (recording : Json) (s : Session) (results : List Resolution) (t : Session) :
    Prop where
  ready : t.Ready recording
  stems : ∀ r ∈ results, s.Stems r
  pending : t.pending.length = (results.filterMap Resolution.opening?).length
  arrivals : t.arrivals.length = (results.filterMap Resolution.opening?).length
  expands : ∀ k inquiry, t.pending.get? k = some inquiry →
    ∃ id ref generation direction, inquiry.purpose = .expand id ref generation direction

/-- **What is left of a pumped session is what it asks for then.** -/
theorem Ready.pumped (h : s.Ready recording) (hp : pump s = .ok results t) :
    Pumped recording s results t := by
  rw [pump_eq] at hp
  cases hd : drain s with
  | error e u => cases (Action.bind_of_error hd).symm.trans hp
  | ok reported u =>
    obtain ⟨hchain, hu, harrivals, hnone⟩ := h.ends_drain.of_ok hd
    have hconclude : conclude reported u = .ok results t := (Action.bind_of_ok hd).symm.trans hp
    have hsound := hu.steady.sound
    obtain ⟨rfl, hadmits⟩ := (admits_conclude hsound reported).of_ok hconclude
    obtain ⟨-, posts, hmakes, hposts⟩ := (orders_conclude hsound results).of_ok hconclude
    have hstep : s.step .pump = t := by
      have hact : Event.pump.act s = .ok (.resolutions results) t := Action.bind_of_ok hp
      rw [Session.step, Action.after, hact]
    have ht := hu.makes (hstep ▸ moves_pump hsound hd) hmakes
      ((heard_conclude results).of_ok hu.heard hconclude)
    refine ⟨ht, fun r hr => (hchain.mono fun _ _ _ => .effect).stems h.steady.sound hr, ?_, ?_,
      fun k inquiry hi => ?_⟩
    · rw [hadmits.length, hnone]
      exact Nat.zero_add _
    · rw [hmakes.length_arrivals ht.heard ht.client, harrivals, ← hposts, List.length_map]
      exact Nat.zero_add _
    · refine (hadmits.expands k inquiry hi).resolve_left fun hold => ?_
      rw [hnone] at hold
      cases hold

/-- Nothing is left where nothing was opened. -/
theorem Pumped.settled (h : Pumped recording s results t) (hn : t.pending = []) :
    t.arrivals = [] := by
  refine List.eq_nil_of_length_eq_zero (h.arrivals.trans (h.pending.symm.trans ?_))
  rw [hn]
  rfl

/-- **Pumping twice leaves nothing.** -/
theorem Pumped.again (h : Pumped recording s results t) (hp : pump t = .ok more u) :
    u.pending = [] ∧ u.arrivals = [] := by
  have hu := h.ready.pumped hp
  have hnone : u.pending = [] := by
    refine List.eq_nil_of_length_eq_zero (hu.pending.trans (List.length_eq_zero_iff.2 ?_))
    refine List.filterMap_eq_nil_iff.2 fun r hr => ?_
    by_contra ho
    obtain ⟨request, ho⟩ := Option.ne_none_iff_exists'.1 ho
    -- a tree would be opened for an answer that nobody asked for
    cases (hu.stems r hr).elicits ho with
    | lookup =>
      unfold Resolution.opening? at ho
      split at ho <;> cases ho
    | level arrivals pending purpose =>
      obtain ⟨id, ref, generation, direction, hexpand⟩ := h.expands _ _ pending
      cases hexpand.symm.trans purpose
  exact ⟨hnone, hu.settled hnone⟩

theorem pumpUntilSettled_succ (n : Nat) : pumpUntilSettled (n + 1) = (do
    let _ ← pump
    if !(← get).pending.isEmpty then pumpUntilSettled n) := rfl

theorem pumpUntilSettled_of_ok (hp : pump s = .ok results t) (n : Nat) :
    pumpUntilSettled (n + 1) s =
      if t.pending.isEmpty then .ok () t else pumpUntilSettled n t := by
  rw [pumpUntilSettled_succ, Action.bind_of_ok hp]
  change (if !t.pending.isEmpty then pumpUntilSettled n else pure () : SessionM Unit) t = _
  cases t.pending.isEmpty <;> rfl

theorem pumpUntilSettled_of_error {e : Fault} (hp : pump s = .error e t) (n : Nat) :
    pumpUntilSettled (n + 1) s = .error e t := by
  rw [pumpUntilSettled_succ, Action.bind_of_error hp]

/-- **A session on a recording is settled within two rounds.** -/
theorem Ready.pumpUntilSettled (h : s.Ready recording) (n : Nat) :
    pumpUntilSettled (n + 2) s = pumpUntilSettled 2 s ∧
      ∀ t, pumpUntilSettled (n + 2) s = .ok () t → t.pending = [] ∧ t.arrivals = [] := by
  cases hp : pump s with
  | error e t =>
    rw [pumpUntilSettled_of_error hp, pumpUntilSettled_of_error hp]
    exact ⟨rfl, fun _ hu => by cases hu⟩
  | ok results t =>
    have ht := h.pumped hp
    rw [pumpUntilSettled_of_ok hp, pumpUntilSettled_of_ok hp]
    split
    · rename_i hempty
      have hnone := List.isEmpty_iff.1 hempty
      refine ⟨rfl, fun u hu => ?_⟩
      obtain ⟨-, rfl⟩ := EStateM.Result.ok.inj hu
      exact ⟨hnone, ht.settled hnone⟩
    cases hq : pump t with
    | error e u =>
      rw [pumpUntilSettled_of_error hq, pumpUntilSettled_of_error hq]
      exact ⟨rfl, fun _ hv => by cases hv⟩
    | ok more u =>
      obtain ⟨hnone, hempty⟩ := ht.again hq
      rw [pumpUntilSettled_of_ok hq, pumpUntilSettled_of_ok hq, hnone]
      refine ⟨rfl, fun v hv => ?_⟩
      obtain ⟨-, rfl⟩ := EStateM.Result.ok.inj hv
      exact ⟨hnone, hempty⟩

/-! ### Runs -/

/-- Nothing fails in a run. -/
def Unfailing : Session → List Event → Prop
  | _, [] => True
  | s, event :: rest => (event.act.answer s).isOk ∧ Unfailing (s.step event) rest

theorem unfailing_concat {events : List Event} {event : Event} :
    s.Unfailing (events ++ [event]) ↔
      s.Unfailing events ∧ (event.act.answer (s.steps events)).isOk := by
  induction events generalizing s with
  | nil => simp [Unfailing]
  | cons first rest ih => simp only [List.cons_append, Unfailing, ih, steps_cons, and_assoc]

/-- What comes to its end leaves a session on a recording ready. -/
theorem Ready.step (h : s.Ready recording) (hclosed : ∀ r ∈ s.sent, r.isOpen = false)
    {event : Event} (hok : (event.act.answer s).isOk) : (s.step event).Ready recording := by
  have hsound := h.steady.sound
  have hheard : (s.step event).Heard := by
    rcases answer_of_ends (heard_event hsound event h.heard) with ⟨-, -, hheard⟩ | ⟨e, he, -⟩
    · exact hheard
    · rw [he] at hok
      cases hok
  have owned (ho : event.isOwn) (hp : event ≠ .pump) : (s.step event).Ready recording := by
    obtain ⟨posts, hmakes⟩ := makes_step hsound ho hp
    exact h.makes (hsound.moves_step ho) hmakes hheard
  cases event with
  | pump =>
    cases hp : pump s with
    | ok results t =>
      have hact : Event.pump.act s = .ok (.resolutions results) t := Action.bind_of_ok hp
      rw [Session.step, Action.after, hact]
      exact (h.pumped hp).ready
    | error e t =>
      have hact : Event.pump.act s = .error e t := Action.bind_of_error hp
      rw [Action.answer, hact] at hok
      cases hok
  | tick now => exact ⟨h.steady.ticked now, h.client, hheard, h.filed, h.prompted⟩
  | settle i outcome =>
    rw [Session.step, Action.after, settle_of_not_isOpen fun r hr ho => ?_]
    · exact h
    · rw [hclosed r (List.mem_of_getElem? hr)] at ho
      cases ho
  | _ => exact owned rfl (by simp)

theorem ready_steps (recording : Json) (settings : Settings) (root : Path) (now : Number)
    (events : List Event) (h : (start (.replay recording) settings root now).Unfailing events) :
    ((start (.replay recording) settings root now).steps events).Ready recording := by
  induction events using List.reverseRec with
  | nil =>
    exact ⟨.of_start .., rfl, fun _ hr => (by cases hr), fun _ _ hi => (by cases hi),
      fun _ _ hi => (by cases hi)⟩
  | append_singleton before event ih =>
    obtain ⟨hbefore, hok⟩ := unfailing_concat.1 h
    rw [steps_concat]
    refine (ih hbefore).step (fun r hr => ?_) hok
    by_contra ho
    have hserver := (isServer_of_isOpen (.replay recording) settings root now before).2 r hr
      (by simpa using ho)
    cases hserver

/-- A report plans a tree of calls if it has a request made. -/
theorem calls_of_plan? (r : Resolution) :
    (r.plan?.toList.filter fun plan => plan.direction.calls?.isSome).length =
      r.opening?.toList.length := by
  obtain ⟨token, purpose, result⟩ := r
  cases result with
  | failure | children => cases purpose <;> rfl
  | items items => cases items <;> cases purpose <;> rfl
  | symbols symbols =>
    cases purpose with
    | openOutline uri =>
      unfold Resolution.plan?
      dsimp only
      split <;> rfl
    | _ => rfl

theorem calls_of_plans (results : List Resolution) :
    ((results.filterMap Resolution.plan?).filter fun plan => plan.direction.calls?.isSome).length =
      (results.filterMap Resolution.opening?).length := by
  induction results with
  | nil => rfl
  | cons r rest ih =>
    rw [filterMap_cons_toList, filterMap_cons_toList, List.filter_append, List.length_append,
      List.length_append, calls_of_plan?, ih]

/-- The trees of calls that were opened are as many as the requests that were made for them. -/
theorem Completed.calls (h : Completed s results t) :
    ((t.registry.trees.drop s.registry.trees.length).filter Tree.isCallTree).length =
      (results.filterMap Resolution.opening?).length := by
  have hdirections : (t.registry.trees.drop s.registry.trees.length).map Tree.direction =
      (results.filterMap Resolution.plan?).map Plan.direction := by
    refine List.ext_getElem? fun i => ?_
    rw [List.getElem?_map, List.getElem?_map, List.getElem?_drop]
    cases hplan : (results.filterMap Resolution.plan?)[i]? with
    | none =>
      have hle := List.getElem?_eq_none_iff.1 hplan
      rw [List.getElem?_eq_none (h.length ▸ Nat.add_le_add_left hle _)]
      rfl
    | some plan =>
      have hlt := (List.getElem?_eq_some_iff.1 hplan).1
      have hin : s.registry.trees.length + i < t.registry.trees.length :=
        h.length ▸ Nat.add_lt_add_left hlt _
      rw [List.getElem?_eq_getElem hin]
      refine congrArg some (Eq.trans ?_ (h.opened i plan hplan).1.direction)
      rw [Session.tree, Registry.tree, List.getD_eq_getElem?_getD, List.getElem?_eq_getElem hin]
      rfl
  rw [← calls_of_plans]
  have hcount := congrArg (fun directions : List Direction =>
    (directions.filter fun d => d.calls?.isSome).length) hdirections
  simp only [List.filter_map, List.length_map] at hcount
  exact hcount

/-- How a session on a recording settles. -/
structure ComesToRest (s : Session) : Prop where
  /-- A loop that applies what is in the queue as long as anything is there comes to its end, though
  the queue grows meanwhile, and it comes to what pumping comes to. -/
  ends : ∀ n ≥ s.weight, pumpWithin n s = pump s ∧
    (applyArrivals n).Ends s (fun _ t => t.arrivals = []) fun _ _ => True
  /-- After that as many requests are under way as trees of calls were opened, each for the items of
  an answer. -/
  opens : ∀ results t, pump s = .ok results t →
    t.pending.length = ((t.registry.trees.drop s.registry.trees.length).filter
      Tree.isCallTree).length ∧
        t.pending.length = (results.filterMap Resolution.opening?).length
  /-- Nothing is left when the session is pumped again. -/
  again : ∀ results more t u, pump s = .ok results t → pump t = .ok more u →
    u.pending = [] ∧ u.arrivals = []
  /-- To pump until nothing is under way takes two rounds at most, however many there may be. -/
  rounds : ∀ n, pumpUntilSettled (n + 2) s = pumpUntilSettled 2 s
  settled : ∀ n t, pumpUntilSettled (n + 2) s = .ok () t → t.pending = [] ∧ t.arrivals = []

/-- **A session on a recording settles** after every run in which nothing failed, whatever time
requests are given and whether symbols are looked up or not. -/
theorem settles_steps (recording : Json) (settings : Settings) (root : Path) (now : Number)
    (events : List Event) (h : (start (.replay recording) settings root now).Unfailing events) :
    ((start (.replay recording) settings root now).steps events).ComesToRest := by
  have hready := ready_steps recording settings root now events h
  have hdrawn := drawn_steps (.replay recording) settings root now events
  generalize (start (.replay recording) settings root now).steps events = s at hready hdrawn
  refine ⟨fun n hn => ⟨pumpWithin_eq_pump hready.steady hn,
    ends_applyArrivals_of_weight hready.steady hn⟩, fun results t hp => ?_,
    fun results more t u hp hq => (hready.pumped hp).again hq,
    fun n => (hready.pumpUntilSettled n).1, fun n => (hready.pumpUntilSettled n).2⟩
  have hpumped := hready.pumped hp
  refine ⟨hpumped.pending.trans ?_, hpumped.pending⟩
  cases hd : drain s with
  | ok reported u =>
    exact (((pumping_of_drained hready.steady hdrawn hd).completed results t hp).calls).symm
  | error e u => cases (Action.bind_of_error hd).symm.trans hp

/-- A function is called by another, which is called by two. -/
def nestedRecording : Json :=
  let caller (name : Text) : Json := .obj [("from", .obj [("name", .str name)])]
  .obj [("item", .obj [("name", .str "f")]),
    ("incomingCalls", .obj [("f", .arr [caller "g"]), ("g", .arr [caller "h", caller "k"])])]

/-- A tree is opened for the item at a position, and asks for its first level. -/
def startedRun : List Event := [.startCalls "file:///f" 0 0 (.calls .incoming), .pump]

theorem settles_startedRun :
    (start (.replay nestedRecording) { Settings.default with resolveSymbols := true }
      ⟨.root, []⟩ (.float 0)).Unfailing startedRun ∧
    ((start (.replay nestedRecording) { Settings.default with resolveSymbols := true }
      ⟨.root, []⟩ (.float 0)).steps startedRun).ComesToRest := by
  have h : (start (.replay nestedRecording) { Settings.default with resolveSymbols := true }
      ⟨.root, []⟩ (.float 0)).Unfailing startedRun :=
    ⟨by decide +kernel, by decide +kernel, trivial⟩
  exact ⟨h, settles_steps _ _ _ _ _ h⟩

end Session

end SymbolTrees
