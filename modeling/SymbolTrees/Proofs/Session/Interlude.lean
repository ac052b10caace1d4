import SymbolTrees.Proofs.Session.Economy

/-!
# Between two drains

Nothing but draining a session touches what has arrived. All that is done otherwise, also after a
session was drained, leaves the calls of every request and its lookups as they are: the moves of a
session that has only made requests are no others.
-/

namespace SymbolTrees.Session

open SymbolTrees.Server (Request)

variable {s t u : Session} {event : Event} {posts more : List Sent} {k l : Token}

/-- What is under way is what was under way, until another deadline at most, or it is a request that
was made since and that has no calls. -/
structure Spares (s t : Session) : Prop where
  nextToken : s.nextToken ≤ t.nextToken
  pending : ∀ k new, t.pending.get? k = some new →
    (∃ old deadline, s.pending.get? k = some old ∧ new = { old with deadline := deadline }) ∨
      s.nextToken ≤ k ∧ new.calls = []
  lookups : ∀ l target, t.lookups.get? l = some target → s.lookups.get? l = some target

namespace Spares

theorem refl (s : Session) : Spares s s :=
  ⟨Int.le_refl _, fun _ new hi => .inl ⟨new, _, hi, rfl⟩, fun _ _ hl => hl⟩

theorem trans (h : Spares s t) (h' : Spares t u) : Spares s u := by
  refine ⟨Int.le_trans h.nextToken h'.nextToken, fun k new hi => ?_,
    fun l target hl => h.lookups l target (h'.lookups l target hl)⟩
  rcases h'.pending k new hi with ⟨mid, deadline, hmid, rfl⟩ | ⟨hk, hc⟩
  · rcases h.pending k mid hmid with ⟨old, _, hold, rfl⟩ | hnew
    · exact .inl ⟨old, deadline, hold, rfl⟩
    · exact .inr hnew
  · exact .inr ⟨Int.le_trans h.nextToken hk, hc⟩

end Spares

/-- What a recording answers to the requests at once. -/
def prompts (client : Client) (posts : List Sent) : List Arrival :=
  posts.flatMap fun r => client.prompt r.isLookup r.token r.request

/-- Requests were sent and something was taken from the queue at most; where nothing was, and no
lookup was sent, what is under way is spared. -/
def Minds (s t : Session) : Prop :=
  ∃ posts, t.sent = s.sent ++ posts ∧
    t.arrivals.length ≤ s.arrivals.length + (prompts s.client posts).length ∧
      (t.arrivals.length = s.arrivals.length + (prompts s.client posts).length →
        (∀ r ∈ posts, r.isLookup = false) → Spares s t)

theorem Minds.still (hs : t.sent = s.sent) (ha : t.arrivals = s.arrivals) (h : Spares s t) :
    Minds s t := ⟨[], by rw [hs, List.append_nil], by simp [ha, prompts], fun _ _ => h⟩

theorem Minds.takes {arrival : Arrival} {rest : List Arrival} (hs : t.sent = s.sent)
    (ha : s.arrivals = arrival :: rest) (ht : t.arrivals = rest) : Minds s t := by
  have hlength : t.arrivals.length < s.arrivals.length := by
    rw [ha, ht]
    exact Nat.lt_succ_self _
  refine ⟨[], by rw [hs, List.append_nil], Nat.le_of_lt (Nat.lt_of_lt_of_le hlength
    (Nat.le_add_right ..)), fun he => ?_⟩
  rw [he] at hlength
  exact absurd hlength (Nat.not_lt.2 (Nat.le_add_right ..))

theorem Minds.sends {k : Token} {isLookup : Bool} {request : Request}
    (hs : t.sent = s.sent ++ [⟨k, isLookup, request, s.client.isServer⟩])
    (ha : t.arrivals = s.arrivals ++ s.client.prompt isLookup k request)
    (h : isLookup = false → Spares s t) : Minds s t := by
  refine ⟨_, hs, ?_, fun _ hp => h (hp _ List.mem_cons_self)⟩
  simp [ha, prompts]

/-- **A move touches what is under way only where it applies what has arrived.** -/
theorem Move.minds (hm : Move s t) : Minds s t := by
  have hnext := hm.nextToken_le
  have same {t : Session} (hn : s.nextToken ≤ t.nextToken) (hp : t.pending = s.pending)
      (hl : t.lookups = s.lookups) : Spares s t :=
    ⟨hn, fun k new hi => .inl ⟨new, _, hp ▸ hi, rfl⟩, fun l target ht => hl ▸ ht⟩
  have drops {t : Session} (inquiry : Inquiry) (hn : s.nextToken ≤ t.nextToken)
      (hp : t.pending = s.pending.erase inquiry.token)
      (hl : t.lookups = (s.dropped inquiry).lookups) : Spares s t := by
    refine ⟨hn, fun k new hi => .inl ⟨new, _, (Table.of_get?_erase (hp ▸ hi)).2, rfl⟩, ?_⟩
    intro l target ht
    rw [hl] at ht
    exact (of_get?_dropped ht).2
  have enters {t : Session} {new : Inquiry} (hn : s.nextToken ≤ t.nextToken)
      (hp : t.pending = s.pending.put s.nextToken new) (hc : new.calls = [])
      (hl : t.lookups = s.lookups) : Spares s t := by
    refine ⟨hn, fun j other hi => ?_, fun l target ht => hl ▸ ht⟩
    rcases Table.of_get?_put (hp ▸ hi) with ⟨rfl, rfl⟩ | ⟨-, hi⟩
    · exact .inr ⟨Int.le_refl _, hc⟩
    · exact .inl ⟨other, _, hi, rfl⟩
  cases hm with
  | ask | inquire => exact .sends rfl rfl fun _ => enters hnext rfl rfl rfl
  | look => exact .sends rfl rfl fun h => by cases h
  | ignore arrivals | answer arrivals | find arrivals => exact .takes rfl arrivals rfl
  | rearm pending =>
    refine .still rfl rfl ⟨hnext, fun j other hi => ?_, fun _ _ hl => hl⟩
    rcases Table.of_get?_put hi with ⟨rfl, rfl⟩ | ⟨-, hi⟩
    · exact .inl ⟨_, _, pending, rfl⟩
    · exact .inl ⟨other, _, hi, rfl⟩
  | giveUp =>
    unfold givenUp
    split
    · exact .still rfl rfl (same (Int.le_refl _) rfl rfl)
    · rename_i inquiry _
      exact .still rfl rfl (drops inquiry (Int.le_refl _) rfl rfl)
  | @fail inquiry =>
    unfold failed
    split <;> exact .still rfl rfl (drops inquiry (Int.le_refl _) rfl rfl)
  | @drop inquiry => exact .still rfl rfl (drops inquiry hnext rfl rfl)
  | @graft inquiry => exact .still rfl rfl (drops inquiry hnext rfl rfl)
  | _ => exact .still rfl rfl (same hnext rfl rfl)

theorem prompts_append (client : Client) (posts more : List Sent) :
    prompts client (posts ++ more) = prompts client posts ++ prompts client more :=
  List.flatMap_append

theorem Minds.trans (hc : t.client = s.client) (h : Minds s t) (h' : Minds t u) : Minds s u := by
  obtain ⟨posts, hs, hle, hspares⟩ := h
  obtain ⟨more, hs', hle', hspares'⟩ := h'
  rw [hc] at hle' hspares'
  refine ⟨posts ++ more, by rw [hs', hs, List.append_assoc], ?_, fun he hplain => ?_⟩
  · rw [prompts_append, List.length_append]
    omega
  · rw [prompts_append, List.length_append] at he
    refine (hspares (by omega) fun r hr => hplain r (List.mem_append_left _ hr)).trans
      (hspares' (by omega) fun r hr => hplain r (List.mem_append_right _ hr))

theorem Moves.minds (hm : Moves s t) : t.client = s.client ∧ Minds s t := by
  induction hm with
  | refl => exact ⟨rfl, .still rfl rfl (.refl s)⟩
  | tail _ hmove ih => exact ⟨hmove.client_eq.trans ih.1, ih.2.trans ih.1 hmove.minds⟩

/-- **A session that has only made requests has spared what was under way.** -/
theorem Makes.spares (h : s.Makes posts t) (hm : Moves s t) : Spares s t := by
  obtain ⟨-, other, hs, -, hspares⟩ := hm.minds
  obtain rfl : other = posts := List.append_cancel_left (hs.symm.trans h.sent)
  exact hspares (by rw [h.arrivals, List.length_append, prompts]) h.plain

/-! ### Events -/

/-- An event of a user that does not pump the session only makes requests. -/
theorem makes_step (h : s.Sound) (ho : event.isOwn) (hp : event ≠ .pump) :
    ∃ posts, s.Makes posts (s.step event) := by
  have meets {due : Request → Prop} {token : Option Token} (hm : s.Meets due token (s.step event)) :
      ∃ posts, s.Makes posts (s.step event) := hm.imp fun _ h => h.1
  rcases answer_of_ends (pays_event h ho hp) with ⟨report, -, token, hmeets, -⟩ | ⟨e, -, he⟩
  · exact meets hmeets
  · by_cases ha : event.Addresses s
    · cases (he.falls ha).2 with
      | untimely late makes => exact ⟨[], makes⟩
      | baffled isDue baffled token hmeets => exact meets hmeets
      | undrawn isOpen undrawn token hmeets => exact meets hmeets
    · exact ⟨[], he.refrains ha⟩

/-- How a session is pumped: it is drained and then only makes requests, or what has arrived cannot
be dealt with. -/
inductive Pumps (s : Session) (t : Session) : Prop where
  | drained {results : List Resolution} {u : Session} {posts : List Sent}
    (drain : drain s = .ok results u) (drains : Drains s results u) (makes : u.Makes posts t)
    (moves : Moves u t)
  | halted {e : Fault} (drain : drain s = .error e t) (halts : s.Halts e t)

theorem pumps_step (h : s.Steady) : s.Pumps (s.step .pump) := by
  have hdrain : drain.Ends s (fun results u => drain s = .ok results u ∧ Drains s results u)
      fun e u => drain s = .error e u ∧ s.Halts e u := by
    have hends := ends_drain h
    unfold Action.Ends at hends ⊢
    cases hd : drain s with
    | ok results u =>
      rw [hd] at hends
      exact ⟨rfl, hends⟩
    | error e u =>
      rw [hd] at hends
      exact ⟨rfl, hends⟩
  suffices hact : Event.pump.act.Ends s (fun _ t => t = s.step .pump → s.Pumps t)
      (fun _ t => t = s.step .pump → s.Pumps t) by
    rcases answer_of_ends hact with ⟨-, -, ht⟩ | ⟨-, -, ht⟩ <;> exact ht rfl
  refine .bind ?_
  rw [pump_eq]
  refine .bind (hdrain.mono ?_ fun e u hu _ => .halted hu.1 hu.2)
  rintro results u ⟨hd, hdrains⟩
  have hu := hdrains.chain.sound lawful_progress h.sound
  have pumped {requests : List Request} {t : Session} (hmakes : u.Orders requests t)
      (ht : t = s.step .pump) : s.Pumps t := by
    obtain ⟨posts, hmakes, -⟩ := hmakes
    exact .drained hd hdrains hmakes (ht ▸ moves_pump hu hd)
  refine (orders_conclude hu results).mono ?_ ?_
  · rintro _ t ⟨-, horders⟩
    exact .pure fun ht => pumped horders ht
  · rintro e t ⟨-, first, -, horders⟩ ht
    exact pumped horders ht

end SymbolTrees.Session
