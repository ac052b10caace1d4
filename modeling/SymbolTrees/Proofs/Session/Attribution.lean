import SymbolTrees.Proofs.Session.Interlude
import SymbolTrees.Proofs.Session.Provenance

/-!
# Which lookup tells the symbol of which call

At most one lookup is sent for a call of a request, and no lookup for two calls. While it is under
way nothing is found for the call, and all that it came to is in the queue; once it is over, what is
found for the call is what it came to. So it stays, whatever arrives for other lookups
(`Attributed.preserved`, `Attributed.hears`, `Attributed.seeks`).
-/

namespace SymbolTrees

open SymbolTrees.Server (Outcome Recording.answer Request)

/-! ### Lookups as they were sent -/

/-- What was sent as number `i`, from zero, is the lookup `l`. -/
def Searched (sent : List Sent) (i : Nat) (l : Token) (request : Request) : Prop :=
  ∃ r, sent[i]? = some r ∧ r.token = l ∧ r.isLookup ∧ r.request = request

section Searched

variable {sent more : List Sent} {i j : Nat} {l : Token} {request other : Request}

theorem Searched.lt (h : Searched sent i l request) : i < sent.length := by
  obtain ⟨r, hr, -⟩ := h
  exact (List.getElem?_eq_some_iff.1 hr).1

theorem Searched.extend (h : Searched sent i l request) (hp : sent <+: more) :
    Searched more i l request := by
  have hlt := h.lt
  obtain ⟨r, hr, hl⟩ := h
  obtain ⟨rest, rfl⟩ := hp
  exact ⟨r, by rw [List.getElem?_append_left hlt, hr], hl⟩

/-- An outcome changes nothing about how lookups were sent. -/
theorem Searched.settle (h : Searched sent i l request) (j : Nat) :
    Searched (sent.modify j Sent.settled) i l request := by
  obtain ⟨r, hr, hl⟩ := h
  by_cases hj : j = i
  · exact ⟨r.settled, by simp [hj, hr], hl⟩
  · exact ⟨r, by simp [hj, hr], hl⟩

/-- No two lookups were sent with one number. -/
theorem Searched.eq (hn : (sent.map Sent.token).Nodup) (h : Searched sent i l request)
    (h' : Searched sent j l other) : i = j ∧ request = other := by
  obtain ⟨r, hr, hl, -, rfl⟩ := h
  obtain ⟨r', hr', hl', -, rfl⟩ := h'
  have hi : i < (sent.map Sent.token).length := by
    rw [List.length_map]
    exact (List.getElem?_eq_some_iff.1 hr).1
  obtain rfl : i = j := by
    refine (List.getElem?_inj hi hn).1 ?_
    rw [List.getElem?_map, List.getElem?_map, hr, hr', Option.map_some, Option.map_some, hl, hl']
  exact ⟨rfl, congrArg Sent.request (Option.some.inj (hr.symm.trans hr'))⟩

end Searched

/-- The symbol that a lookup tells for an item if it comes to `outcome`. -/
def LocatedSymbol.told (item : CallItem) : Outcome → Option LocatedSymbol
  | .answer value =>
    match LocatedSymbol.find? item value with
    | .ok symbol => symbol
    | .error _ => none
  | _ => none

theorem LocatedSymbol.told_of_unanswered {outcome : Outcome} (h : ∀ value, outcome ≠ .answer value)
    (item : CallItem) : told item outcome = none := by
  cases outcome with
  | answer value => exact absurd rfl (h value)
  | _ => rfl

theorem LocatedSymbol.told_of_find? {item : CallItem} {value : Json} {symbol : Option LocatedSymbol}
    (h : find? item value = .ok symbol) : told item (.answer value) = symbol := by
  rw [told, h]

/-- What a recording answers to a lookup at once. -/
theorem Client.mem_prompt_lookup {client : Client} {token : Token} {request : Request}
    {arrival : Arrival} (h : arrival ∈ client.prompt true token request) :
    ∃ recording value, client = .replay recording ∧
      Recording.answer recording request.method request.params = .ok value ∧
        arrival = .lookup token (.answer value) := by
  cases client with
  | server => cases h
  | replay recording =>
    simp only [Client.prompt] at h
    split at h
    · rename_i value hv
      exact ⟨recording, value, rfl, hv, List.mem_singleton.1 h⟩
    · cases h

theorem Client.prompt_lookup {recording value : Json} {request : Request} (token : Token)
    (h : Recording.answer recording request.method request.params = .ok value) :
    .lookup token (.answer value) ∈ (Client.replay recording).prompt true token request := by
  simp [Client.prompt, h, Arrival.of]

namespace Session

/-- Which lookup was sent for which call of which request: the number as which it was sent. -/
abbrev Owners := Token → Nat → Option Nat

variable {s t u : Session} {k l : Token} {i j : Nat} {inquiry : Inquiry} {call : Call}
  {came : Nat → Request → Outcome → Prop} {own own' : Owners}

/-- No lookup was sent for two calls, and those of one request were sent one after the other in the
order of its calls. -/
structure Owners.Apart (own : Owners) : Prop where
  once : ∀ k j k' j' i, own k j = some i → own k' j' = some i → k = k' ∧ j = j'
  row : ∀ k, ∃ first, ∀ j i, own k j = some i → i = first + j

theorem apart_none : Owners.Apart fun _ _ => none :=
  ⟨fun _ _ _ _ _ h => (by cases h), fun _ => ⟨0, fun _ _ h => (by cases h)⟩⟩

/-! ### What is found for a call -/

/-- What is known of call number `j` of request `k`, if `came` tells what became of what was sent,
and `own` which lookup was sent for which call. -/
inductive Attends (came : Nat → Request → Outcome → Prop) (own : Owners) (s : Session) (k : Token)
    (inquiry : Inquiry) (j : Nat) (call : Call) : Prop where
  /-- No lookup was sent for it. -/
  | skipped (none : own k j = none) (idle : ∀ l, s.lookups.get? l ≠ some (k, j))
    (found : inquiry.found[j]? = some .none)
    (reason : (∀ j, own k j = .none) ∨
      ∃ other ∈ inquiry.calls, s.client.Baffled (.workspaceSymbols other.item.name))
  /-- Its lookup is under way. -/
  | waits {i : Nat} {l : Token} (owns : own k j = some i)
    (searched : Searched s.sent i l (.workspaceSymbols call.item.name))
    (lookup : s.lookups.get? l = some (k, j)) (found : inquiry.found[j]? = some none)
    (queued : ∀ outcome, came i (.workspaceSymbols call.item.name) outcome →
      .lookup l outcome ∈ s.arrivals)
  /-- Its lookup is over. -/
  | heard {i : Nat} {l : Token} {outcome : Outcome} (owns : own k j = some i)
    (searched : Searched s.sent i l (.workspaceSymbols call.item.name))
    (idle : ∀ l, s.lookups.get? l ≠ some (k, j))
    (came : came i (.workspaceSymbols call.item.name) outcome)
    (found : inquiry.found[j]? = some (LocatedSymbol.told call.item outcome))

/-- Every call of every request has a lookup of its own, if any. -/
structure Attributed (came : Nat → Request → Outcome → Prop) (own : Owners) (s : Session) : Prop where
  apart : own.Apart
  issued : ∀ k j i, own k j = some i → i < s.sent.length ∧ k < s.nextToken
  within : ∀ k j i inquiry, own k j = some i → s.pending.get? k = some inquiry →
    j < inquiry.calls.length
  plain : s.settings.resolveSymbols = false → ∀ k j, own k j = none
  /-- Nothing becomes of what was not sent, but that a recording has an answer. -/
  ahead : ∀ i request outcome, s.sent.length ≤ i → came i request outcome →
    ∃ recording value, s.client = .replay recording ∧
      Recording.answer recording request.method request.params = .ok value ∧
        outcome = .answer value
  queued : ∀ l outcome, .lookup l outcome ∈ s.arrivals →
    ∃ i request, Searched s.sent i l request ∧ came i request outcome
  calls : ∀ k inquiry j call, s.pending.get? k = some inquiry → inquiry.calls[j]? = some call →
    Attends came own s k inquiry j call

theorem attributed_start (client : Client) (settings : Settings) (root : Path) (now : Number)
    (hc : ∀ i request outcome, came i request outcome → ∃ recording value,
      client = .replay recording ∧
        Recording.answer recording request.method request.params = .ok value ∧
          outcome = .answer value) :
    Attributed came (fun _ _ => none) (start client settings root now) where
  apart := apart_none
  issued _ _ _ h := by cases h
  within _ _ _ _ h := by cases h
  plain _ _ _ := rfl
  ahead i request outcome _ h := hc i request outcome h
  queued _ _ h := by cases h
  calls _ _ _ _ h := by cases h

/-! ### What is left alone -/

/-- What is under way is spared, and what has arrived for it stays in the queue. -/
structure Preserves (s t : Session) : Prop where
  spares : Spares s t
  given : t.settings = s.settings ∧ t.client = s.client
  sent : s.sent <+: t.sent
  old : ∀ l outcome, .lookup l outcome ∈ t.arrivals → .lookup l outcome ∈ s.arrivals
  queued : ∀ l outcome, .lookup l outcome ∈ s.arrivals → t.lookups.get? l ≠ none →
    .lookup l outcome ∈ t.arrivals

theorem Preserves.trans (h : Preserves s t) (h' : Preserves t u) : Preserves s u := by
  refine ⟨h.spares.trans h'.spares, ⟨h'.given.1.trans h.given.1, h'.given.2.trans h.given.2⟩,
    h.sent.trans h'.sent, fun l outcome hm => h.old l outcome (h'.old l outcome hm), ?_⟩
  intro l outcome hm hl
  obtain ⟨target, htarget⟩ := Option.ne_none_iff_exists'.1 hl
  refine h'.queued l outcome (h.queued l outcome hm ?_) hl
  rw [h'.spares.lookups l target htarget]
  exact Option.some_ne_none target

/-- The trees are not looked at. -/
theorem Preserves.trees (h : Preserves s t) (registry : Registry) :
    Preserves s { t with registry := registry } :=
  ⟨⟨h.spares.nextToken, h.spares.pending, h.spares.lookups⟩, h.given, h.sent, h.old, h.queued⟩

/-- A lookup of a request that is under way after that is under way still. -/
theorem Preserves.lookup (hk : Preserves s t) (h : s.Sound) (h' : t.Sound) {old new : Inquiry}
    (hold : s.pending.get? k = some old) (hnew : t.pending.get? k = some new)
    (hn : new.lookups = old.lookups) (hl : s.lookups.get? l = some (k, j)) :
    t.lookups.get? l = some (k, j) := by
  obtain ⟨index, hindex⟩ := h'.looking.listed k new hnew l (hn ▸ (h.mem_lookups hl hold).1)
  rw [hindex, ← hl, hk.spares.lookups l _ hindex]

/-- **What is left alone stays attributed.** -/
theorem Attributed.preserved (ha : Attributed came own s) (h : s.Sound) (h' : t.Sound)
    (hk : Preserves s t) : Attributed came own t := by
  have hlength := hk.sent.length_le
  refine ⟨ha.apart, ?_, ?_, fun hp => ha.plain (hk.given.1 ▸ hp), ?_, ?_, ?_⟩
  · intro k j i ho
    obtain ⟨hi, hlt⟩ := ha.issued k j i ho
    exact ⟨Nat.lt_of_lt_of_le hi hlength, Int.lt_of_lt_of_le hlt hk.spares.nextToken⟩
  · intro k j i new ho hnew
    rcases hk.spares.pending k new hnew with ⟨old, _, hold, rfl⟩ | ⟨hle, -⟩
    · exact ha.within k j i old ho hold
    · exact absurd (ha.issued k j i ho).2 (Int.not_lt.2 hle)
  · intro i request outcome hi hc
    rw [hk.given.2]
    exact ha.ahead i request outcome (Nat.le_trans hlength hi) hc
  · intro l outcome hm
    obtain ⟨i, request, hs, hc⟩ := ha.queued l outcome (hk.old l outcome hm)
    exact ⟨i, request, hs.extend hk.sent, hc⟩
  · intro k new j call hnew hcall
    rcases hk.spares.pending k new hnew with ⟨old, deadline, hold, rfl⟩ | ⟨-, hnone⟩
    · have hidle (hi : ∀ l, s.lookups.get? l ≠ some (k, j)) (l : Token) :
          t.lookups.get? l ≠ some (k, j) := fun hl => hi l (hk.spares.lookups l _ hl)
      cases ha.calls k old j call hold hcall with
      | skipped none idle found reason =>
        exact .skipped none (hidle idle) found (hk.given.2 ▸ reason)
      | @waits i l owns searched lookup found queued =>
        have hl := hk.lookup h h' hold hnew rfl lookup
        refine .waits owns (searched.extend hk.sent) hl found fun outcome hc => ?_
        exact hk.queued l outcome (queued outcome hc) (by simp [hl])
      | heard owns searched idle came found =>
        exact .heard owns (searched.extend hk.sent) (hidle idle) came found
    · rw [hnone] at hcall
      cases hcall

/-- Requests that are not lookups leave what is looked up alone. -/
theorem Makes.preserves {posts : List Sent} (h : s.Makes posts t) (hm : Moves s t) : Preserves s t := by
  have hplain (l : Token) (outcome : Outcome) (hmem : .lookup l outcome ∈ prompts s.client posts) :
      False := by
    obtain ⟨r, hr, hp⟩ := List.mem_flatMap.1 hmem
    rw [h.plain r hr] at hp
    cases hc : s.client with
    | server =>
      rw [hc] at hp
      cases hp
    | replay recording =>
      rw [hc] at hp
      simp only [Client.prompt] at hp
      split at hp
      · cases List.mem_singleton.1 hp
      · cases hp
  refine ⟨h.spares hm, ⟨h.given.1, h.given.2.1⟩, h.sent ▸ List.prefix_append .., ?_, ?_⟩
  · intro l outcome hmem
    rw [h.arrivals] at hmem
    exact (List.mem_append.1 hmem).resolve_right (hplain l outcome)
  · intro l outcome hmem _
    rw [h.arrivals]
    exact List.mem_append_left _ hmem

/-- The oldest arrival is taken from the queue, and nothing is under way any more that it was for. -/
theorem preserves_take {arrival : Arrival} {rest : List Arrival} (ha : s.arrivals = arrival :: rest)
    (ht : t.arrivals = rest) (spares : Spares s t)
    (given : t.settings = s.settings ∧ t.client = s.client) (sent : t.sent = s.sent)
    (heard : ∀ l outcome, arrival = .lookup l outcome → t.lookups.get? l = none) : Preserves s t := by
  refine ⟨spares, given, sent ▸ List.prefix_rfl, fun l outcome hm => ?_, fun l outcome hm hl => ?_⟩
  · exact ha ▸ List.mem_cons_of_mem _ (ht ▸ hm)
  · rw [ha] at hm
    rcases List.mem_cons.1 hm with he | hm
    · exact absurd (heard l outcome he.symm) hl
    · exact ht ▸ hm

/-- A request is over, with its lookups. -/
theorem spares_erase {token : Token} (hn : t.nextToken = s.nextToken)
    (hp : t.pending = s.pending.erase token)
    (hl : ∀ l target, t.lookups.get? l = some target → s.lookups.get? l = some target) :
    Spares s t :=
  ⟨Int.le_of_eq hn.symm, fun _ new hi => .inl ⟨new, _, (Table.of_get?_erase (hp ▸ hi)).2, rfl⟩, hl⟩

theorem preserves_taken {arrival : Arrival} {rest : List Arrival} (ha : s.arrivals = arrival :: rest)
    (heard : ∀ l outcome, arrival = .lookup l outcome → s.lookups.get? l = none) :
    Preserves s (s.taken rest) :=
  preserves_take ha rfl ⟨Int.le_refl _, fun _ new hi => .inl ⟨new, _, hi, rfl⟩, fun _ _ hl => hl⟩
    ⟨rfl, rfl⟩ rfl heard

theorem preserves_dropped : Preserves s (s.dropped inquiry) :=
  ⟨spares_erase rfl rfl fun _ _ hl => (of_get?_dropped hl).2, ⟨rfl, rfl⟩, List.prefix_rfl,
    fun _ _ hm => hm, fun _ _ hm _ => hm⟩

theorem preserves_grafted (ref : NodeRef) : Preserves s (s.grafted inquiry ref) :=
  preserves_dropped.trees _

theorem preserves_failed : Preserves s (s.failed inquiry) := by
  unfold failed
  split
  · exact preserves_dropped.trees _
  · exact preserves_dropped

/-- The last lookup of a request is over, and so is the request. -/
theorem preserves_matched_dropped {token : Token} {outcome : Outcome} {rest : List Arrival}
    {found : List (Option LocatedSymbol)} (ha : s.arrivals = .lookup token outcome :: rest) :
    Preserves s ((s.matched rest token inquiry found).dropped (inquiry.told token found)) := by
  have hlookups {l : Token} {target : Token × Nat} (hl : ((s.matched rest token inquiry
      found).dropped (inquiry.told token found)).lookups.get? l = some target) :
      token ≠ l ∧ s.lookups.get? l = some target := Table.of_get?_erase (of_get?_dropped hl).2
  refine preserves_take ha rfl (spares_erase rfl pending_matched_dropped fun _ _ hl =>
    (hlookups hl).2) ⟨rfl, rfl⟩ rfl fun l outcome he => ?_
  obtain ⟨rfl, -⟩ := Arrival.lookup.inj he
  by_contra hn
  obtain ⟨target, ht⟩ := Option.ne_none_iff_exists'.1 hn
  exact (hlookups ht).1 rfl

/-- When the time of a request is up, the others are left alone. -/
theorem Expiry.preserves {results : List Resolution} (he : Expiry s results t) : Preserves s t := by
  cases he with
  | adopt => exact preserves_grafted _
  | lapse => exact preserves_dropped
  | timeOut => exact preserves_failed

/-! ### The outcome of a lookup -/

/-- **The outcome of a lookup is heard for its own call.** -/
theorem Attributed.hears (ha : Attributed came own s) (h : s.Sound) {token : Token}
    {outcome : Outcome} {rest : List Arrival} {index : Nat} {found : List (Option LocatedSymbol)}
    (hs : s.arrivals = .lookup token outcome :: rest)
    (hl : s.lookups.get? token = some (inquiry.token, index))
    (hi : s.pending.get? inquiry.token = some inquiry)
    (hself : ∀ call, inquiry.calls[index]? = some call → inquiry.found[index]? = some none →
      found[index]? = some (LocatedSymbol.told call.item outcome))
    (hothers : ∀ j, j ≠ index → found[j]? = inquiry.found[j]?) :
    Attributed came own (s.matched rest token inquiry found) := by
  have hlookups {l : Token} {target : Token × Nat}
      (h : (s.matched rest token inquiry found).lookups.get? l = some target) :
      token ≠ l ∧ s.lookups.get? l = some target := Table.of_get?_erase h
  -- The other calls are left alone: their lookups are others.
  have elsewhere {k : Token} {old new : Inquiry} {j : Nat} {call : Call}
      (hne : (k, j) ≠ (inquiry.token, index)) (hat : Attends came own s k old j call)
      (hf : new.found[j]? = old.found[j]?) (hc : new.calls = old.calls) :
      Attends came own (s.matched rest token inquiry found) k new j call := by
    cases hat with
    | skipped none idle found reason =>
      exact .skipped none (fun l hl => idle l (hlookups hl).2) (hf.trans found) (hc ▸ reason)
    | @waits i l owns searched lookup found queued =>
      have hlne : token ≠ l := by
        rintro rfl
        exact hne (Option.some.inj (lookup.symm.trans hl))
      refine .waits owns searched ((Table.get?_erase ..).trans ((if_neg hlne).trans lookup))
        (hf.trans found) fun outcome' hc => ?_
      have hm := queued outcome' hc
      rw [hs] at hm
      exact (List.mem_cons.1 hm).resolve_left fun he => hlne (Arrival.lookup.inj he).1.symm
    | heard owns searched idle came found =>
      exact .heard owns searched (fun l hl => idle l (hlookups hl).2) came (hf.trans found)
  refine ⟨ha.apart, ha.issued, ?_, ha.plain, ha.ahead, ?_, ?_⟩
  · intro k j i new ho hnew
    rcases Table.of_get?_put hnew with ⟨rfl, rfl⟩ | ⟨-, hnew⟩
    · exact ha.within _ j i inquiry ho hi
    · exact ha.within k j i new ho hnew
  · exact fun l outcome hm => ha.queued l outcome (hs ▸ List.mem_cons_of_mem _ hm)
  · intro k new j call hnew hcall
    rcases Table.of_get?_put hnew with ⟨rfl, rfl⟩ | ⟨hk, hnew⟩
    · have hat := ha.calls _ inquiry j call hi hcall
      by_cases hj : j = index
      · subst hj
        cases hat with
        | skipped none idle => exact absurd hl (idle token)
        | @waits i l owns searched lookup hnone queued =>
          obtain rfl := h.looking.once l token _ lookup hl
          obtain ⟨i', request, hsearched, hcame⟩ := ha.queued l outcome (hs ▸ List.mem_cons_self)
          obtain ⟨rfl, rfl⟩ := searched.eq h.queued.distinct hsearched
          refine .heard owns searched (fun l' hl' => ?_) hcame (hself call hcall hnone)
          obtain ⟨hne, hl'⟩ := hlookups hl'
          exact hne (h.looking.once l l' _ hl hl')
        | heard owns searched idle => exact absurd hl (idle token)
      · exact elsewhere (fun he => hj (Prod.mk.inj he).2) hat (hothers j hj) rfl
    · exact elsewhere (fun he => hk (Prod.mk.inj he).1.symm) (ha.calls k new j call hnew hcall) rfl rfl

/-- What is found for its call is what a lookup tells, and the others are as they were. -/
theorem Tells.get? {index : Nat} {outcome : Outcome} {found : List (Option LocatedSymbol)}
    (ht : Tells inquiry index outcome found) :
    (∀ call, inquiry.calls[index]? = some call → inquiry.found[index]? = some none →
      found[index]? = some (LocatedSymbol.told call.item outcome)) ∧
    ∀ j, j ≠ index → found[j]? = inquiry.found[j]? := by
  cases ht with
  | nothing unanswered =>
    refine ⟨fun call _ hf => ?_, fun _ _ => rfl⟩
    rw [hf, LocatedSymbol.told_of_unanswered unanswered]
  | symbol isCall read =>
    refine ⟨fun call hc hf => ?_, fun j hj => List.getElem?_set_ne (Ne.symm hj)⟩
    obtain rfl := Option.some.inj (isCall.symm.trans hc)
    have hlt := (List.getElem?_eq_some_iff.1 hf).1
    rw [LocatedSymbol.told_of_find? read, List.getElem?_set_self hlt]

/-! ### The answer of a request -/

/-- Nothing is found yet for the calls of an answer. -/
theorem found_answered (inquiry : Inquiry) {calls : List Call} (hcall : calls[j]? = some call) :
    (inquiry.answered calls).found[j]? = some none := by
  change (calls.map fun _ => none)[j]? = _
  rw [List.getElem?_map, hcall]
  rfl

/-- The calls of a request become known, and none is looked up yet. -/
theorem Attributed.answers (ha : Attributed came own s) (h : s.Sound) (new : Inquiry) {k : Token}
    {outcome : Outcome} {rest : List Arrival} (hs : s.arrivals = .reply k outcome :: rest)
    (hi : s.pending.get? k = some inquiry)
    (hfound : ∀ (j : Nat) (call : Call), new.calls[j]? = some call → new.found[j]? = some none) :
    (∀ j, own k j = none) ∧ (∀ l j, s.lookups.get? l ≠ some (k, j)) ∧
      Attributed came own { s.taken rest with pending := s.pending.put k new } := by
  have hnone := h.calls_eq_nil (hs ▸ List.mem_cons_self) hi
  have hown (j : Nat) : own k j = none := by
    cases ho : own k j with
    | none => rfl
    | some i =>
      have hlt := ha.within k j i inquiry ho hi
      rw [hnone] at hlt
      exact absurd hlt (Nat.not_lt_zero j)
  have hidle (l : Token) (j : Nat) : s.lookups.get? l ≠ some (k, j) :=
    fun hl => h.calls_of_lookup hl hi hnone
  have hqueue {l : Token} {outcome : Outcome} (hm : .lookup l outcome ∈ s.arrivals) :
      .lookup l outcome ∈ rest := by
    rw [hs] at hm
    exact (List.mem_cons.1 hm).resolve_left fun he => by cases he
  refine ⟨hown, fun l j => hidle l j, ha.apart, ha.issued, ?_, ha.plain, ha.ahead, ?_, ?_⟩
  · intro k' j i other ho hnew
    rcases Table.of_get?_put hnew with ⟨rfl, rfl⟩ | ⟨-, hnew⟩
    · rw [hown j] at ho
      cases ho
    · exact ha.within k' j i other ho hnew
  · exact fun l outcome hm => ha.queued l outcome (hs ▸ List.mem_cons_of_mem _ hm)
  · intro k' other j call hnew hcall
    rcases Table.of_get?_put hnew with ⟨rfl, rfl⟩ | ⟨-, hnew⟩
    · exact .skipped (hown j) (fun l => hidle l j) (hfound j call hcall) (.inl hown)
    · cases ha.calls k' other j call hnew hcall with
      | skipped none idle found reason => exact .skipped none idle found reason
      | waits owns searched lookup found queued =>
        exact .waits owns searched lookup found fun outcome hc => hqueue (queued outcome hc)
      | heard owns searched idle came found => exact .heard owns searched idle came found

/-! ### Lookups that are sent -/

theorem length_searches (client : Client) (k : Token) (calls : List Call) :
    (searches client k calls).length = calls.length := by
  induction calls generalizing k with
  | nil => rfl
  | cons call rest ih => exact congrArg (· + 1) (ih _)

theorem getElem?_searches (client : Client) (k : Token) (calls : List Call) (j : Nat) :
    (searches client k calls)[j]? = calls[j]?.map fun call =>
      ⟨k + (j : Int), true, .workspaceSymbols call.item.name, client.isServer⟩ := by
  induction calls generalizing k j with
  | nil => rfl
  | cons call rest ih =>
    cases j with
    | zero => simp [searches]
    | succ j => rw [searches, List.getElem?_cons_succ, List.getElem?_cons_succ, ih, ← add_succ_number]

/-- What has arrived after that is what a recording answers at once. -/
theorem arrivals_seeking_eq (inquiry : Inquiry) (calls : List Call) (index : Nat) :
    (s.seeking inquiry calls index).arrivals =
      s.arrivals ++ prompts s.client (searches s.client s.nextToken calls) := by
  induction calls generalizing s inquiry index with
  | nil => exact (List.append_nil _).symm
  | cons call rest ih => exact (ih _ _).trans (List.append_assoc ..)

theorem nextToken_le_seeking (inquiry : Inquiry) (calls : List Call) (index : Nat) :
    s.nextToken ≤ (s.seeking inquiry calls index).nextToken := by
  induction calls generalizing s inquiry index with
  | nil => exact Int.le_refl _
  | cons call rest ih => exact Int.le_trans (Int.le_of_lt (Int.lt_succ _)) (ih _ _)

/-- There are no other lookups but those that there were. -/
theorem of_get?_lookups_seeking (inquiry : Inquiry) (calls : List Call) (index : Nat)
    {target : Token × Nat} (hl : (s.seeking inquiry calls index).lookups.get? l = some target) :
    s.lookups.get? l = some target ∨
      ∃ j, j < calls.length ∧ target = (inquiry.token, index + j) := by
  induction calls generalizing s inquiry index with
  | nil => exact .inl hl
  | cons call rest ih =>
    rcases ih _ _ hl with hl | ⟨j, hj, rfl⟩
    · rcases Table.of_get?_put hl with ⟨-, rfl⟩ | ⟨-, hl⟩
      · exact .inr ⟨0, Nat.zero_lt_succ _, rfl⟩
      · exact .inl hl
    · exact .inr ⟨j + 1, Nat.succ_lt_succ hj, by rw [Nat.add_assoc, Nat.add_comm 1]⟩

/-- The calls of a request have the lookups that are sent for them from now on. -/
def Owners.given (own : Owners) (k : Token) (first count : Nat) : Owners := fun k' j =>
  if k' = k then if j < count then some (first + j) else none else own k' j

theorem Owners.given_of_lt {count : Nat} (own : Owners) (k : Token) (first : Nat)
    (hj : j < count) : own.given k first count k j = some (first + j) := by
  rw [given, if_pos rfl, if_pos hj]

theorem Owners.given_of_le {count : Nat} (own : Owners) (k : Token) (first : Nat)
    (hj : count ≤ j) : own.given k first count k j = none := by
  rw [given, if_pos rfl, if_neg (Nat.not_lt.2 hj)]

theorem Owners.given_of_ne {k' : Token} (own : Owners) (first count j : Nat) (hk : k' ≠ k) :
    own.given k first count k' j = own k' j := by
  rw [given, if_neg hk]

theorem Owners.of_given {k' : Token} {first count : Nat} (h : own.given k first count k' j = some i) :
    k' = k ∧ j < count ∧ i = first + j ∨ k' ≠ k ∧ own k' j = some i := by
  unfold given at h
  split at h
  · split at h
    · exact .inl ⟨‹_›, ‹_›, (Option.some.inj h).symm⟩
    · cases h
  · exact .inr ⟨‹_›, h⟩

/-- Lookups that are sent now are for no call that has one already. -/
theorem Owners.Apart.given {count first : Nat} (h : own.Apart)
    (hlt : ∀ k j i, own k j = some i → i < first) (k : Token) : (own.given k first count).Apart := by
  refine ⟨fun k₁ j₁ k₂ j₂ i h₁ h₂ => ?_, fun k' => ?_⟩
  · rcases of_given h₁ with ⟨rfl, -, rfl⟩ | ⟨-, h₁⟩ <;>
      rcases of_given h₂ with ⟨hk, -, he⟩ | ⟨-, h₂⟩
    · exact ⟨hk.symm, Nat.add_left_cancel he⟩
    · exact absurd (hlt _ _ _ h₂) (Nat.not_lt.2 (Nat.le_add_right ..))
    · exact absurd (he ▸ hlt _ _ _ h₁) (Nat.not_lt.2 (Nat.le_add_right ..))
    · exact h.once _ _ _ _ _ h₁ h₂
  · obtain ⟨start, hstart⟩ := h.row k'
    by_cases hk : k' = k
    · refine ⟨first, fun j i ho => ?_⟩
      rcases of_given ho with ⟨-, -, he⟩ | ⟨hne, -⟩
      · exact he
      · exact absurd hk hne
    · exact ⟨start, fun j i ho => hstart j i ((given_of_ne own first count j hk).symm.trans ho)⟩

section Seeking

variable {before after : List Call}

/-- The lookup of a call as it is sent. -/
theorem searched_seeking (inquiry : Inquiry) (hcall : before[j]? = some call) :
    Searched (s.seeking inquiry before 0).sent (s.sent.length + j) (s.nextToken + (j : Int))
      (.workspaceSymbols call.item.name) := by
  refine ⟨⟨s.nextToken + (j : Int), true, .workspaceSymbols call.item.name, s.client.isServer⟩,
    ?_, rfl, rfl, rfl⟩
  rw [sent_seeking, List.getElem?_append_right (Nat.le_add_right ..), Nat.add_sub_cancel_left,
    getElem?_searches, hcall]
  rfl

/-- What a recording answers to lookups is in the queue at once. -/
theorem prompted_seeking (inquiry : Inquiry) {recording value : Json}
    (hclient : s.client = .replay recording) (hcall : before[j]? = some call)
    (hv : Recording.answer recording (Request.workspaceSymbols call.item.name).method
      (Request.workspaceSymbols call.item.name).params = .ok value) :
    .lookup (s.nextToken + (j : Int)) (.answer value) ∈ (s.seeking inquiry before 0).arrivals := by
  rw [arrivals_seeking_eq]
  have hmem : (⟨s.nextToken + (j : Int), true, .workspaceSymbols call.item.name,
      s.client.isServer⟩ : Sent) ∈ searches s.client s.nextToken before := by
    refine List.mem_iff_getElem?.2 ⟨j, ?_⟩
    rw [getElem?_searches, hcall]
    rfl
  refine List.mem_append_right _ (List.mem_flatMap.2 ⟨_, hmem, ?_⟩)
  rw [hclient]
  exact Client.prompt_lookup _ hv

variable (ha : Attributed came own s) (h : s.Sound)
  (hi : s.pending.get? inquiry.token = some inquiry) (hc : inquiry.calls = before ++ after)

section Own

variable (hidle : ∀ l j, s.lookups.get? l ≠ some (inquiry.token, j))
  (hfound : ∀ (j : Nat) (call : Call), inquiry.calls[j]? = some call →
    inquiry.found[j]? = some none)
  (hafter : after = [] ∨ ∃ other ∈ inquiry.calls, s.client.Baffled (.workspaceSymbols other.item.name))
include ha hc hidle hfound hafter

/-- The calls of the request wait for their lookups, but those that were not sent. -/
theorem Attributed.attends_seeking {new : Inquiry} (hn : new.calls = inquiry.calls)
    (hf : new.found = inquiry.found) (hcall : inquiry.calls[j]? = some call) :
    Attends came (own.given inquiry.token s.sent.length before.length)
      (s.seeking inquiry before 0) inquiry.token new j call := by
  rcases Nat.lt_or_ge j before.length with hj | hj
  · have hbefore : before[j]? = some call := by
      rw [← hcall, hc, List.getElem?_append_left hj]
    have hlookup := get?_lookups_seeking (s := s) inquiry 0 hj
    rw [Nat.zero_add] at hlookup
    refine .waits (Owners.given_of_lt _ _ _ hj) (searched_seeking inquiry hbefore) hlookup
      (hf ▸ hfound j call hcall) fun outcome hcame => ?_
    -- only a recording has answered what is sent just now
    obtain ⟨recording, value, hclient, hv, rfl⟩ := ha.ahead _ _ _ (Nat.le_add_right ..) hcame
    exact prompted_seeking inquiry hclient hbefore hv
  · refine .skipped (Owners.given_of_le _ _ _ hj) (fun l hl => ?_) (hf ▸ hfound j call hcall)
      (.inr ?_)
    · rcases of_get?_lookups_seeking _ _ _ hl with hl | ⟨j', hj', he⟩
      · exact hidle l j hl
      · rw [Nat.zero_add] at he
        obtain ⟨-, rfl⟩ := Prod.mk.inj he
        exact absurd hj' (Nat.not_lt.2 hj)
    · rw [hn, (frame_seeking before 0).client]
      refine hafter.resolve_left ?_
      rintro rfl
      have hlt := (List.getElem?_eq_some_iff.1 hcall).1
      rw [hc, List.append_nil] at hlt
      exact absurd hlt (Nat.not_lt.2 hj)

end Own

/-- The lookups of the other requests are left alone. -/
theorem Attends.seeking {other : Inquiry} (hat : Attends came own s k other j call) (h : s.Sound)
    (hk : k ≠ inquiry.token) : Attends came (own.given inquiry.token s.sent.length before.length)
      (s.seeking inquiry before 0) k other j call := by
  have hclient : (s.seeking inquiry before 0).client = s.client := (frame_seeking before 0).client
  have hgrows : s.sent <+: (s.seeking inquiry before 0).sent := by
    rw [sent_seeking]
    exact List.prefix_append ..
  have howner (j : Nat) := Owners.given_of_ne (k := inquiry.token) own s.sent.length before.length j
    hk
  have hlookups {l : Token} {j : Nat}
      (hl : (s.seeking inquiry before 0).lookups.get? l = some (k, j)) :
      s.lookups.get? l = some (k, j) := by
    refine (of_get?_lookups_seeking _ _ _ hl).resolve_right ?_
    rintro ⟨_, -, he⟩
    exact hk (Prod.mk.inj he).1
  cases hat with
  | skipped none idle found reason =>
    refine .skipped ((howner j).trans none) (fun l hl => idle l (hlookups hl)) found
      (hclient ▸ reason.imp_left fun hnone j => (howner j).trans (hnone j))
  | @waits i l owns searched lookup found queued =>
    have hl := get?_lookups_seeking_of_lt inquiry before 0 (h.looking.known l k j lookup).1
    refine .waits ((howner j).trans owns) (searched.extend hgrows) (hl.trans lookup) found ?_
    intro outcome hcame
    rw [arrivals_seeking_eq]
    exact List.mem_append_left _ (queued outcome hcame)
  | heard owns searched idle came found =>
    exact .heard ((howner j).trans owns) (searched.extend hgrows)
      (fun l hl => idle l (hlookups hl)) came found

include ha h hi hc

variable (inquiry) in
/-- **Calls are looked up each by a lookup of its own**, all or those before one that a recording
cannot be asked for. -/
theorem Attributed.seeks
    (hrec : ∀ recording i request value, s.client = .replay recording →
      Recording.answer recording request.method request.params = .ok value →
        came i request (.answer value))
    (hidle : ∀ l j, s.lookups.get? l ≠ some (inquiry.token, j))
    (hfound : ∀ (j : Nat) (call : Call), inquiry.calls[j]? = some call →
      inquiry.found[j]? = some none)
    (hresolves : s.settings.resolveSymbols)
    (hafter : after = [] ∨
      ∃ other ∈ inquiry.calls, s.client.Baffled (.workspaceSymbols other.item.name)) :
    Attributed came (own.given inquiry.token s.sent.length before.length)
      (s.seeking inquiry before 0) := by
  have hframe : Frame s (s.seeking inquiry before 0) := frame_seeking before 0
  have hsent := sent_seeking (s := s) inquiry before 0
  have hlength : (s.seeking inquiry before 0).sent.length = s.sent.length + before.length := by
    rw [hsent, List.length_append, length_searches]
  have hnext := nextToken_le_seeking (s := s) inquiry before 0
  have hpending := get?_pending_seeking inquiry before 0 hi
  refine ⟨ha.apart.given (fun k j i ho => (ha.issued k j i ho).1) _, ?_, ?_, ?_, ?_, ?_, ?_⟩
  · intro k j i ho
    rw [hlength]
    rcases Owners.of_given ho with ⟨rfl, hj, rfl⟩ | ⟨-, ho⟩
    · exact ⟨Nat.add_lt_add_left hj _, Int.lt_of_lt_of_le (h.waiting.own _ _ hi).2 hnext⟩
    · obtain ⟨hlt, hk⟩ := ha.issued k j i ho
      exact ⟨Nat.lt_of_lt_of_le hlt (Nat.le_add_right ..), Int.lt_of_lt_of_le hk hnext⟩
  · intro k j i new ho hnew
    rw [hpending] at hnew
    rcases Owners.of_given ho with ⟨rfl, hj, -⟩ | ⟨hne, ho⟩
    · rw [if_pos rfl] at hnew
      obtain rfl := Option.some.inj hnew
      rw [hc, List.length_append]
      exact Nat.lt_of_lt_of_le hj (Nat.le_add_right ..)
    · rw [if_neg (Ne.symm hne)] at hnew
      exact ha.within k j i new ho hnew
  · intro hp
    rw [hframe.settings, hresolves] at hp
    cases hp
  · intro i request outcome hle hcame
    rw [hframe.client]
    exact ha.ahead i request outcome (Nat.le_trans (hlength ▸ Nat.le_add_right ..) hle) hcame
  · intro l outcome hm
    rw [arrivals_seeking_eq] at hm
    rcases List.mem_append.1 hm with hm | hm
    · obtain ⟨i, request, hs, hcame⟩ := ha.queued l outcome hm
      exact ⟨i, request, hs.extend (hsent ▸ List.prefix_append ..), hcame⟩
    · obtain ⟨r, hr, hm⟩ := List.mem_flatMap.1 hm
      obtain ⟨j, hj⟩ := List.mem_iff_getElem?.1 hr
      rw [getElem?_searches] at hj
      obtain ⟨call, hcall, rfl⟩ := Option.map_eq_some_iff.1 hj
      obtain ⟨recording, value, hclient, hv, he⟩ := Client.mem_prompt_lookup hm
      obtain ⟨rfl, rfl⟩ := Arrival.lookup.inj he
      exact ⟨_, _, searched_seeking inquiry hcall, hrec recording _ _ value hclient hv⟩
  · intro k new j call hnew hcall
    rw [hpending] at hnew
    by_cases hk : inquiry.token = k
    · subst hk
      rw [if_pos rfl] at hnew
      obtain rfl := Option.some.inj hnew
      exact ha.attends_seeking hc hidle hfound hafter rfl rfl hcall
    · rw [if_neg hk] at hnew
      exact (ha.calls k new j call hnew hcall).seeking h (Ne.symm hk)

end Seeking

end Session

end SymbolTrees
