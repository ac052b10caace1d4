import SymbolTrees.Proofs.Session.Sound

/-!
# What a move changes

Where the entries of the tables come from after a move: new requests and lookups have the next
number, a request stays what it is for, and its calls become known only while somebody waits for
it. That somebody waits no more is never undone.
-/

namespace SymbolTrees.Session

variable {s t : Session}

theorem Move.nextToken_le (hm : Move s t) : s.nextToken ≤ t.nextToken := by
  have hle : s.nextToken ≤ s.nextToken + 1 := Int.le_of_lt (Int.lt_succ _)
  cases hm with
  | ask | askInVain | inquire | skip | look => exact hle
  | giveUp | fail =>
    simp only [givenUp, failed]
    split <;> exact Int.le_refl _
  | _ => exact Int.le_refl _

/-- A session does nothing about its settings, its client and the clock. -/
theorem Move.given (hm : Move s t) :
    t.settings = s.settings ∧ t.client = s.client ∧ t.now = s.now := by
  cases hm with
  | giveUp | fail =>
    simp only [givenUp, failed]
    split <;> exact ⟨rfl, rfl, rfl⟩
  | _ => exact ⟨rfl, rfl, rfl⟩

theorem Move.client_eq (hm : Move s t) : t.client = s.client := hm.given.2.1

/-- What is sent has the next number, and a server has still to answer it. -/
theorem Move.sent_cases (hm : Move s t) : t.sent = s.sent ∨
    ∃ r, t.sent = s.sent ++ [r] ∧ r.token = s.nextToken ∧ r.isOpen = s.client.isServer := by
  cases hm with
  | ask | inquire | look => exact .inr ⟨_, rfl, rfl, rfl⟩
  | giveUp | fail =>
    simp only [givenUp, failed]
    split <;> exact .inl rfl
  | _ => exact .inl rfl

/-- What was sent stays sent. -/
theorem Move.sent_grows (hm : Move s t) : s.sent <+: t.sent := by
  rcases hm.sent_cases with he | ⟨r, he, -⟩
  · exact he ▸ List.prefix_rfl
  · exact he ▸ List.prefix_append ..

/-- Where a request comes from that is under way after a move. -/
inductive Pends (s t : Session) (k : Token) (new : Inquiry) : Prop where
  /-- A node has asked for the nodes below it. -/
  | asked {id : TreeId} {ref : NodeRef} {direction : CallDirection} {item : CallItem}
    (fresh : k = s.nextToken) (askable : s.Askable id ref direction item)
    (purpose : new.purpose = .expand id ref (s.tree id).generation direction)
    (calls : new.calls = []) (registry : t.registry = (s.awaiting ref).registry)
    (sent : t.sent = s.sent ++ [⟨k, false, .calls direction item, s.client.isServer⟩])
  /-- A request was made for no node. -/
  | inquired {request : Server.Request} (fresh : k = s.nextToken)
    (opens : Opens new.purpose request) (calls : new.calls = [])
    (sent : t.sent = s.sent ++ [⟨k, false, request, s.client.isServer⟩])
  /-- It was under way, and its calls are what they were. -/
  | stayed {old : Inquiry} (pending : s.pending.get? k = some old)
    (purpose : new.purpose = old.purpose) (calls : new.calls = old.calls)
  /-- Its calls have become known. -/
  | answered {old : Inquiry} {id : TreeId} {ref : NodeRef} {generation : Nat}
    {direction : CallDirection} {value : Json} {rest : List Arrival}
    (pending : s.pending.get? k = some old) (purpose : new.purpose = old.purpose)
    (live : s.isLive old) (expands : old.purpose = .expand id ref generation direction)
    (arrivals : s.arrivals = .reply k (.answer value) :: rest)
    (read : callsOf direction value = .ok new.calls)

/-- The requests after a move. -/
theorem Move.pends (hm : Move s t) {k : Token} {new : Inquiry} (hi : t.pending.get? k = some new) :
    Pends s t k new := by
  have same (hi : s.pending.get? k = some new) : Pends s t k new := .stayed hi rfl rfl
  have put {j : Token} {was now : Inquiry} (hi : Table.get? (s.pending.put j now) k = some new)
      (hj : s.pending.get? j = some was) (hp : now.purpose = was.purpose)
      (hc : now.calls = was.calls) : Pends s t k new := by
    rcases Table.of_get?_put hi with ⟨rfl, rfl⟩ | ⟨-, hi⟩
    · exact .stayed hj hp hc
    · exact same hi
  cases hm with
  | ask askable =>
    rcases Table.of_get?_put hi with ⟨rfl, rfl⟩ | ⟨-, hi⟩
    · exact .asked rfl askable rfl rfl rfl rfl
    · exact same hi
  | inquire opens =>
    rcases Table.of_get?_put hi with ⟨rfl, rfl⟩ | ⟨-, hi⟩
    · exact .inquired rfl opens rfl rfl
    · exact same hi
  | giveUp =>
    simp only [givenUp] at hi
    split at hi
    · exact same hi
    · exact same (Table.of_get?_erase hi).2
  | fail =>
    simp only [failed] at hi
    split at hi <;> exact same (Table.of_get?_erase hi).2
  | drop | graft => exact same (Table.of_get?_erase hi).2
  | answer arrivals pending purpose live read =>
    rcases Table.of_get?_put hi with ⟨rfl, rfl⟩ | ⟨-, hi⟩
    · exact .answered pending rfl live purpose arrivals read
    · exact same hi
  | rearm pending => exact put hi pending rfl rfl
  | look pending => exact put hi pending rfl rfl
  | find arrivals lookup pending => exact put hi pending rfl rfl
  | _ => exact same hi

/-- A request that is not new was under way, and its calls became known at most while somebody
waited for it. -/
theorem Move.pending_cases (hm : Move s t) {k : Token} {new : Inquiry} (hk : k ≠ s.nextToken)
    (hi : t.pending.get? k = some new) : ∃ old, s.pending.get? k = some old ∧
      new.purpose = old.purpose ∧ (new.calls = old.calls ∨ s.isLive old) := by
  cases hm.pends hi with
  | asked fresh => exact absurd fresh hk
  | inquired fresh => exact absurd fresh hk
  | stayed pending purpose calls => exact ⟨_, pending, purpose, .inl calls⟩
  | answered pending purpose live => exact ⟨_, pending, purpose, .inr live⟩

/-- The lookups after a move. -/
theorem Move.lookups_cases (hm : Move s t) {l : Token} {target : Token × Nat}
    (hl : t.lookups.get? l = some target) :
    s.lookups.get? l = some target ∨ l = s.nextToken ∧
      ∃ inquiry, s.pending.get? target.1 = some inquiry ∧ s.isLive inquiry := by
  cases hm with
  | giveUp =>
    simp only [givenUp] at hl
    split at hl
    · exact .inl hl
    · exact .inl (of_get?_dropped hl).2
  | fail =>
    simp only [failed] at hl
    split at hl <;> exact .inl (of_get?_dropped hl).2
  | drop | graft => exact .inl (of_get?_dropped hl).2
  | look pending live isCall =>
    rcases Table.of_get?_put hl with ⟨rfl, rfl⟩ | ⟨-, hl⟩
    · exact .inr ⟨rfl, _, pending, live⟩
    · exact .inl hl
  | find => exact .inl (Table.of_get?_erase hl).2
  | _ => exact .inl hl

/-- What waits in the queue after a move. -/
theorem Move.arrivals_cases (hm : Move s t) {arrival : Arrival} (ha : arrival ∈ t.arrivals) :
    arrival ∈ s.arrivals ∨ ∃ isLookup request,
      t.sent = s.sent ++ [⟨s.nextToken, isLookup, request, s.client.isServer⟩] ∧
        arrival ∈ s.client.prompt isLookup s.nextToken request := by
  cases hm with
  | ask | inquire | look =>
    exact (List.mem_append.1 ha).imp id fun ha => ⟨_, _, rfl, ha⟩
  | giveUp | fail =>
    simp only [givenUp, failed] at ha
    split at ha <;> exact .inl ha
  | ignore arrivals | answer arrivals | find arrivals =>
    exact .inl (arrivals ▸ List.mem_cons_of_mem _ ha)
  | _ => exact .inl ha

theorem Sound.ages (h : s.Sound) (hm : Move s t) : s.registry.Ages t.registry := by
  have node {id : TreeId} {ref : NodeRef} (hm : s.Member id ref) (f : Node → Node) :
      s.registry.Ages (s.registry.updateNode ref f) :=
    Registry.ages_updateNode (h.stands hm).current
  cases hm with
  | draw | hide => exact Registry.ages_update rfl rfl (Nat.le_refl _)
  | close slot => exact h.registry.ages_without slot _
  | issue => exact Registry.ages_newHandle
  | plant issued unused => exact Registry.ages_including rfl unused _
  | ask askable => exact node askable.member _
  | askInVain askable => exact node askable.member _
  | giveUp member =>
    simp only [Session.givenUp]
    split <;> exact node member _
  | unfold member => exact node member _
  | turn =>
    apply Registry.ages_update rfl rfl
    rw [Tree.generation_turned]
    exact Nat.le_succ _
  | fail pending live =>
    simp only [Session.failed]
    split
    · rename_i hp
      exact node (h.live pending hp live).1 _
    · exact .refl _
  | graft pending live purpose => exact node (h.live pending purpose live).1 _
  | _ => exact .refl _

/-- A request that nobody waits for any more is never waited for again. -/
theorem Sound.isLive_of_move (h : s.Sound) (hm : Move s t) {k : Token} {old new : Inquiry}
    {id : TreeId} {ref : NodeRef} {generation : Nat} {direction : CallDirection}
    (hold : s.pending.get? k = some old) (hnew : t.pending.get? k = some new)
    (ho : old.purpose = .expand id ref generation direction)
    (hn : new.purpose = .expand id ref generation direction) (hl : t.isLive new) :
    s.isLive old := by
  obtain ⟨hopen, hg⟩ := ((h.move hm).isLive_iff hnew hn).1 hl
  obtain ⟨-, hb⟩ := h.bound hold ho
  have hages := h.ages hm
  refine (h.isLive_iff hold ho).2 ⟨hages.closed id (h.waiting.planted hold ho) hopen, ?_⟩
  exact Nat.le_antisymm (hg ▸ hages.generation id) hb.past

end SymbolTrees.Session
