import Mathlib.Data.List.Nodup
import SymbolTrees.Proofs.Registry
import SymbolTrees.Session.Basic

/-!
# What was sent and what has arrived

Every request is sent once and answered at most once. So the calls of a request are not known as
long as its answer can still be applied.
-/

namespace SymbolTrees

open SymbolTrees.Server (Outcome Request)

/-- What arrives for a request or a lookup. -/
def Arrival.of (isLookup : Bool) (token : Token) (outcome : Outcome) : Arrival :=
  if isLookup then .lookup token outcome else .reply token outcome

/-- The number of the request or the lookup that an arrival is for. -/
def Arrival.token : Arrival → Token
  | .reply token _ => token
  | .lookup token _ => token

@[simp] theorem Arrival.token_of (isLookup : Bool) (token : Token) (outcome : Outcome) :
    (Arrival.of isLookup token outcome).token = token := by
  cases isLookup <;> rfl

/-- The request that an arrival answers; none if it answers a lookup. -/
def Arrival.reply? : Arrival → Option Token
  | .reply token _ => some token
  | .lookup .. => none

/-- The requests that have been answered and whose answers are still to be applied. -/
def replies (arrivals : List Arrival) : List Token := arrivals.filterMap Arrival.reply?

/-- Whether answers arrive in their own time. -/
def Client.isServer : Client → Bool
  | .server => true
  | .replay _ => false

/-- What arrives as soon as a request is sent: a recording answers at once. -/
def Client.prompt (client : Client) (isLookup : Bool) (token : Token) (request : Request) :
    List Arrival :=
  match client with
  | .server => []
  | .replay recording =>
    match Server.Recording.answer recording request.method request.params with
    | .ok value => [.of isLookup token (.answer value)]
    | .error _ => []

theorem Client.token_of_prompt {client : Client} {isLookup : Bool} {token : Token}
    {request : Request} {arrival : Arrival}
    (h : arrival ∈ client.prompt isLookup token request) : arrival.token = token := by
  cases client with
  | server => cases h
  | replay recording =>
    simp only [Client.prompt] at h
    split at h
    · rw [List.mem_singleton.1 h, Arrival.token_of]
    · cases h

/-- The request as it was sent, once its outcome has arrived. -/
def Sent.settled (r : Sent) : Sent := { r with isOpen := false }

/-- The answer of a request has arrived or is still to come. -/
def Awaited (arrivals : List Arrival) (sent : List Sent) (t : Token) : Prop :=
  t ∈ replies arrivals ∨ ∃ r ∈ sent, r.token = t ∧ r.isLookup = false ∧ r.isOpen = true

structure Queued (pending : Table Token Inquiry) (arrivals : List Arrival) (sent : List Sent)
    (next : Token) : Prop where
  distinct : (sent.map Sent.token).Nodup
  issued : ∀ r ∈ sent, r.token < next
  single : (replies arrivals).Nodup
  settled : ∀ t ∈ replies arrivals, ∃ r ∈ sent, r.token = t ∧ r.isLookup = false ∧ r.isOpen = false
  first : ∀ t inquiry, Awaited arrivals sent t → pending.get? t = some inquiry → inquiry.calls = []

variable {pending : Table Token Inquiry} {arrivals : List Arrival} {sent : List Sent} {next : Token}

/-- Tokens name the requests that were sent. -/
theorem Queued.sent_eq (h : Queued pending arrivals sent next) {a b : Sent} (ha : a ∈ sent)
    (hb : b ∈ sent) (he : a.token = b.token) : a = b :=
  List.inj_on_of_nodup_map h.distinct ha hb he

@[simp] theorem replies_append (first second : List Arrival) :
    replies (first ++ second) = replies first ++ replies second := List.filterMap_append

/-- Only a recording has answers as soon as it is asked. -/
theorem replies_prompt (client : Client) (isLookup : Bool) (token : Token) (request : Request) :
    replies (client.prompt isLookup token request) = [] ∨
      isLookup = false ∧ client.isServer = false ∧
        replies (client.prompt isLookup token request) = [token] := by
  cases client with
  | server => exact .inl rfl
  | replay recording =>
    simp only [Client.prompt]
    split
    · cases isLookup with
      | true => exact .inl rfl
      | false => exact .inr ⟨rfl, rfl, rfl⟩
    · exact .inl rfl

theorem mem_replies_prompt {client : Client} {isLookup : Bool} {token t : Token} {request : Request}
    (h : t ∈ replies (client.prompt isLookup token request)) :
    isLookup = false ∧ client.isServer = false ∧ token = t := by
  rcases replies_prompt client isLookup token request with he | ⟨hl, hs, he⟩
  · rw [he] at h
    cases h
  · rw [he] at h
    exact ⟨hl, hs, (List.mem_singleton.1 h).symm⟩

section Settle

variable {i : Nat} {r x : Sent} (hr : sent[i]? = some r)
include hr

theorem map_token_settle : (sent.modify i Sent.settled).map Sent.token = sent.map Sent.token := by
  refine List.ext_getElem? ?_
  intro j
  rw [List.getElem?_map, List.getElem?_map, List.getElem?_modify]
  by_cases hj : i = j
  · simp [← hj, hr, Sent.settled]
  · simp [hj]

theorem settled_mem : r.settled ∈ sent.modify i Sent.settled := by
  refine List.mem_of_getElem? (i := i) ?_
  simp [hr]

theorem mem_settle_of_ne (hx : x ∈ sent) (hne : x ≠ r) : x ∈ sent.modify i Sent.settled := by
  obtain ⟨j, hj⟩ := List.mem_iff_getElem?.1 hx
  refine List.mem_of_getElem? (i := j) ?_
  have hij : i ≠ j := by
    rintro rfl
    exact hne (Option.some.inj (hj.symm.trans hr))
  simp [hij, hj]

/-- One request is settled, and the others are what they were. -/
theorem of_mem_settle (hx : x ∈ sent.modify i Sent.settled) : x = r.settled ∨ x ∈ sent := by
  obtain ⟨j, hj⟩ := List.mem_iff_getElem?.1 hx
  by_cases hij : i = j
  · subst hij
    simp only [List.getElem?_modify, if_pos, hr] at hj
    exact .inl (Option.some.inj hj).symm
  · simp only [List.getElem?_modify, if_neg hij] at hj
    exact .inr (List.mem_of_getElem? (by simpa using hj))

end Settle

namespace Queued

theorem empty : Queued [] [] [] next :=
  ⟨List.nodup_nil, fun _ h => (by cases h), List.nodup_nil, fun _ h => (by cases h),
    fun _ _ _ h => by cases h⟩

variable (h : Queued pending arrivals sent next)
include h

theorem mono {later : Token} (hle : next ≤ later) : Queued pending arrivals sent later :=
  ⟨h.distinct, fun r hr => Int.lt_of_lt_of_le (h.issued r hr) hle, h.single, h.settled, h.first⟩

/-- Requests are changed or removed whose calls stay unknown if they were. -/
theorem of_pending {others : Table Token Inquiry}
    (ho : ∀ t inquiry, Awaited arrivals sent t → others.get? t = some inquiry →
      inquiry.calls = [] ∨
        ∃ old, pending.get? t = some old ∧ (old.calls = [] → inquiry.calls = [])) :
    Queued others arrivals sent next := by
  refine ⟨h.distinct, h.issued, h.single, h.settled, ?_⟩
  intro t inquiry ht hi
  rcases ho t inquiry ht hi with hc | ⟨old, hold, hc⟩
  · exact hc
  · exact hc (h.first t old ht hold)

theorem of_put {t : Token} {old new : Inquiry} (hold : pending.get? t = some old)
    (hc : old.calls = [] → new.calls = []) : Queued (pending.put t new) arrivals sent next := by
  apply h.of_pending
  intro k inquiry _ hi
  rcases Table.of_get?_put hi with ⟨rfl, rfl⟩ | ⟨-, hi⟩
  · exact .inr ⟨old, hold, hc⟩
  · exact .inr ⟨inquiry, hi, fun hc => hc⟩

/-- A request is sent with a number of its own. -/
theorem post {token : Token} (client : Client) (isLookup : Bool) (request : Request)
    (hlt : token < next) (hnew : ∀ r ∈ sent, r.token ≠ token)
    (hc : isLookup = false → ∀ inquiry, pending.get? token = some inquiry → inquiry.calls = []) :
    Queued pending (arrivals ++ client.prompt isLookup token request)
      (sent ++ [⟨token, isLookup, request, client.isServer⟩]) next := by
  have hnone : token ∉ replies arrivals := fun hm => by
    obtain ⟨r, hr, ht, -⟩ := h.settled token hm
    exact hnew r hr ht
  refine ⟨?_, ?_, ?_, ?_, ?_⟩
  · rw [List.map_append, List.nodup_append]
    refine ⟨h.distinct, by simp, ?_⟩
    intro a ha b hb he
    obtain ⟨r, hr, rfl⟩ := List.mem_map.1 ha
    exact hnew r hr (he.trans (List.mem_singleton.1 hb))
  · intro r hr
    rcases List.mem_append.1 hr with hr | hr
    · exact h.issued r hr
    · exact List.mem_singleton.1 hr ▸ hlt
  · rw [replies_append]
    rcases replies_prompt client isLookup token request with he | ⟨-, -, he⟩
    · rw [he, List.append_nil]
      exact h.single
    · rw [he]
      exact List.concat_eq_append ▸ h.single.concat hnone
  · intro t ht
    rw [replies_append, List.mem_append] at ht
    rcases ht with ht | ht
    · obtain ⟨r, hr, hk⟩ := h.settled t ht
      exact ⟨r, List.mem_append_left _ hr, hk⟩
    · obtain ⟨hl, hs, rfl⟩ := mem_replies_prompt ht
      exact ⟨_, List.mem_append_right _ List.mem_cons_self, rfl, hl, hs⟩
  · intro t inquiry ht hi
    have hcase : Awaited arrivals sent t ∨ isLookup = false ∧ token = t := by
      rcases ht with ht | ⟨r, hr, hk⟩
      · rw [replies_append, List.mem_append] at ht
        rcases ht with ht | ht
        · exact .inl (.inl ht)
        · exact .inr ⟨(mem_replies_prompt ht).1, (mem_replies_prompt ht).2.2⟩
      · rcases List.mem_append.1 hr with hr | hr
        · exact .inl (.inr ⟨r, hr, hk⟩)
        · obtain rfl := List.mem_singleton.1 hr
          exact .inr ⟨hk.2.1, hk.1⟩
    rcases hcase with ht | ⟨hl, rfl⟩
    · exact h.first t inquiry ht hi
    · exact hc hl inquiry hi

/-- A request that was sent gets its outcome. -/
theorem settle {i : Nat} {r : Sent} (outcome : Outcome) (hr : sent[i]? = some r)
    (ho : r.isOpen) :
    Queued pending (arrivals ++ [.of r.isLookup r.token outcome]) (sent.modify i Sent.settled)
      next := by
  have hrm := List.mem_of_getElem? hr
  have hreply : replies [Arrival.of r.isLookup r.token outcome] =
      if r.isLookup then [] else [r.token] := by
    cases hl : r.isLookup <;> rfl
  have hnone : r.token ∉ replies arrivals := fun hm => by
    obtain ⟨q, hq, ht, -, hqo⟩ := h.settled r.token hm
    obtain rfl := h.sent_eq hq hrm ht
    rw [ho] at hqo
    cases hqo
  refine ⟨?_, ?_, ?_, ?_, fun t inquiry ht hi => h.first t inquiry ?_ hi⟩
  · rw [map_token_settle hr]
    exact h.distinct
  · intro x hx
    rcases of_mem_settle hr hx with rfl | hx
    · exact h.issued r hrm
    · exact h.issued x hx
  · rw [replies_append, hreply]
    split
    · rw [List.append_nil]
      exact h.single
    · exact List.concat_eq_append ▸ h.single.concat hnone
  · intro t ht
    rw [replies_append, List.mem_append, hreply] at ht
    rcases ht with ht | ht
    · obtain ⟨x, hx, hxt, hk⟩ := h.settled t ht
      exact ⟨x, mem_settle_of_ne hr hx fun he => hnone (he ▸ hxt ▸ ht), hxt, hk⟩
    · split at ht
      · cases ht
      · rename_i hl
        have hl' : r.settled.isLookup = false := by simpa [Sent.settled] using hl
        exact ⟨_, settled_mem hr, (List.mem_singleton.1 ht).symm, hl', rfl⟩
  · rcases ht with ht | ⟨x, hx, hk⟩
    · rw [replies_append, List.mem_append, hreply] at ht
      rcases ht with ht | ht
      · exact .inl ht
      · split at ht
        · cases ht
        · rename_i hl
          exact .inr ⟨r, hrm, (List.mem_singleton.1 ht).symm, by simpa using hl, ho⟩
    · rcases of_mem_settle hr hx with rfl | hx
      · cases hk.2.2
      · exact .inr ⟨x, hx, hk⟩

/-- The oldest arrival is taken from the queue. -/
theorem take {arrival : Arrival} {rest : List Arrival} (ha : arrivals = arrival :: rest) :
    Queued pending rest sent next := by
  subst ha
  have hsub : (replies rest).Sublist (replies (arrival :: rest)) :=
    (List.sublist_cons_self _ _).filterMap _
  refine ⟨h.distinct, h.issued, h.single.sublist hsub, fun t ht => h.settled t (hsub.subset ht),
    fun t inquiry ht hi => h.first t inquiry (ht.imp_left fun hm => hsub.subset hm) hi⟩

/-- An answer that was taken from the queue does not come again. -/
theorem not_awaited {token : Token} {outcome : Outcome} {rest : List Arrival}
    (ha : arrivals = .reply token outcome :: rest) : ¬Awaited rest sent token := by
  subst ha
  have hreplies : replies (.reply token outcome :: rest) = token :: replies rest := rfl
  rintro (hm | ⟨r, hr, ht, -, ho⟩)
  · exact (List.nodup_cons.1 (hreplies ▸ h.single)).1 hm
  · obtain ⟨q, hq, hqt, -, hqo⟩ := h.settled token (hreplies ▸ List.mem_cons_self)
    obtain rfl := h.sent_eq hr hq (ht.trans hqt.symm)
    rw [ho] at hqo
    cases hqo

end Queued

end SymbolTrees
