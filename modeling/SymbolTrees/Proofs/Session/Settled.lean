import SymbolTrees.Proofs.Session.Account
import SymbolTrees.Proofs.Session.Superseded

/-!
# Requests are settled once

No request is reported twice in a run. Where a session is drained, nothing is left in its queue and
no request whose time is up; what is over was reported, or nobody waited for it; and an outcome that
was in the queue for somebody who waits is applied as what it is, however late.
-/

namespace SymbolTrees.Session

open SymbolTrees.Server (Outcome)

variable {s t u : Session} {inquiry : Inquiry} {results more : List Resolution} {k : Token}
  {outcome : Outcome}

/-! ### The request that an effect is about -/

/-- The request that the oldest arrival is for. -/
def concerned (s : Session) : Option Token :=
  match s.arrivals with
  | [] => none
  | .reply token _ :: _ => some token
  | .lookup token _ :: _ => (s.lookups.get? token).map Prod.fst

theorem concerned_of_reply {token : Token} {rest : List Arrival}
    (ha : s.arrivals = .reply token outcome :: rest) : s.concerned = some token := by
  rw [concerned, ha]

theorem concerned_of_lookup {token parent : Token} {index : Nat} {rest : List Arrival}
    (ha : s.arrivals = .lookup token outcome :: rest)
    (hl : s.lookups.get? token = some (parent, index)) : s.concerned = some parent := by
  simp [concerned, ha, hl]

section Elsewhere

variable (h : s.Sound) (he : Effect s results t) (hk : s.concerned ≠ some k)
include h he hk

theorem Effect.get?_pending_of_ne : t.pending.get? k = s.pending.get? k := by
  have herase {inquiry : Inquiry} {rest : List Arrival} {outcome : Outcome}
      (ha : s.arrivals = .reply inquiry.token outcome :: rest) :
      Table.get? (s.pending.erase inquiry.token) k = s.pending.get? k := by
    rw [Table.get?_erase, if_neg]
    rintro rfl
    exact hk (concerned_of_reply ha)
  have hparent {inquiry : Inquiry} {token : Token} {index : Nat} {rest : List Arrival}
      {outcome : Outcome} (ha : s.arrivals = .lookup token outcome :: rest)
      (hl : s.lookups.get? token = some (inquiry.token, index)) : inquiry.token ≠ k := by
    rintro rfl
    exact hk (concerned_of_lookup ha hl)
  cases he with
  | ignore => rfl
  | stale arrivals pending dead =>
    obtain rfl := (h.waiting.own _ _ pending).1
    exact herase arrivals
  | refuse arrivals pending live =>
    obtain rfl := (h.waiting.own _ _ pending).1
    rw [pending_failed]
    exact herase arrivals
  | pass arrivals pending passes =>
    obtain rfl := (h.waiting.own _ _ pending).1
    exact herase arrivals
  | adopt arrivals pending =>
    obtain rfl := (h.waiting.own _ _ pending).1
    exact herase arrivals
  | seek arrivals pending =>
    obtain rfl := (h.waiting.own _ _ pending).1
    rw [get?_pending_rearmed, if_neg]
    rintro rfl
    exact hk (concerned_of_reply arrivals)
  | find arrivals lookup pending =>
    exact (Table.get?_put ..).trans (if_neg (hparent arrivals lookup))
  | finish arrivals lookup pending tells last purpose live =>
    exact (congrArg (Table.get? · k) pending_matched_dropped).trans
      ((Table.get?_erase ..).trans (if_neg (hparent arrivals lookup)))
  | lapse arrivals lookup pending =>
    exact (congrArg (Table.get? · k) pending_matched_dropped).trans
      ((Table.get?_erase ..).trans (if_neg (hparent arrivals lookup)))

omit h in
/-- What has arrived for other requests stays in the queue. -/
theorem Effect.mem_arrivals_of_ne (hm : .reply k outcome ∈ s.arrivals) :
    .reply k outcome ∈ t.arrivals := by
  obtain ⟨arrival, rest, more, ha, ht, -⟩ := he.arrivals
  rw [ha] at hm
  rcases List.mem_cons.1 hm with rfl | hm
  · exact absurd (concerned_of_reply ha) hk
  · rw [ht]
    exact List.mem_append_left _ hm

end Elsewhere

/-- One outcome arrives for a request. -/
theorem Sound.outcome_eq (h : s.Sound) {first : Outcome} {rest : List Arrival}
    (ha : s.arrivals = .reply k first :: rest) (hm : .reply k outcome ∈ s.arrivals) :
    outcome = first := by
  have hsingle := h.queued.single
  rw [ha] at hm hsingle
  rcases List.mem_cons.1 hm with he | hm
  · exact (Arrival.reply.inj he).2
  · have hmem : k ∈ replies rest := List.mem_filterMap.2 ⟨_, hm, rfl⟩
    exact absurd hmem (List.nodup_cons.1 hsingle).1

/-! ### Outcomes are applied -/

/-- The result that the outcome of a request has: it brings nothing, for a reason of its own, or it
brings what the answer says. -/
inductive Answers (s : Session) (purpose : Purpose) : Outcome → Result → Prop where
  | refused {outcome : Outcome} {reason : Failure} (refuses : Refuses s purpose outcome reason) :
    Answers s purpose outcome (.failure reason)
  | passed {value : Json} {result : Result} (passes : Passes purpose value result) :
    Answers s purpose (.answer value) result
  | grown {value : Json} {id : TreeId} {ref : NodeRef} {generation : Nat}
    {direction : CallDirection} {calls : List Call} {found : List (Option LocatedSymbol)}
    (expands : purpose = .expand id ref generation direction)
    (read : callsOf direction value = .ok calls) (some : calls ≠ [])
    (length : found.length = calls.length) :
    Answers s purpose (.answer value)
      (.children (calls.zipWith (childOf ((s.node ref).depth + 1)) found))

/-- An outcome is no reason to say that a request timed out. -/
theorem Answers.ne_timedOut {purpose : Purpose} {result : Result}
    (h : Answers s purpose outcome result) (label : Text) : result ≠ .failure (.timedOut label) := by
  cases h with
  | refused refuses => cases refuses <;> simp
  | passed passes => cases passes <;> simp
  | grown => simp

/-- The calls of a request are known, and their symbols are looked up until a deadline that is
counted from now. -/
structure Looks (s : Session) (purpose : Purpose) (value : Json) (waiting : Inquiry) : Prop where
  read : ∃ id ref generation direction, purpose = .expand id ref generation direction ∧
    callsOf direction value = .ok waiting.calls
  asked : waiting.calls ≠ []
  lookups : waiting.lookups ≠ []
  fresh : s.now.add s.settings.timeout = .ok waiting.deadline

/-- How far the outcome of a request that somebody waits for is applied. -/
inductive Stage (s : Session) (inquiry : Inquiry) (outcome : Outcome) (results : List Resolution)
    (t : Session) : Prop where
  /-- It is in the queue. -/
  | queued (arrivals : .reply inquiry.token outcome ∈ t.arrivals)
    (pending : t.pending.get? inquiry.token = some inquiry)
  /-- It is reported. -/
  | reported {r : Resolution} (mem : r ∈ results) (token : r.token = inquiry.token)
    (answers : Answers s inquiry.purpose outcome r.result)
  /-- Symbols are looked up for it. -/
  | looking {value : Json} {waiting : Inquiry} (answer : outcome = .answer value)
    (pending : t.pending.get? inquiry.token = some waiting)
    (purpose : waiting.purpose = inquiry.purpose) (looks : Looks s inquiry.purpose value waiting)

/-- The nodes that a request brings are known from where its node is. -/
theorem childrenOf_congr {ref : NodeRef} (hm : (t.node ref).mark = (s.node ref).mark) :
    t.childrenOf inquiry ref = s.childrenOf inquiry ref := by
  rw [childrenOf, childrenOf, Node.depth_of_mark hm]

theorem Refuses.congr {purpose : Purpose} {reason : Failure} (hr : Refuses t purpose outcome reason)
    (hm : ∀ id ref generation direction, purpose = .expand id ref generation direction →
      (t.node ref).mark = (s.node ref).mark) : Refuses s purpose outcome reason := by
  have hname {id : TreeId} {ref : NodeRef} {generation : Nat} {direction : CallDirection}
      (hp : purpose = .expand id ref generation direction) :
      (t.node ref).name = (s.node ref).name :=
    congrArg Payload.name (Node.payload_of_mark (hm _ _ _ _ hp))
  cases hr with
  | callsFailed id ref generation direction unanswered =>
    rw [hname rfl]
    exact .callsFailed id ref generation direction unanswered
  | noCalls id ref generation read =>
    rw [hname rfl]
    exact .noCalls id ref generation read
  | itemsFailed uri direction unanswered => exact .itemsFailed uri direction unanswered
  | noItem uri direction read => exact .noItem uri direction read
  | outlineFailed uri unanswered => exact .outlineFailed uri unanswered
  | noSymbols uri absent => exact .noSymbols uri absent

/-- What arrives for a request that is under way is not ignored. -/
theorem heeds_of_concerned {arrival : Arrival} {rest : List Arrival}
    (ha : s.arrivals = arrival :: rest) (hk : s.concerned = some k)
    (hi : s.pending.get? k = some inquiry) : s.Heeds arrival := by
  rw [concerned, ha] at hk
  cases arrival with
  | reply token outcome =>
    obtain rfl := Option.some.inj hk
    simp [Heeds, hi]
  | lookup token outcome =>
    obtain ⟨target, hl, -⟩ := Option.map_eq_some_iff.1 hk
    simp [Heeds, hl]

/-- A request whose answer is in the queue has no calls yet. -/
theorem Sound.calls_eq_nil (h : s.Sound) (hm : .reply k outcome ∈ s.arrivals)
    (hi : s.pending.get? k = some inquiry) : inquiry.calls = [] :=
  h.queued.first k inquiry (.inl (List.mem_filterMap.2 ⟨_, hm, rfl⟩)) hi

theorem Stage.log {journal : Journal} (h : Stage s inquiry outcome results t) :
    Stage s inquiry outcome results { t with journal := journal } := by
  cases h with
  | queued arrivals pending => exact .queued arrivals pending
  | reported mem token answers => exact .reported mem token answers
  | looking answer pending purpose looks => exact .looking answer pending purpose looks

section Stage

variable {R : Session → List Resolution → Session → Prop} (hR : Lawful R) (h : s.Sound)
  (hi : s.pending.get? inquiry.token = some inquiry) (hl : s.isLive inquiry)
include hR h hi hl

/-- An outcome that is taken from the queue is reported, or symbols are looked up for it. -/
theorem Stage.of_queued (hc : Chain R s results t) (he : Effect t more u)
    (hm : .reply inquiry.token outcome ∈ t.arrivals)
    (hp : t.pending.get? inquiry.token = some inquiry) :
    Stage s inquiry outcome (results ++ more) u := by
  have ht := hc.sound hR h
  have hframe := hc.frame hR
  have hlive : t.isLive inquiry := ((hc.accounts hR h).isLive hi hp).trans hl
  have hmark : ∀ id ref generation direction,
      inquiry.purpose = .expand id ref generation direction →
        (t.node ref).mark = (s.node ref).mark := fun id ref generation direction he =>
    (hc.member hR h (h.live hi he hl).1).2
  have hnone := ht.calls_eq_nil hm hp
  have hthe {other : Inquiry} {token : Token} (hk : token = inquiry.token)
      (ho : t.pending.get? token = some other) : other = inquiry :=
    Option.some.inj (ho.symm.trans (hk ▸ hp))
  by_cases hk : t.concerned = some inquiry.token
  swap
  · exact .queued (he.mem_arrivals_of_ne hk hm) ((he.get?_pending_of_ne ht hk).trans hp)
  have hreply {token : Token} {first : Outcome} {rest : List Arrival}
      (ha : t.arrivals = .reply token first :: rest) :
      token = inquiry.token ∧ outcome = first := by
    obtain rfl := Option.some.inj ((concerned_of_reply ha).symm.trans hk)
    exact ⟨rfl, ht.outcome_eq ha hm⟩
  -- the lookup would be for a request without calls
  have hlookup {token : Token} {first : Outcome} {rest : List Arrival} {other : Inquiry}
      {index : Nat} (ha : t.arrivals = .lookup token first :: rest)
      (hlook : t.lookups.get? token = some (other.token, index))
      (ho : t.pending.get? other.token = some other) : False := by
    obtain rfl := hthe (Option.some.inj ((concerned_of_lookup ha hlook).symm.trans hk)) ho
    exact ht.calls_of_lookup hlook ho hnone
  have hin (r : Resolution) : r ∈ results ++ [r] := List.mem_append_right _ List.mem_cons_self
  cases he with
  | ignore arrivals unheeded => exact absurd (heeds_of_concerned arrivals hk hp) unheeded
  | stale arrivals pending dead =>
    obtain rfl := hthe (hreply arrivals).1 pending
    rw [hlive] at dead
    cases dead
  | refuse arrivals pending live refuses =>
    obtain ⟨rfl, rfl⟩ := hreply arrivals
    obtain rfl := hthe rfl pending
    exact .reported (hin _) rfl (.refused (refuses.congr hmark))
  | pass arrivals pending passes =>
    obtain ⟨rfl, rfl⟩ := hreply arrivals
    obtain rfl := hthe rfl pending
    exact .reported (hin _) rfl (.passed passes)
  | @adopt token value rest other id ref generation direction calls arrivals pending purpose live
      read some plain =>
    obtain ⟨rfl, rfl⟩ := hreply arrivals
    obtain rfl := hthe rfl pending
    refine .reported (hin _) rfl ?_
    rw [childrenOf_congr (hmark _ _ _ _ purpose)]
    exact .grown purpose read some (List.length_map _)
  | @seek token value rest other id ref generation direction calls deadline arrivals pending purpose
      live read some resolves timely =>
    obtain ⟨rfl, rfl⟩ := hreply arrivals
    obtain rfl := hthe rfl pending
    rw [List.append_nil]
    refine .looking rfl ((get?_pending_rearmed ..).trans (if_pos rfl)) rfl
      ⟨⟨_, _, _, _, purpose, read⟩, some, ?_, ?_⟩
    · obtain ⟨call, rest, rfl⟩ := List.exists_cons_of_ne_nil some
      simp [sought, numbers]
    · rw [← hframe.now, ← hframe.settings]
      exact timely
  | find arrivals lookup pending => exact (hlookup arrivals lookup pending).elim
  | finish arrivals lookup pending => exact (hlookup arrivals lookup pending).elim
  | lapse arrivals lookup pending => exact (hlookup arrivals lookup pending).elim

/-- The calls of an answer are reported, with what was found for them. -/
theorem Looks.answers {value : Json} {waiting other : Inquiry} {id : TreeId} {ref : NodeRef}
    {generation : Nat} {direction : CallDirection} (hlooks : Looks s inquiry.purpose value waiting)
    (hc : Chain R s results t) (hp : inquiry.purpose = .expand id ref generation direction)
    (hcalls : other.calls = waiting.calls) (hfound : other.found.length = waiting.calls.length) :
    Answers s inquiry.purpose (.answer value) (.children (t.childrenOf other ref)) := by
  obtain ⟨id', ref', generation', direction', hexpands, hread⟩ := hlooks.read
  obtain ⟨rfl, rfl, rfl, rfl⟩ := Purpose.expand.inj (hp.symm.trans hexpands)
  rw [childrenOf_congr (hc.member hR h (h.live hi hp hl).1).2, childrenOf, hcalls]
  exact .grown hp hread hlooks.asked hfound

/-- What symbols are looked up for is looked up still, or is reported with what was found. -/
theorem Stage.of_looking (hc : Chain R s results t) (he : Effect t more u) {value : Json}
    {waiting : Inquiry} (hp : t.pending.get? inquiry.token = some waiting)
    (hpurpose : waiting.purpose = inquiry.purpose) (hlooks : Looks s inquiry.purpose value waiting) :
    Stage s inquiry (.answer value) (results ++ more) u := by
  have ht := hc.sound hR h
  have hlive : t.isLive waiting := ((hc.accounts hR h).isLive hi hp).trans hl
  have htoken : waiting.token = inquiry.token := (ht.waiting.own _ _ hp).1
  by_cases hk : t.concerned = some inquiry.token
  swap
  · exact .looking rfl ((he.get?_pending_of_ne ht hk).trans hp) hpurpose hlooks
  -- an answer would find no calls yet
  have hreply {token : Token} {first : Outcome} {rest : List Arrival}
      (ha : t.arrivals = .reply token first :: rest) : False := by
    obtain rfl := Option.some.inj ((concerned_of_reply ha).symm.trans hk)
    exact hlooks.asked (ht.calls_eq_nil (ha ▸ List.mem_cons_self) hp)
  have hlookup {token : Token} {first : Outcome} {rest : List Arrival} {other : Inquiry}
      {index : Nat} (ha : t.arrivals = .lookup token first :: rest)
      (hlook : t.lookups.get? token = some (other.token, index))
      (ho : t.pending.get? other.token = some other) : other = waiting := by
    have hk := Option.some.inj ((concerned_of_lookup ha hlook).symm.trans hk)
    exact Option.some.inj (ho.symm.trans (hk ▸ hp))
  cases he with
  | ignore arrivals unheeded => exact absurd (heeds_of_concerned arrivals hk hp) unheeded
  | stale arrivals => exact (hreply arrivals).elim
  | refuse arrivals => exact (hreply arrivals).elim
  | pass arrivals => exact (hreply arrivals).elim
  | adopt arrivals => exact (hreply arrivals).elim
  | seek arrivals => exact (hreply arrivals).elim
  | find arrivals lookup pending tells more =>
    obtain rfl := hlookup arrivals lookup pending
    rw [List.append_nil]
    refine .looking rfl ((Table.get?_put ..).trans (if_pos htoken)) hpurpose ?_
    exact ⟨hlooks.read, hlooks.asked, more, hlooks.fresh⟩
  | finish arrivals lookup pending tells last purpose live =>
    obtain rfl := hlookup arrivals lookup pending
    refine .reported (List.mem_append_right _ List.mem_cons_self) htoken ?_
    exact hlooks.answers hR h hi hl hc (hpurpose ▸ purpose) rfl
      (tells.finds.length_eq.trans (ht.looking.found _ _ pending))
  | lapse arrivals lookup pending tells last dead =>
    obtain rfl := hlookup arrivals lookup pending
    rw [hlive] at dead
    cases dead

/-- Where the time for lookups is up, what was found by then is reported. -/
theorem Stage.of_late (hc : Chain R s results t) (he : Expiry t more u) {value : Json}
    {waiting : Inquiry} (hp : t.pending.get? inquiry.token = some waiting)
    (hpurpose : waiting.purpose = inquiry.purpose) (hlooks : Looks s inquiry.purpose value waiting) :
    Stage s inquiry (.answer value) (results ++ more) u := by
  have ht := hc.sound hR h
  have hlive : t.isLive waiting := ((hc.accounts hR h).isLive hi hp).trans hl
  have htoken : waiting.token = inquiry.token := (ht.waiting.own _ _ hp).1
  have herase {other : Inquiry} (hk : other.token ≠ inquiry.token)
      (hu : u.pending = t.pending.erase other.token) :
      Stage s inquiry (.answer value) (results ++ more) u := by
    refine .looking rfl ?_ hpurpose hlooks
    rw [hu, Table.get?_erase, if_neg hk, hp]
  have hthe {other : Inquiry} (hk : other.token = inquiry.token)
      (ho : t.pending.get? other.token = some other) : other = waiting :=
    Option.some.inj (ho.symm.trans (hk ▸ hp))
  obtain ⟨other, -, hu⟩ := he.pending
  cases he with
  | @adopt other id ref generation direction pending late looking purpose live =>
    by_cases hk : other.token = inquiry.token
    · obtain rfl := hthe hk pending
      refine .reported (List.mem_append_right _ List.mem_cons_self) hk ?_
      exact hlooks.answers hR h hi hl hc (hpurpose ▸ purpose) rfl (ht.looking.found _ _ pending)
    · exact herase hk rfl
  | @lapse other pending late dead =>
    by_cases hk : other.token = inquiry.token
    · obtain rfl := hthe hk pending
      rw [hlive] at dead
      cases dead
    · exact herase hk rfl
  | @timeOut other pending late idle =>
    by_cases hk : other.token = inquiry.token
    · obtain rfl := hthe hk pending
      exact absurd idle hlooks.lookups
    · exact herase hk pending_failed

omit hR in
/-- While arrivals have their effects, an outcome for somebody who waits is applied as it is. -/
theorem Stage.of_effects (hm : .reply inquiry.token outcome ∈ s.arrivals)
    (hc : Chain Effect s results t) : Stage s inquiry outcome results t := by
  induction hc with
  | refl => exact .queued hm hi
  | log _ _ ih => exact ih.log
  | tail before next ih =>
    cases ih with
    | reported mem token answers => exact .reported (List.mem_append_left _ mem) token answers
    | queued arrivals pending => exact .of_queued lawful_effect h hi hl before next arrivals pending
    | looking answer pending purpose looks =>
      subst answer
      exact .of_looking lawful_effect h hi hl before next pending purpose looks

omit hR in
/-- While requests are ended whose time is up, it stays applied as it is. -/
theorem Stage.of_expiries (hc : Chain Progress s results t) (hnone : t.arrivals = [])
    (hs : Stage s inquiry outcome results t) (hc' : Chain Expiry t more u) :
    u.arrivals = [] ∧ Stage s inquiry outcome (results ++ more) u := by
  induction hc' with
  | refl =>
    rw [List.append_nil]
    exact ⟨hnone, hs⟩
  | log _ _ ih => exact ⟨ih.1, ih.2.log⟩
  | tail before next ih =>
    obtain ⟨hnone, ih⟩ := ih
    refine ⟨next.arrivals.trans hnone, ?_⟩
    rw [← List.append_assoc]
    have hbefore := hc.trans (before.mono fun _ _ _ he => .expiry he)
    cases ih with
    | reported mem token answers => exact .reported (List.mem_append_left _ mem) token answers
    | queued arrivals =>
      rw [hnone] at arrivals
      cases arrivals
    | looking answer pending purpose looks =>
      subst answer
      exact .of_late lawful_progress h hi hl hbefore next pending purpose looks

end Stage

/-! ### Deadlines -/

/-- A request that is still under way keeps its calls and its deadline, or it has got its calls and
has a deadline that is counted from now. -/
def Continues (s : Session) (old new : Inquiry) : Prop :=
  (new.calls = old.calls ∧ new.deadline = old.deadline) ∨
    (old.calls = [] ∧ new.calls ≠ [] ∧ s.now.add s.settings.timeout = .ok new.deadline)

theorem Continues.trans {old mid new : Inquiry} (hf : Frame s t) (h : s.Continues old mid)
    (h' : t.Continues mid new) : s.Continues old new := by
  rcases h' with ⟨hc', hd'⟩ | ⟨hc', hsome', hd'⟩
  · rcases h with ⟨hc, hd⟩ | ⟨hc, hsome, hd⟩
    · exact .inl ⟨hc'.trans hc, hd'.trans hd⟩
    · exact .inr ⟨hc, hc' ▸ hsome, hd' ▸ hd⟩
  · rw [hf.now, hf.settings] at hd'
    rcases h with ⟨hc, -⟩ | ⟨-, hsome, -⟩
    · exact .inr ⟨hc ▸ hc', hsome', hd'⟩
    · exact absurd hc' hsome

theorem Effect.continues (h : s.Sound) (he : Effect s results t) {old new : Inquiry}
    (hold : s.pending.get? k = some old) (hnew : t.pending.get? k = some new) :
    s.Continues old new := by
  have same (hp : t.pending.get? k = s.pending.get? k) : s.Continues old new := by
    obtain rfl := Option.some.inj (hold.symm.trans (hp.symm.trans hnew))
    exact .inl ⟨rfl, rfl⟩
  have erased {token : Token} (hp : t.pending = s.pending.erase token) : s.Continues old new :=
    same (hnew.trans (Table.of_get?_erase (hp ▸ hnew)).2.symm)
  cases he with
  | ignore => exact same rfl
  | stale => exact erased rfl
  | refuse => exact erased pending_failed
  | pass => exact erased rfl
  | adopt => exact erased rfl
  | seek arrivals pending purpose live read some resolves timely =>
    obtain rfl := (h.waiting.own _ _ pending).1
    rw [get?_pending_rearmed] at hnew
    split at hnew
    · rename_i hk
      subst hk
      obtain rfl := Option.some.inj (pending.symm.trans hold)
      obtain rfl := Option.some.inj hnew
      exact .inr ⟨h.calls_eq_nil (arrivals ▸ List.mem_cons_self) hold, some, timely⟩
    · obtain rfl := Option.some.inj (hold.symm.trans hnew)
      exact .inl ⟨rfl, rfl⟩
  | find arrivals lookup pending =>
    rcases Table.of_get?_put hnew with ⟨rfl, rfl⟩ | ⟨-, hnew⟩
    · obtain rfl := Option.some.inj (pending.symm.trans hold)
      exact .inl ⟨rfl, rfl⟩
    · obtain rfl := Option.some.inj (hold.symm.trans hnew)
      exact .inl ⟨rfl, rfl⟩
  | finish => exact erased pending_matched_dropped
  | lapse => exact erased pending_matched_dropped

theorem Progress.continues (h : s.Sound) (hp : Progress s results t) {old new : Inquiry}
    (hold : s.pending.get? k = some old) (hnew : t.pending.get? k = some new) :
    s.Continues old new := by
  cases hp with
  | effect effect => exact effect.continues h hold hnew
  | expiry expiry =>
    obtain ⟨inquiry, -, he⟩ := expiry.pending
    obtain rfl := Option.some.inj (hold.symm.trans (Table.of_get?_erase (he ▸ hnew)).2)
    exact .inl ⟨rfl, rfl⟩

theorem Chain.continues (h : s.Sound) (hc : Chain Progress s results t) {old new : Inquiry}
    (hold : s.pending.get? k = some old) (hnew : t.pending.get? k = some new) :
    s.Continues old new := by
  induction hc generalizing new with
  | refl =>
    obtain rfl := Option.some.inj (hold.symm.trans hnew)
    exact .inl ⟨rfl, rfl⟩
  | log _ _ ih => exact ih hnew
  | tail before next ih =>
    have ht := before.sound lawful_progress h
    obtain ⟨mid, hmid, -⟩ := (lawful_progress.accounts ht next).kept k new hnew
    exact (ih hmid).trans (before.frame lawful_progress) (next.continues ht hmid hnew)

/-! ### Drained sessions -/

/-- Nobody waits for a request any more: it was made for a node whose tree is closed or in another
generation, or which does not wait for it. -/
def Abandoned (s : Session) (inquiry : Inquiry) : Prop :=
  ∃ id ref generation direction, inquiry.purpose = .expand id ref generation direction ∧
    (¬s.isOpen id ∨ (s.tree id).generation ≠ generation ∨
      (s.node ref).pending ≠ some inquiry.token)

theorem abandoned_of_dead (hl : s.isLive inquiry = false) : s.Abandoned inquiry := by
  unfold isLive at hl
  split at hl
  · rename_i id ref generation direction hp
    refine ⟨id, ref, generation, direction, hp, ?_⟩
    by_contra hn
    simp only [not_or, not_not, ne_eq] at hn
    obtain ⟨hopen, hg, hw⟩ := hn
    simp [hopen, hg, hw] at hl
  · cases hl

/-- What a session is like that was drained, compared with what it was before. -/
structure Drained (s : Session) (results : List Resolution) (t : Session) : Prop where
  queue : t.arrivals = []
  clock : t.now = s.now
  timely : ∀ k inquiry, t.pending.get? k = some inquiry → s.now.lt inquiry.deadline
  /-- What is reported was under way and is over. -/
  known : ∀ r ∈ results, ∃ inquiry, s.pending.get? r.token = some inquiry ∧
    r.purpose = inquiry.purpose ∧ t.pending.get? r.token = none
  /-- What is over was reported once, or nobody waited for it and it is not reported. -/
  finished : ∀ k inquiry, s.pending.get? k = some inquiry → t.pending.get? k = none →
    (∃! r, r ∈ results ∧ r.token = k) ∨ s.Abandoned inquiry ∧ ∀ r ∈ results, r.token ≠ k
  /-- What is not over was under way, with the same calls and the same deadline, or with new calls
  and a new deadline. -/
  kept : ∀ k new, t.pending.get? k = some new → ∃ old, s.pending.get? k = some old ∧
    new.purpose = old.purpose ∧ s.Continues old new
  /-- An outcome in the queue of somebody who waits is reported as it is, and not as a request that
  timed out, or symbols are looked up for it. -/
  applied : ∀ k inquiry outcome, .reply k outcome ∈ s.arrivals →
    s.pending.get? k = some inquiry → s.isLive inquiry →
      (∃ r ∈ results, r.token = k ∧ Answers s inquiry.purpose outcome r.result) ∧
        (∀ r ∈ results, r.token = k → ∀ label, r.result ≠ .failure (.timedOut label)) ∨
      (∀ r ∈ results, r.token ≠ k) ∧ ∃ value waiting, outcome = .answer value ∧
        t.pending.get? k = some waiting ∧ Looks s inquiry.purpose value waiting

/-- Of two reports for one request there is only one. -/
theorem Accounts.eq_of_token (h : Accounts s results t) {r r' : Resolution} (hr : r ∈ results)
    (hr' : r' ∈ results) (he : r.token = r'.token) : r = r' :=
  List.inj_on_of_nodup_map h.distinct hr hr' he

/-- **To drain a session is to settle what has arrived and what is late, once.** -/
theorem Drains.drained (h : s.Sound) (hd : Drains s results t) : Drained s results t := by
  have hchain := hd.chain
  have haccounts := hchain.accounts lawful_progress h
  obtain ⟨first, second, u, rfl, hfirst, hnone, hsecond, hlasts⟩ := hd.split
  have hclock : u.now = s.now := (hfirst.frame lawful_effect).now
  refine ⟨hlasts.arrivals.trans hnone, hlasts.now.trans hclock, ?_, haccounts.known, ?_, ?_, ?_⟩
  · intro k inquiry hi
    obtain ⟨hu, hlt⟩ := hlasts.pending k inquiry hi
    rw [← hclock]
    exact hlt (List.mem_map_of_mem (Table.mem_of_get? hu))
  · intro k inquiry hi hover
    by_cases hr : ∃ r ∈ first ++ second, r.token = k
    · obtain ⟨r, hr, rfl⟩ := hr
      exact .inl ⟨r, ⟨hr, rfl⟩, fun r' hr' => haccounts.eq_of_token hr'.1 hr hr'.2⟩
    · have hdead := (haccounts.finished k inquiry hi hover).resolve_left hr
      exact .inr ⟨abandoned_of_dead hdead, fun r hm he => hr ⟨r, hm, he⟩⟩
  · intro k new hnew
    obtain ⟨old, hold, hp, -⟩ := haccounts.kept k new hnew
    exact ⟨old, hold, hp, hchain.continues h hold hnew⟩
  · intro k inquiry outcome hm hi hl
    obtain rfl := (h.waiting.own k inquiry hi).1
    have hstage := Stage.of_expiries h hi hl (hfirst.mono fun _ _ _ he => .effect he) hnone
      (.of_effects h hi hl hm hfirst) hsecond
    cases hstage.2 with
    | queued arrivals =>
      rw [hstage.1] at arrivals
      cases arrivals
    | @reported r mem token answers =>
      refine .inl ⟨⟨r, mem, token, answers⟩, fun r' hr' he => ?_⟩
      obtain rfl := haccounts.eq_of_token mem hr' (token.trans he.symm)
      exact answers.ne_timedOut
    | @looking value waiting answer pending purpose looks =>
      refine .inr ⟨fun r hr he => ?_, value, waiting, answer, pending, looks⟩
      obtain ⟨-, -, -, hover⟩ := haccounts.known r hr
      rw [he, pending] at hover
      cases hover

/-! ### Runs -/

/-- What is reported where an event drains the session, also if the event fails after that. -/
def Event.reports (s : Session) : Event → List Resolution
  | .pump => match drain s with
    | .ok results _ => results
    | .error _ _ => []
  | _ => []

/-- What is reported in a run. -/
def reported : Session → List Event → List Resolution
  | _, [] => []
  | s, event :: events => event.reports s ++ reported (s.step event) events

theorem ends_of_eq {α : Type} {x : SessionM α} {a : α} (hx : x s = .ok a t) :
    x.Ends s (fun b u => b = a ∧ u = t) fun _ _ => False := by
  unfold Action.Ends
  rw [hx]
  exact ⟨rfl, rfl⟩

/-- After a session was drained it is moved on. -/
theorem moves_pump (h : t.Sound) (hd : drain s = .ok results t) :
    Moves t (s.step .pump) := by
  apply after_of_ends
  unfold Event.act pump
  refine .bind (.bind ((ends_of_eq hd).mono ?_ fun _ _ h => h.elim))
  rintro results t ⟨rfl, rfl⟩
  have hw := twins_self h
  have hrest := Lock.bind hw (lock_acts results hw) fun grown _ _ hw _ =>
    Lock.bind hw (lock_redraw grown.eraseDups hw) fun _ _ _ hw _ =>
      Lock.pure (a := results) (Q := Anyhow) hw trivial
  exact hrest.moves.mono (fun _ _ h => .pure h) fun _ _ h => h

/-- What is reported at an event comes of draining the session. -/
theorem drained_of_reports (h : s.Steady) {event : Event} {r : Resolution}
    (hr : r ∈ event.reports s) : ∃ t, event = .pump ∧ drain s = .ok (event.reports s) t ∧
      Drained s (event.reports s) t ∧ Accounts s (event.reports s) t ∧ Moves s t := by
  have hends := ends_drain h
  cases event with
  | pump =>
    unfold Event.reports at hr ⊢
    unfold Action.Ends at hends
    cases hd : drain s with
    | error e t =>
      rw [hd] at hr
      cases hr
    | ok results t =>
      rw [hd] at hends
      exact ⟨t, rfl, rfl, hends.drained h.sound, hends.chain.accounts lawful_progress h.sound,
        hends.chain.moves (fun _ _ _ hu hp => lawful_progress.moves hu hp) h.sound⟩
  | _ => cases hr

/-- What will be reported is under way or still to be asked for. -/
theorem fresh_of_reported (events : List Event) (h : s.Steady) {r : Resolution}
    (hr : r ∈ reported s events) :
    s.nextToken ≤ r.token ∨ ∃ inquiry, s.pending.get? r.token = some inquiry := by
  induction events generalizing s with
  | nil => cases hr
  | cons event events ih =>
    rcases List.mem_append.1 hr with hr | hr
    · obtain ⟨t, -, -, hd, -⟩ := drained_of_reports h hr
      obtain ⟨inquiry, hi, -⟩ := hd.known r hr
      exact .inr ⟨inquiry, hi⟩
    · have hlater := Later.of_step h.sound event
      rcases ih (h.steps [event]) hr with hle | ⟨new, hi⟩
      · exact .inl (Int.le_trans hlater.nextToken hle)
      · by_cases hlt : r.token < s.nextToken
        · obtain ⟨old, hold, -⟩ := hlater.pending _ new hlt hi
          exact .inr ⟨old, hold⟩
        · exact .inl (Int.not_lt.1 hlt)

/-- **No request is reported twice in a run.** -/
theorem nodup_reported (events : List Event) (h : s.Steady) :
    ((reported s events).map Resolution.token).Nodup := by
  induction events generalizing s with
  | nil => exact List.nodup_nil
  | cons event events ih =>
    have hrest := ih (h.steps [event])
    cases hevent : event.reports s with
    | nil =>
      rw [reported, hevent]
      exact hrest
    | cons first more =>
      have hmem : first ∈ event.reports s := hevent ▸ List.mem_cons_self
      obtain ⟨t, rfl, hdrain, hd, ha, hmoves⟩ := drained_of_reports h hmem
      rw [reported, List.map_append, List.nodup_append]
      refine ⟨ha.distinct, hrest, ?_⟩
      rintro _ hleft _ hright rfl
      obtain ⟨r, hr, rfl⟩ := List.mem_map.1 hleft
      obtain ⟨r', hr', he⟩ := List.mem_map.1 hright
      obtain ⟨inquiry, hi, -, hover⟩ := hd.known r hr
      have hlt := (h.sound.waiting.own _ _ hi).2
      -- it is over when the session is drained, and no later request has its number
      have ht := h.sound.moves hmoves
      have hnext := (Later.of_moves h.sound hmoves).nextToken
      have hlater := Later.of_moves ht (moves_pump ht hdrain)
      rcases fresh_of_reported events (h.steps [.pump]) hr' with hle | ⟨new, hnew⟩
      · exact absurd hlt (Int.not_lt.2 (Int.le_trans (Int.le_trans hnext hlater.nextToken)
          (he ▸ hle)))
      · obtain ⟨old, hold, -⟩ := hlater.pending _ new (he ▸ Int.lt_of_lt_of_le hlt hnext) hnew
        rw [he, hover] at hold
        cases hold

/-- What holds of the requests of a session after a run. -/
structure Settlement (s : Session) (events : List Event) : Prop where
  once : ((reported s events).map Resolution.token).Nodup
  drained : ∀ results t, drain (s.steps events) = .ok results t →
    Drained (s.steps events) results t

/-- **Each request is settled once.** In no run is a request reported twice, and whenever a session
is drained, what has arrived for it is applied as what it is, what is late is ended, what is over
was reported or abandoned, and the queue is empty. -/
theorem settlement_steps (client : Client) (settings : Settings) (root : Path) (now : Number)
    (events : List Event) : Settlement (start client settings root now) events where
  once := nodup_reported events (.of_start ..)
  drained results t hd := by
    have h := (Steady.of_start client settings root now).steps events
    have hends := ends_drain h
    unfold Action.Ends at hends
    rw [hd] at hends
    exact hends.drained h.sound

end SymbolTrees.Session
