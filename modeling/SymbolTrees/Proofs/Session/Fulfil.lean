import SymbolTrees.Proofs.Session.Prospect

/-!
# Prospects are fulfilled

As long as everything that arrives is as was known, what the trees will be does not change
(`Fulfils.filled`): requests end the way they had to end, one after the other, and those that have
not ended keep their prospects.
-/

namespace SymbolTrees

open SymbolTrees.Server (Outcome)

namespace Outcomes

variable {π : Outcomes} {s : Session} {k : Token} {id : TreeId} {ref : NodeRef} {generation : Nat}
  {direction : CallDirection} {resolves : Bool}

/-- An outcome that brings nothing was known to bring nothing, for the same reason. -/
theorem ending_of_refuses {reason : Failure}
    (h : Session.Refuses s (.expand id ref generation direction) (π.reply k) reason) :
    π.ending k id direction (s.node ref).name resolves = .fails reason := by
  unfold ending
  generalize π.reply k = outcome at h
  cases h with
  | callsFailed id ref generation direction unanswered =>
    cases outcome with
    | answer value => exact absurd rfl (unanswered value)
    | failure text => rfl
    | cancelled => rfl
  | noCalls id ref generation read =>
    dsimp only
    rw [read]

/-- An answer with calls was known to bring them. -/
theorem ending_of_answer {value : Json} {calls : List Call} {name : Text}
    (answer : π.reply k = .answer value) (read : Session.callsOf direction value = .ok calls)
    (some : calls ≠ []) : π.ending k id direction name resolves =
      .brings id calls (if resolves then calls.mapIdx fun i _ => π.symbol k calls i none
        else calls.map fun _ => none) := by
  unfold ending
  rw [answer]
  dsimp only
  rw [read]
  cases calls with
  | nil => exact absurd rfl some
  | cons first rest => rfl

end Outcomes

namespace Session

variable {s t u : Session} {π : Outcomes} {inquiry : Inquiry} {k : Token} {id : TreeId}
  {ref : NodeRef} {results more : List Resolution}

/-- A session in which everything that has arrived, and what a recording will answer to lookups, is
as was known. -/
structure Accordant (π : Outcomes) (s : Session) : Prop where
  steady : s.Steady
  /-- What has arrived was asked for. -/
  issued : ∀ arrival ∈ s.arrivals, arrival.token < s.nextToken
  queue : ∀ arrival ∈ s.arrivals, s.Agrees π arrival
  fits : s.Fits π

/-- What was reported had to end that way, and everything else will end as it would have. -/
structure Fulfils (π : Outcomes) (s : Session) (results : List Resolution) (t : Session) :
    Prop where
  foretold : ∀ r ∈ results, ∃ ending, s.prospect π r.token = some ending ∧ ending.Reports r
  prospects : ∀ k, t.prospect π k =
    if k ∈ results.map Resolution.token then none else s.prospect π k
  filled : ∀ id, t.filled π id = s.filled π id

namespace Fulfils

theorem refl (s : Session) : Fulfils π s [] s := ⟨fun _ hr => (by cases hr), fun _ => rfl, fun _ => rfl⟩

theorem log (h : Fulfils π s results t) (journal : Journal) :
    Fulfils π s results { t with journal := journal } := ⟨h.foretold, h.prospects, h.filled⟩

theorem trans (h : Fulfils π s results t) (h' : Fulfils π t more u) :
    Fulfils π s (results ++ more) u := by
  refine ⟨fun r hr => ?_, fun k => ?_, fun id => (h'.filled id).trans (h.filled id)⟩
  · rcases List.mem_append.1 hr with hr | hr
    · exact h.foretold r hr
    · obtain ⟨ending, hk, hreports⟩ := h'.foretold r hr
      refine ⟨ending, ?_, hreports⟩
      rw [h.prospects] at hk
      split at hk
      · cases hk
      · exact hk
  · rw [h'.prospects, h.prospects, List.map_append]
    by_cases hm : k ∈ more.map Resolution.token <;> simp [hm]

/-- Nothing ends. -/
theorem of_same (hr : t.registry = s.registry) (hp : ∀ k, t.prospect π k = s.prospect π k) :
    Fulfils π s [] t := by
  refine ⟨fun _ hr => (by cases hr), hp, fun id => ?_⟩
  have hroot : (t.tree id).root = (s.tree id).root := congrArg (fun r => (Registry.tree r id).root) hr
  rw [Session.filled, Session.filled, hroot, funext hp]

end Fulfils

section Ends

variable {f : Node → Node} {ending : Ending} {generation : Nat} {direction : CallDirection}
  (h : s.Sound) (hi : s.pending.get? inquiry.token = some inquiry)
  (hp : inquiry.purpose = .expand id ref generation direction) (hl : s.isLive inquiry)
include h hi hp hl

/-- No node waits for a request that ended. -/
theorem Sound.all_ne_of_ends (hf : f (s.node ref) = ending.apply (s.node ref)) (other : TreeId) :
    ((s.registry.updateNode ref f).tree other).root.All fun m => m.pending ≠ some inquiry.token := by
  have hm := (h.live hi hp hl).1
  have hw := (h.live hi hp hl).2.1
  have hstands := h.stands hm
  have hleaf : (s.node ref).children = [] :=
    ((h.fits (hm.occurs h)).waiting (by simp [hw])).2.1
  have hidle := ending.all_idle_apply hleaf
  have hthe {m : Node} (hm : (s.registry.tree ref.tree).root.at? ref.place.path = some m) :
      m = s.node ref := Option.some.inj (hm.symm.trans hstands.found)
  have hbecomes (m : Node) (hm : (s.registry.tree ref.tree).root.at? ref.place.path = some m) :
      m.Becomes (f m) := by
    obtain rfl := hthe hm
    refine ⟨?_, .inr hleaf⟩
    rw [hf]
    cases ending <;> rfl
  intro path m hn hwaits
  rcases Registry.at?_updateNode_cases hstands.planted hstands.current hbecomes hn with
    ⟨hne, x, hx, hr⟩ | ⟨rfl, y, hy, ⟨rfl, rfl⟩ | ⟨i, rest, -, -, hat⟩⟩
  · -- a node elsewhere that waits for it would be the one the request is for
    rw [hr.pending] at hwaits
    obtain ⟨ref', direction', hp', hpath⟩ :=
      (h.waiting.nodes other path x _ hx hwaits).2 inquiry hi
    obtain ⟨rfl, rfl, -⟩ := Purpose.expand.inj (hp.symm.trans hp')
    exact hne ⟨hm.tree.symm, hpath.symm⟩
  · obtain rfl := hthe hy
    rw [hf, hidle.root] at hwaits
    cases hwaits
  · obtain rfl := hthe hy
    rw [hf] at hat
    rw [hidle _ m hat] at hwaits
    cases hwaits

variable (hs : s.prospect π inquiry.token = some ending)
  (hregistry : t.registry = s.registry.updateNode ref f)
  (hf : f (s.node ref) = ending.apply (s.node ref))
  (hprospects : ∀ k, t.prospect π k = if k = inquiry.token then none else s.prospect π k)
include hs hregistry hf hprospects

/-- **When one request ends, its node becomes what it had to become**, and no tree will be another
one for that. -/
theorem filled_of_ends (other : TreeId) : t.filled π other = s.filled π other := by
  have hm := (h.live hi hp hl).1
  have hw := (h.live hi hp hl).2.1
  have hstands := h.stands hm
  have hidle := ending.all_idle_apply ((h.fits (hm.occurs h)).waiting (by simp [hw])).2.1
  have hcongr : t.filled π other =
      (t.tree other).root.fill fun k => (s.prospect π k).map Ending.apply := by
    refine Node.fill_congr _ fun path m hn => ?_
    cases hpending : m.pending with
    | none =>
      rw [hpending]
      rfl
    | some k =>
      have hne : k ≠ inquiry.token := by
        rintro rfl
        rw [tree, hregistry] at hn
        exact h.all_ne_of_ends hi hp hl hf other path m hn hpending
      rw [hpending, Option.bind_some, Option.bind_some, hprospects, if_neg hne]
  rw [hcongr, filled]
  by_cases hid : other = ref.tree
  · subst hid
    have htree : t.tree ref.tree = (s.tree ref.tree).modify ref.place f := by
      rw [tree, hregistry]
      exact Registry.tree_updateNode_self hstands.planted
    have hcurrent : (s.tree ref.tree).IsCurrent ref.place := hstands.current
    rw [htree, Tree.modify_of_isCurrent hcurrent]
    refine Node.fill_modifyAt hstands.found ?_ (h.leaf_of_prospect π ref.tree)
    have hfill : (s.node ref).pending.bind (fun k => (s.prospect π k).map Ending.apply) =
        some ending.apply := by
      rw [hw, Option.bind_some, hs]
      rfl
    rw [Node.fill_of_some hfill, hf]
    exact Node.fill_eq_self _ (hidle.mono fun m hnone => by rw [hnone]; rfl)
  · have htree : t.tree other = s.tree other := by
      rw [tree, hregistry]
      exact Registry.tree_update_of_ne hid
    rw [htree]

theorem Fulfils.of_ends {result : Result}
    (hr : ending.Reports ⟨inquiry.token, inquiry.purpose, result⟩) :
    Fulfils π s (report inquiry result) t := by
  refine ⟨fun r hm => ?_, fun k => ?_,
    filled_of_ends h hi hp hl hs hregistry hf hprospects⟩
  · obtain rfl := List.mem_singleton.1 hm
    exact ⟨ending, hs, hr⟩
  · rw [hprospects]
    simp [report]

end Ends

/-! ### Effects -/

/-- Nothing that an effect leaves to be looked up was looked up for something else. -/
theorem Effect.of_get?_lookups (he : Effect s results t) {l : Token}
    {target : Token × Nat} (hl : t.lookups.get? l = some target) (hlt : l < s.nextToken) :
    s.lookups.get? l = some target := by
  have hdropped {u : Session} {inquiry : Inquiry}
      (hx : (u.dropped inquiry).lookups.get? l = some target) :
      u.lookups.get? l = some target := (of_get?_dropped hx).2
  cases he with
  | ignore => exact hl
  | stale | pass => exact hdropped hl
  | adopt => exact hdropped (u := s.taken _) hl
  | refuse =>
    unfold failed at hl
    split at hl <;> exact hdropped hl
  | @seek token value rest inquiry id ref generation direction calls deadline =>
    have hsame : ((s.taken rest).rearmed inquiry calls deadline).lookups.get? l = s.lookups.get? l :=
      get?_lookups_seeking_of_lt _ _ _ hlt
    exact hsame.symm.trans hl
  | find => exact (Table.of_get?_erase hl).2
  | finish | lapse => exact (Table.of_get?_erase (hdropped hl)).2

/-- What arrives when the calls of a request are looked up is what a recording has for them. -/
theorem mem_arrivals_rearmed {calls : List Call} {deadline : Number} {arrival : Arrival}
    (ha : arrival ∈ (s.rearmed inquiry calls deadline).arrivals) : arrival ∈ s.arrivals ∨
      ∃ (j : Nat) (call : Call), calls[j]? = some call ∧ (s.rearmed inquiry calls deadline).lookups.get?
        (s.nextToken + (j : Int)) = some (inquiry.token, j) ∧
        arrival ∈ s.client.prompt true (s.nextToken + (j : Int))
          (.workspaceSymbols call.item.name) := by
  refine (mem_arrivals_seeking _ calls 0 ha).imp_right ?_
  rintro ⟨j, call, hj, hm⟩
  have hlt : j < calls.length := (List.getElem?_eq_some_iff.1 hj).1
  refine ⟨j, call, hj, ?_, hm⟩
  have hlookup := get?_lookups_seeking (s := { s with
    pending := s.pending.put inquiry.token (inquiry.asking calls deadline) })
    (inquiry.asking calls deadline) 0 hlt
  rwa [Nat.zero_add] at hlookup

/-- What an effect makes arrive: the outcome that the client has at once for the symbol of a call
that an answer brings. -/
inductive Ensues (s t : Session) (arrival : Arrival) : Prop where
  | lookup {value : Json} {inquiry : Inquiry} {id : TreeId} {ref : NodeRef} {generation : Nat}
    {direction : CallDirection} {calls : List Call} {j : Nat} {call : Call}
    (answer : .reply inquiry.token (.answer value) ∈ s.arrivals)
    (pending : s.pending.get? inquiry.token = some inquiry)
    (purpose : inquiry.purpose = .expand id ref generation direction)
    (read : callsOf direction value = .ok calls) (isCall : calls[j]? = some call)
    (lookup : t.lookups.get? (s.nextToken + (j : Int)) = some (inquiry.token, j))
    (prompt : arrival ∈ s.client.prompt true (s.nextToken + (j : Int))
      (.workspaceSymbols call.item.name)) : Ensues s t arrival

/-- What is in the queue after an effect was there before, or ensues from it. -/
theorem Effect.arrivals_cases (h : s.Sound) (he : Effect s results t) {arrival : Arrival}
    (hm : arrival ∈ t.arrivals) : arrival ∈ s.arrivals ∨ Ensues s t arrival := by
  have left {first : Arrival} {rest : List Arrival} (hs : s.arrivals = first :: rest)
      (ht : t.arrivals = rest) : arrival ∈ s.arrivals :=
    hs ▸ List.mem_cons_of_mem _ (ht ▸ hm)
  cases he with
  | ignore arrivals => exact .inl (left arrivals rfl)
  | stale arrivals => exact .inl (left arrivals rfl)
  | refuse arrivals => exact .inl (left arrivals spends_failed.arrivals)
  | pass arrivals => exact .inl (left arrivals rfl)
  | adopt arrivals => exact .inl (left arrivals rfl)
  | find arrivals => exact .inl (left arrivals rfl)
  | finish arrivals => exact .inl (left arrivals rfl)
  | lapse arrivals => exact .inl (left arrivals rfl)
  | seek arrivals pending purpose live read =>
    obtain rfl := (h.waiting.own _ _ pending).1
    rcases mem_arrivals_rearmed hm with hold | ⟨j, call, hj, hl, hprompt⟩
    · exact .inl (arrivals ▸ List.mem_cons_of_mem _ hold)
    · exact .inr (.lookup (arrivals ▸ List.mem_cons_self) pending purpose read hj hl hprompt)

/-- **As was known before an effect, so after it.** -/
theorem Accordant.effect (ha : Accordant π s) (he : Effect s results t) : Accordant π t := by
  have h := ha.steady.sound
  have hmoves := he.moves h
  have hkept := (he.accounts h).kept
  have hnext := (Later.of_moves h hmoves).nextToken
  -- what was in the queue is as was known, and what a recording adds to it too
  have hqueue : ∀ arrival ∈ t.arrivals, arrival ∈ s.arrivals ∨
      t.Agrees π arrival ∧ arrival.token < t.nextToken := by
    intro arrival hm
    refine (he.arrivals_cases h hm).imp_right ?_
    rintro ⟨answer, pending, purpose, read, hj, hl, hprompt⟩
    have hreply := (ha.queue _ answer _ pending).1.symm
    obtain rfl := ha.fits _ _ _ _ _ _ _ _ _ _ _ pending purpose hreply read hj _ hprompt
    refine ⟨fun parent i hx => ?_, ((h.moves hmoves).looking.known _ _ _ hl).1⟩
    obtain ⟨rfl, rfl⟩ := Prod.mk.inj (Option.some.inj (hl.symm.trans hx))
    rfl
  refine ⟨ha.steady.moves hmoves, fun arrival hm => ?_, fun arrival hm => ?_, ?_⟩
  · rcases hqueue arrival hm with hold | ⟨-, hlt⟩
    · exact Int.lt_of_lt_of_le (ha.issued arrival hold) hnext
    · exact hlt
  · rcases hqueue arrival hm with hold | ⟨hnew, -⟩
    · have hagrees := ha.queue arrival hold
      cases arrival with
      | reply token outcome =>
        intro new hnew
        obtain ⟨old, hi, hp, -⟩ := hkept token new hnew
        rw [hp]
        exact hagrees old hi
      | lookup token outcome =>
        intro parent i hl
        exact hagrees parent i (he.of_get?_lookups hl (ha.issued _ hold))
    · exact hnew
  · intro k new id ref generation direction value calls i call l hnew hp
    obtain ⟨old, hi, hpurpose, -⟩ := hkept k new hnew
    rw [he.frame.client]
    exact ha.fits k old id ref generation direction value calls i call l hi (hpurpose ▸ hp)

/-- The lookups that a request lists are those for its calls, if it listed none before. -/
theorem lookups_sought (hnone : inquiry.lookups = []) (calls : List Call) (deadline : Number) :
    (s.sought inquiry calls deadline).lookups = numbers s.nextToken calls.length := by
  change inquiry.lookups ++ _ = _
  rw [hnone, List.nil_append]

/-- When the calls of a request are looked up, all that will be found is what their lookups
bring. -/
theorem foretold_rearmed (hnone : inquiry.lookups = []) (calls : List Call) (deadline : Number) :
    (s.rearmed inquiry calls deadline).foretold π (s.sought inquiry calls deadline) =
      calls.mapIdx fun i _ => π.symbol inquiry.token calls i none := by
  refine List.ext_getElem? fun i => ?_
  rw [foretold, List.getElem?_mapIdx, List.getElem?_mapIdx]
  change ((calls.map fun _ => none)[i]?).map _ = _
  rw [List.getElem?_map]
  cases hc : calls[i]? with
  | none => rfl
  | some call =>
    have hlt : i < calls.length := (List.getElem?_eq_some_iff.1 hc).1
    have hawaited : i ∈ (s.rearmed inquiry calls deadline).awaited
        (s.sought inquiry calls deadline) := by
      have hlookup := get?_lookups_seeking (s := { s with
        pending := s.pending.put inquiry.token (inquiry.asking calls deadline) })
        (inquiry.asking calls deadline) 0 hlt
      rw [Nat.zero_add] at hlookup
      refine mem_awaited.2 ⟨_, ?_, _, hlookup⟩
      rw [lookups_sought hnone]
      exact mem_numbers.2 ⟨i, hlt, rfl⟩
    simp only [Option.map_some, if_pos hawaited]
    rfl

/-- The request whose calls are looked up now ends as it would have ended. -/
theorem prospect_rearmed (h : s.Sound) (hi : s.pending.get? inquiry.token = some inquiry)
    {generation : Nat} {direction : CallDirection}
    (hp : inquiry.purpose = .expand id ref generation direction) (hl : s.isLive inquiry)
    {value : Json} {calls : List Call} {deadline : Number}
    (hunanswered : inquiry.calls = []) (hanswer : π.reply inquiry.token = .answer value)
    (hread : callsOf direction value = .ok calls) (hsome : calls ≠ [])
    (hresolves : s.settings.resolveSymbols) :
    (s.rearmed inquiry calls deadline).prospect π inquiry.token = s.prospect π inquiry.token := by
  have hnone := h.looking.lookups_eq_nil hi hunanswered
  have hsought := (get?_pending_rearmed (s := s) calls deadline inquiry.token).trans (if_pos rfl)
  have hregistry : (s.rearmed inquiry calls deadline).registry = s.registry := registry_seeking ..
  have hlive : (s.rearmed inquiry calls deadline).isLive (s.sought inquiry calls deadline) := by
    have hsame : (s.rearmed inquiry calls deadline).isLive (s.sought inquiry calls deadline) =
        s.isLive inquiry := by
      simp only [isLive, isOpen, tree, node, hregistry]
      rfl
    rw [hsame]
    exact hl
  have hlookups : (s.sought inquiry calls deadline).lookups ≠ [] := by
    rw [lookups_sought hnone]
    cases calls with
    | nil => exact absurd rfl hsome
    | cons call rest => simp [numbers]
  rw [prospect_of_looking hsought hp hlive hsome hlookups, foretold_rearmed hnone,
    prospect_of_unanswered hi hp hl hunanswered, Outcomes.ending_of_answer hanswer hread hsome,
    if_pos hresolves]
  rfl

/-! ### What was known of the request that an arrival is about -/

section Answered

variable {generation : Nat} {direction : CallDirection}
  (hi : s.pending.get? inquiry.token = some inquiry)
  (hp : inquiry.purpose = .expand id ref generation direction) (hl : s.isLive inquiry)
  (hunanswered : inquiry.calls = [])
include hi hp hl hunanswered

/-- A request whose outcome brings nothing had to fail, for the same reason. -/
theorem prospect_of_refuses {reason : Failure}
    (hrefuses : Refuses s inquiry.purpose (π.reply inquiry.token) reason) :
    s.prospect π inquiry.token = some (.fails reason) := by
  rw [prospect_of_unanswered hi hp hl hunanswered, Outcomes.ending_of_refuses (hp ▸ hrefuses)]

/-- Where nothing is looked up, a request had to bring the calls of its answer as they are. -/
theorem prospect_of_plain {value : Json} {calls : List Call}
    (hanswer : π.reply inquiry.token = .answer value) (hread : callsOf direction value = .ok calls)
    (hsome : calls ≠ []) (hplain : s.settings.resolveSymbols = false) :
    s.prospect π inquiry.token = some (.brings id calls (calls.map fun _ => none)) := by
  rw [prospect_of_unanswered hi hp hl hunanswered,
    Outcomes.ending_of_answer hanswer hread hsome, hplain]
  rfl

end Answered

section Found

variable {token : Token} {index : Nat} {outcome : Outcome} {found : List (Option LocatedSymbol)}
  {generation : Nat} {direction : CallDirection} (h : s.Sound)
  (hlookup : s.lookups.get? token = some (inquiry.token, index))
  (hi : s.pending.get? inquiry.token = some inquiry)
  (hp : inquiry.purpose = .expand id ref generation direction)
  (htells : Tells inquiry index outcome found) (houtcome : outcome = π.lookup inquiry.token index)
include h hlookup hi hp htells houtcome

/-- A request that still waits for other lookups ends as it would have ended. -/
theorem prospect_matched (rest : List Arrival) (hmore : (inquiry.told token found).lookups ≠ []) :
    (s.matched rest token inquiry found).prospect π inquiry.token =
      s.prospect π inquiry.token := by
  have hput : (s.matched rest token inquiry found).pending.get? inquiry.token =
      some (inquiry.told token found) := Table.get?_put_self ..
  have hsame : (s.matched rest token inquiry found).isLive (inquiry.told token found) =
      s.isLive inquiry := rfl
  have hcalls := h.calls_of_lookup hlookup hi
  cases hl : s.isLive inquiry with
  | false => rw [prospect_of_dead hi hl, prospect_of_dead hput (hsame.trans hl)]
  | true =>
    rw [prospect_of_looking hi hp hl hcalls
        (List.ne_nil_of_mem (h.mem_lookups hlookup hi).1),
      prospect_of_looking hput hp (hsame.trans hl) hcalls hmore,
      foretold_told h hlookup hi rfl htells houtcome]
    rfl

/-- A request whose last lookup is in had to bring what has been found. -/
theorem prospect_of_last (hl : s.isLive inquiry) (hlast : (inquiry.told token found).lookups = []) :
    s.prospect π inquiry.token = some (.brings id inquiry.calls found) := by
  have hfound : s.foretold π inquiry = found := by
    rw [← foretold_told (t := s.matched [] token inquiry found) h hlookup hi rfl htells houtcome,
      foretold_of_lookups_eq_nil hlast]
    rfl
  rw [prospect_of_looking hi hp hl (h.calls_of_lookup hlookup hi)
    (List.ne_nil_of_mem (h.mem_lookups hlookup hi).1), hfound]

end Found

section Concerned

variable (h : s.Sound) (he : Effect s results t) (hc : s.concerned = some k)
include h he hc

/-- A request that an effect ends has no prospect any more, and others keep theirs. -/
theorem Effect.prospect_of_ended (hnone : t.pending.get? k = none) (other : Token) :
    t.prospect π other = if other = k then none else s.prospect π other := by
  split
  · rename_i hk
    exact hk ▸ prospect_of_none hnone
  · rename_i hk
    exact he.prospect_of_ne h fun heq => hk (Option.some.inj (heq.symm.trans hc))

/-- An effect that leaves the nodes and the request it is about as they will be keeps all so. -/
theorem Effect.fulfils_of_same (hregistry : t.registry = s.registry)
    (hsame : t.prospect π k = s.prospect π k) : Fulfils π s [] t := by
  refine .of_same hregistry fun other => ?_
  by_cases hk : other = k
  · exact hk ▸ hsame
  · exact he.prospect_of_ne h fun heq => hk (Option.some.inj (heq.symm.trans hc))

end Concerned

/-- **What arrives as was known ends a request as it had to end**, or changes no prospect. -/
theorem Effect.fulfils (ha : Accordant π s) (he : Effect s results t) : Fulfils π s results t := by
  have h := ha.steady.sound
  have agrees {arrival : Arrival} {rest : List Arrival} (hs : s.arrivals = arrival :: rest) :
      s.Agrees π arrival := ha.queue arrival (hs ▸ List.mem_cons_self)
  have unanswered {inquiry : Inquiry} {outcome : Outcome} {rest : List Arrival}
      (hs : s.arrivals = .reply inquiry.token outcome :: rest)
      (hi : s.pending.get? inquiry.token = some inquiry) : inquiry.calls = [] :=
    h.calls_eq_nil (hs ▸ List.mem_cons_self) hi
  have erased (token : Token) : Table.get? (s.pending.erase token) token = none :=
    (Table.get?_erase ..).trans (if_pos rfl)
  have heffect := he
  cases he with
  | ignore => exact .of_same rfl fun _ => rfl
  | stale arrivals pending dead =>
    obtain rfl := (h.waiting.own _ _ pending).1
    refine heffect.fulfils_of_same h (concerned_of_reply arrivals) rfl ?_
    rw [prospect_of_none (erased _), prospect_of_dead pending dead]
  | @refuse token outcome rest inquiry reason arrivals pending live refuses =>
    obtain rfl := (h.waiting.own _ _ pending).1
    obtain ⟨rfl, id, ref, generation, direction, hp⟩ := agrees arrivals inquiry pending
    have hs := prospect_of_refuses pending hp live (unanswered arrivals pending) refuses
    refine .of_ends h pending hp live hs (f := fun n => { n with pending := none }) ?_ rfl
      (heffect.prospect_of_ended h (concerned_of_reply arrivals) ?_) ⟨⟨_, _, _, _, hp⟩, rfl, rfl⟩
    · rw [failed, hp]
      rfl
    · rw [pending_failed]
      exact erased _
  | pass arrivals pending passes =>
    obtain ⟨-, id, ref, generation, direction, hp⟩ := agrees arrivals _ pending
    obtain ⟨request, hopens⟩ := passes.opens
    exact absurd hp (hopens.ne_expand _ _ _ _)
  | @adopt token value rest inquiry id ref generation direction calls arrivals pending hp live read
      some plain =>
    obtain rfl := (h.waiting.own _ _ pending).1
    have hanswer := (agrees arrivals inquiry pending).1.symm
    have hs := prospect_of_plain pending hp live (unanswered arrivals pending) hanswer read some
      plain
    refine .of_ends h pending hp live hs (f := fun n => { n with
      children := s.childrenOf (inquiry.answered calls) ref, expanded := true, pending := none })
      rfl rfl (heffect.prospect_of_ended h (concerned_of_reply arrivals) (erased _))
      ⟨⟨_, _, _, _, hp⟩, ?_, rfl⟩
    simp only [Resolution.grown?, hp, Ending.grown?]
  | @seek token value rest inquiry id ref generation direction calls deadline arrivals pending hp
      live read some resolves =>
    obtain rfl := (h.waiting.own _ _ pending).1
    have hanswer := (agrees arrivals inquiry pending).1.symm
    have htaken : (s.taken rest).Sound := h.move (.ignore arrivals)
    refine heffect.fulfils_of_same h (concerned_of_reply arrivals) (registry_seeking ..) ?_
    exact prospect_rearmed htaken pending hp live (unanswered arrivals pending) hanswer read some
      resolves
  | @find token outcome rest inquiry index found arrivals lookup pending tells more =>
    have hcalls := h.calls_of_lookup lookup pending
    obtain ⟨id, ref, generation, direction, hp⟩ := ha.steady.expands _ inquiry pending hcalls
    exact heffect.fulfils_of_same h (concerned_of_lookup arrivals lookup) rfl
      (prospect_matched h lookup pending hp tells (agrees arrivals _ _ lookup) rest more)
  | @finish token outcome rest inquiry index found id ref generation direction arrivals lookup
      pending tells last hp live =>
    have hs := prospect_of_last h lookup pending hp tells (agrees arrivals _ _ lookup) live last
    refine .of_ends h pending hp live hs (f := fun n => { n with
      children := s.childrenOf (inquiry.told token found) ref, expanded := true, pending := none })
      rfl rfl (heffect.prospect_of_ended h (concerned_of_lookup arrivals lookup) ?_)
      ⟨⟨_, _, _, _, hp⟩, ?_, rfl⟩
    · exact (congrArg (Table.get? · inquiry.token) pending_matched_dropped).trans (erased _)
    · simp only [Resolution.grown?, hp, Ending.grown?]
  | @lapse token outcome rest inquiry index found arrivals lookup pending tells last dead =>
    refine heffect.fulfils_of_same h (concerned_of_lookup arrivals lookup) rfl ?_
    rw [prospect_of_dead pending dead]
    exact prospect_of_none
      ((congrArg (Table.get? · inquiry.token) pending_matched_dropped).trans (erased _))

/-- **What was known of everything that arrives stays known, and is fulfilled.** -/
theorem Accordant.chain (ha : Accordant π s) (hc : Chain Effect s results t) :
    Accordant π t ∧ Fulfils π s results t := by
  induction hc with
  | refl => exact ⟨ha, .refl s⟩
  | @log results t journal before same ih =>
    obtain ⟨ha, hf⟩ := ih
    exact ⟨⟨ha.steady.log journal, ha.issued, ha.queue, ha.fits⟩, hf.log journal⟩
  | tail before next ih =>
    obtain ⟨ha, hf⟩ := ih
    exact ⟨ha.effect next, hf.trans (next.fulfils ha)⟩

end Session

end SymbolTrees
