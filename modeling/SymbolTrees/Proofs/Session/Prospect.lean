import SymbolTrees.Proofs.Session.Display
import SymbolTrees.Proofs.Session.Settled
import SymbolTrees.Proofs.Tree.Fill

/-!
# Prospects

Where it is known beforehand what the outcome of every request and of every lookup will be, it is
known how each request will end: with a reason why there is nothing, or with the nodes for its
calls. An arrival that is as was known either leaves all prospects as they are, or it ends one
request the way it had to end.
-/

namespace SymbolTrees

open SymbolTrees.Server (Outcome)

/-- One outcome for every request, and one for each call of its answer that is looked up. -/
structure Outcomes where
  reply : Token → Outcome
  lookup : Token → Nat → Outcome

/-- How a request for nodes ends: without any, or with those for calls. -/
inductive Ending where
  | fails (reason : Failure)
  | brings (tree : TreeId) (calls : List Call) (found : List (Option LocatedSymbol))

/-- What a request that ended tells the user. -/
def Resolution.note? (r : Resolution) : Option Note :=
  match r.result with
  | .failure reason => some ⟨.warning, reason.message⟩
  | _ => none

namespace Ending

/-- What becomes of the node that waits. -/
def apply : Ending → Node → Node
  | fails _, node => { node with pending := none }
  | brings _ calls found, node =>
    { node with
      children := calls.zipWith (Session.childOf (node.depth + 1)) found
      expanded := true
      pending := none }

/-- The tree that grows. -/
def grown? : Ending → Option TreeId
  | fails _ => none
  | brings id _ _ => some id

/-- What is told to the user. -/
def note? : Ending → Option Note
  | fails reason => some ⟨.warning, reason.message⟩
  | brings .. => none

/-- The report that a request ended that way. -/
structure Reports (ending : Ending) (r : Resolution) : Prop where
  expands : ∃ id ref generation direction, r.purpose = .expand id ref generation direction
  grown : r.grown? = ending.grown?
  note : r.note? = ending.note?

/-- After its request has ended, nothing is under way for a node or below it. -/
theorem all_idle_apply (ending : Ending) {n : Node} (hleaf : n.children = []) :
    (ending.apply n).All (·.pending = none) := by
  cases ending with
  | fails reason => exact Node.all_leaf hleaf rfl
  | brings id calls found =>
    refine Node.all_iff.2 ⟨rfl, fun c hc => ?_⟩
    obtain ⟨i, hi⟩ := List.mem_iff_getElem?.1 hc
    obtain ⟨call, symbol, -, -, rfl⟩ := List.getElem?_zipWith_eq_some.1 hi
    obtain ⟨payload, -, he⟩ := Session.childOf_eq (n.depth + 1) call symbol
    rw [he]
    exact Node.all_leaf rfl rfl

end Ending

namespace Outcomes

/-- What is found for call number `i` by its lookup, where `old` was found so far. -/
def symbol (π : Outcomes) (token : Token) (calls : List Call) (i : Nat)
    (old : Option LocatedSymbol) : Option LocatedSymbol :=
  match π.lookup token i, calls[i]? with
  | .answer value, some call =>
    match LocatedSymbol.find? call.item value with
    | .ok symbol => symbol
    | .error _ => old
  | _, _ => old

/-- How a request ends that is not answered yet. -/
def ending (π : Outcomes) (token : Token) (id : TreeId) (direction : CallDirection) (name : Text)
    (resolves : Bool) : Ending :=
  match π.reply token with
  | .answer value =>
    match Session.callsOf direction value with
    | .ok (first :: rest) =>
      let calls := first :: rest
      .brings id calls
        (if resolves then calls.mapIdx fun i _ => π.symbol token calls i none
          else calls.map fun _ => none)
    | _ => .fails (.noCalls direction name)
  | outcome => .fails (.callsFailed direction name (outcome.error?.getD []))

end Outcomes

namespace Session

variable {s t : Session} {π : Outcomes} {inquiry : Inquiry} {k : Token} {id : TreeId}
  {ref : NodeRef} {results : List Resolution}

/-- The numbers of the calls of a request that are being looked up. -/
def awaited (s : Session) (inquiry : Inquiry) : List Nat :=
  (inquiry.lookups.filterMap s.lookups.get?).map Prod.snd

/-- What will have been found for the calls of a request. -/
def foretold (s : Session) (π : Outcomes) (inquiry : Inquiry) : List (Option LocatedSymbol) :=
  inquiry.found.mapIdx fun i old =>
    if i ∈ s.awaited inquiry then π.symbol inquiry.token inquiry.calls i old else old

/-- How a request for nodes ends, if a node waits for it and something is still to come. -/
def ending (s : Session) (π : Outcomes) (inquiry : Inquiry) : Option Ending :=
  match inquiry.purpose with
  | .expand id ref _ direction =>
    if !s.isLive inquiry then none
    else if inquiry.calls.isEmpty then
      some (π.ending inquiry.token id direction (s.node ref).name s.settings.resolveSymbols)
    else if inquiry.lookups.isEmpty then none
    else some (.brings id inquiry.calls (s.foretold π inquiry))
  | _ => none

/-- How the request `k` ends, if a node waits for it and something is still to come. -/
def prospect (s : Session) (π : Outcomes) (k : Token) : Option Ending :=
  (s.pending.get? k).bind (s.ending π)

/-- The root of a tree when all that is under way for its nodes has come. -/
def filled (s : Session) (π : Outcomes) (id : TreeId) : Node :=
  (s.tree id).root.fill fun k => (s.prospect π k).map Ending.apply

/-- What has arrived is as was known. -/
def Agrees (s : Session) (π : Outcomes) : Arrival → Prop
  | .reply k outcome => ∀ inquiry, s.pending.get? k = some inquiry → outcome = π.reply k ∧
    ∃ id ref generation direction, inquiry.purpose = .expand id ref generation direction
  | .lookup l outcome => ∀ k i, s.lookups.get? l = some (k, i) → outcome = π.lookup k i

/-- What a recording answers to lookups is as was known. -/
def Fits (s : Session) (π : Outcomes) : Prop :=
  ∀ k inquiry id ref generation direction value calls i call l, s.pending.get? k = some inquiry →
    inquiry.purpose = .expand id ref generation direction → π.reply k = .answer value →
    callsOf direction value = .ok calls → calls[i]? = some call →
      ∀ arrival ∈ s.client.prompt true l (.workspaceSymbols call.item.name),
        arrival = .lookup l (π.lookup k i)

/-! ### Requests with a prospect -/

theorem exists_of_prospect {ending : Ending} (h : s.prospect π k = some ending) :
    ∃ inquiry id ref generation direction, s.pending.get? k = some inquiry ∧
      inquiry.purpose = .expand id ref generation direction ∧ s.isLive inquiry := by
  obtain ⟨inquiry, hi, he⟩ := Option.bind_eq_some_iff.1 h
  unfold Session.ending at he
  split at he
  · rename_i id ref generation direction hp
    split at he
    · cases he
    · rename_i hl
      exact ⟨inquiry, id, ref, generation, direction, hi, hp, by simpa using hl⟩
  · cases he

theorem prospect_of_none (h : s.pending.get? k = none) : s.prospect π k = none := by
  rw [prospect, h]
  rfl

theorem prospect_of_dead (hi : s.pending.get? k = some inquiry) (hl : s.isLive inquiry = false) :
    s.prospect π k = none := by
  rw [prospect, hi, Option.bind_some, ending]
  split
  · rw [hl]
    rfl
  · rfl

section Live

variable {generation : Nat} {direction : CallDirection} (hi : s.pending.get? k = some inquiry)
  (hp : inquiry.purpose = .expand id ref generation direction) (hl : s.isLive inquiry)
include hi hp hl

theorem prospect_of_unanswered (hc : inquiry.calls = []) : s.prospect π k =
    some (π.ending inquiry.token id direction (s.node ref).name s.settings.resolveSymbols) := by
  rw [prospect, hi, Option.bind_some, ending, hp]
  simp [hl, hc]

theorem prospect_of_looking (hc : inquiry.calls ≠ []) (hlookups : inquiry.lookups ≠ []) :
    s.prospect π k = some (.brings id inquiry.calls (s.foretold π inquiry)) := by
  rw [prospect, hi, Option.bind_some, ending, hp]
  simp [hl, hc, hlookups]

end Live

/-- A node whose request has a prospect has nothing below it. -/
theorem Sound.leaf_of_prospect (h : s.Sound) (π : Outcomes) (id : TreeId) :
    (s.tree id).root.All fun m =>
      (m.pending.bind fun k => (s.prospect π k).map Ending.apply) ≠ none → m.children = [] := by
  intro path m hm hsome
  obtain ⟨f, hb⟩ := Option.ne_none_iff_exists'.1 hsome
  obtain ⟨k, hw, hk⟩ := Option.bind_eq_some_iff.1 hb
  obtain ⟨ending, hk, -⟩ := Option.map_eq_some_iff.1 hk
  obtain ⟨inquiry, other, ref, generation, direction, hi, hp, hl⟩ := exists_of_prospect hk
  obtain ⟨ref', direction', hp', -⟩ := (h.waiting.nodes id path m k hm hw).2 inquiry hi
  obtain ⟨rfl, -⟩ := Purpose.expand.inj (hp.symm.trans hp')
  have hoccurs : s.Occurs other path m := ⟨((h.isLive_iff hi hp).1 hl).1, hm⟩
  exact ((h.fits hoccurs).waiting (by simp [hw])).2.1

/-- What waits in a tree when all has come did so before, for something without a prospect. -/
theorem Sound.pending_of_filled (h : s.Sound) {path : List Nat} {n : Node}
    (hn : (s.filled π id).at? path = some n) (hw : n.pending = some k) :
    s.prospect π k = none ∧ ∃ m, (s.tree id).root.at? path = some m ∧ m.pending = some k := by
  have hidle : ∀ j f, (s.prospect π j).map Ending.apply = some f → ∀ m : Node, m.children = [] →
      (f m).All (·.pending = none) := by
    intro j f hf m hleaf
    obtain ⟨ending, -, rfl⟩ := Option.map_eq_some_iff.1 hf
    exact ending.all_idle_apply hleaf
  obtain ⟨hnone, hm⟩ := Node.pending_of_fill (h.leaf_of_prospect π id) hidle hn hw
  exact ⟨Option.map_eq_none_iff.1 hnone, hm⟩

/-! ### Prospects that stay -/

theorem foretold_congr (hl : ∀ l ∈ inquiry.lookups, t.lookups.get? l = s.lookups.get? l) :
    t.foretold π inquiry = s.foretold π inquiry := by
  have hawaited : t.awaited inquiry = s.awaited inquiry :=
    congrArg (List.map Prod.snd) (List.filterMap_congr hl)
  rw [foretold, foretold, hawaited]

theorem ending_congr (hlive : t.isLive inquiry = s.isLive inquiry)
    (hname : ∀ id ref generation direction, inquiry.purpose = .expand id ref generation direction →
      s.isLive inquiry → (t.node ref).name = (s.node ref).name)
    (hsettings : t.settings = s.settings)
    (hlookups : ∀ l ∈ inquiry.lookups, t.lookups.get? l = s.lookups.get? l) :
    t.ending π inquiry = s.ending π inquiry := by
  rw [ending, ending, hlive, hsettings, foretold_congr hlookups]
  split
  · rename_i id ref generation direction hpurpose
    cases hl : s.isLive inquiry with
    | false => rfl
    | true => rw [hname id ref generation direction hpurpose hl]
  · rfl

/-- A request that stays as it is ends as it would have ended. -/
theorem prospect_congr (h : s.Sound) (h' : t.Sound) (ha : Alters s results t) (hf : Frame s t)
    (hp : t.pending.get? k = s.pending.get? k)
    (hlookups : ∀ inquiry, s.pending.get? k = some inquiry → ∀ l ∈ inquiry.lookups,
      t.lookups.get? l = s.lookups.get? l) : t.prospect π k = s.prospect π k := by
  rw [prospect, prospect, hp]
  cases hi : s.pending.get? k with
  | none => rfl
  | some inquiry =>
    have hlive : s.isLive inquiry = t.isLive inquiry :=
      isLive_congr h h' ha.isOpen (ha.generation h) hi (hp.trans hi) rfl
    refine ending_congr hlive.symm (fun id ref generation direction hpurpose hl => ?_) hf.settings
      (hlookups inquiry hi)
    exact congrArg Payload.name
      (Node.payload_of_mark (ha.member h (h.live hi hpurpose hl).1).2)

/-- How requests end has nothing to do with how trees are drawn. -/
theorem prospect_shown (view : View) : (s.shown id view).prospect π k = s.prospect π k := by
  have hnode (ref : NodeRef) : (s.shown id view).node ref = s.node ref :=
    Registry.tree_update_of_keeps (fun t => t.node ref.place) rfl
  have hgeneration (other : TreeId) :
      ((s.shown id view).tree other).generation = (s.tree other).generation :=
    Registry.tree_update_of_keeps Tree.generation rfl
  have hlive (inquiry : Inquiry) : (s.shown id view).isLive inquiry = s.isLive inquiry := by
    simp only [isLive, hnode, isOpen_shown, hgeneration]
  rw [prospect, prospect]
  change (s.pending.get? k).bind _ = _
  cases s.pending.get? k with
  | none => rfl
  | some inquiry =>
    refine ending_congr (hlive inquiry) (fun _ ref _ _ _ _ => ?_) rfl fun _ _ => rfl
    rw [hnode]

theorem filled_shown (view : View) (other : TreeId) :
    (s.shown id view).filled π other = s.filled π other := by
  have hprospect (k : Token) : (s.shown id view).prospect π k = s.prospect π k :=
    prospect_shown view
  rw [filled, filled, root_shown, funext hprospect]

/-! ### Lookups that are sent -/

theorem mem_numbers {first l : Token} {n : Nat} :
    l ∈ numbers first n ↔ ∃ j < n, l = first + (j : Int) := by
  induction n generalizing first with
  | zero => simp [numbers]
  | succ n ih =>
    rw [numbers, List.mem_cons, ih]
    constructor
    · rintro (rfl | ⟨j, hj, rfl⟩)
      · exact ⟨0, Nat.succ_pos n, by simp⟩
      · exact ⟨j + 1, Nat.succ_lt_succ hj, (add_succ_number first j).symm⟩
    · rintro ⟨j, hj, rfl⟩
      cases j with
      | zero => exact .inl (by simp)
      | succ j => exact .inr ⟨j, Nat.lt_of_succ_lt_succ hj, add_succ_number first j⟩

/-- What arrives when lookups are sent is what the client has for them at once. -/
theorem mem_arrivals_seeking (inquiry : Inquiry) (calls : List Call) (index : Nat)
    {arrival : Arrival} (ha : arrival ∈ (s.seeking inquiry calls index).arrivals) :
    arrival ∈ s.arrivals ∨ ∃ (j : Nat) (call : Call), calls[j]? = some call ∧
      arrival ∈ s.client.prompt true (s.nextToken + (j : Int))
        (.workspaceSymbols call.item.name) := by
  induction calls generalizing s inquiry index with
  | nil => exact .inl ha
  | cons call rest ih =>
    rcases ih _ (index + 1) ha with ha | ⟨j, other, hj, ha⟩
    · rcases List.mem_append.1 ha with ha | ha
      · exact .inl ha
      · have hzero : s.nextToken + ((0 : Nat) : Int) = s.nextToken := Int.add_zero _
        exact .inr ⟨0, call, rfl, hzero.symm ▸ ha⟩
    · refine .inr ⟨j + 1, other, by simpa using hj, ?_⟩
      rw [add_succ_number]
      exact ha

theorem get?_lookups_dropped (inquiry : Inquiry) {l : Token} (hl : l ∉ inquiry.lookups) :
    (s.dropped inquiry).lookups.get? l = s.lookups.get? l :=
  (Table.get?_filter s.lookups l fun l => !inquiry.lookups.contains l).trans
    (if_pos (by simpa using hl))

section Elsewhere

variable (h : s.Sound) (he : Effect s results t) (hk : s.concerned ≠ some k)
include h he hk

/-- What is looked up for other requests is looked up on. -/
theorem Effect.lookups_of_ne {other : Inquiry} (ho : s.pending.get? k = some other) {l : Token}
    (hm : l ∈ other.lookups) : t.lookups.get? l = s.lookups.get? l := by
  obtain ⟨i, hl⟩ := h.looking.listed k other ho l hm
  -- it is not on the list of a request with another number
  have hnot {inquiry : Inquiry} (hi : s.pending.get? inquiry.token = some inquiry)
      (hne : inquiry.token ≠ k) : l ∉ inquiry.lookups := fun hin => by
    obtain ⟨j, hj⟩ := h.looking.listed inquiry.token inquiry hi l hin
    exact hne (congrArg Prod.fst (Option.some.inj (hj.symm.trans hl)))
  have hmatched {token : Token} {rest : List Arrival} {inquiry : Inquiry} {index : Nat}
      {found : List (Option LocatedSymbol)}
      (hx : s.lookups.get? token = some (inquiry.token, index)) (hne : inquiry.token ≠ k) :
      (s.matched rest token inquiry found).lookups.get? l = s.lookups.get? l := by
    refine (Table.get?_erase ..).trans (if_neg ?_)
    rintro rfl
    exact hne (congrArg Prod.fst (Option.some.inj (hx.symm.trans hl)))
  have hreply {token : Token} {outcome : Outcome} {rest : List Arrival}
      (ha : s.arrivals = .reply token outcome :: rest) : token ≠ k := by
    rintro rfl
    exact hk (concerned_of_reply ha)
  have hlookup {token : Token} {outcome : Outcome} {rest : List Arrival} {inquiry : Inquiry}
      {index : Nat} (ha : s.arrivals = .lookup token outcome :: rest)
      (hx : s.lookups.get? token = some (inquiry.token, index)) : inquiry.token ≠ k := by
    rintro rfl
    exact hk (concerned_of_lookup ha hx)
  cases he with
  | ignore => rfl
  | stale arrivals pending dead =>
    obtain rfl := (h.waiting.own _ _ pending).1
    exact get?_lookups_dropped _ (hnot pending (hreply arrivals))
  | refuse arrivals pending live =>
    obtain rfl := (h.waiting.own _ _ pending).1
    unfold failed
    split <;> exact get?_lookups_dropped _ (hnot pending (hreply arrivals))
  | pass arrivals pending passes =>
    obtain rfl := (h.waiting.own _ _ pending).1
    exact get?_lookups_dropped _ (hnot pending (hreply arrivals))
  | @adopt token value rest inquiry id ref generation direction calls arrivals pending =>
    obtain rfl := (h.waiting.own _ _ pending).1
    have hlist := hnot pending (hreply arrivals)
    exact get?_lookups_dropped (s := s.taken rest) (inquiry.answered calls) hlist
  | seek => exact get?_lookups_seeking_of_lt _ _ _ (h.looking.known l k i hl).1
  | find arrivals lookup pending => exact hmatched lookup (hlookup arrivals lookup)
  | finish arrivals lookup pending =>
    have hne := hlookup arrivals lookup
    exact (get?_lookups_dropped _ fun hin => hnot pending hne (List.mem_filter.1 hin).1).trans
      (hmatched lookup hne)
  | lapse arrivals lookup pending =>
    have hne := hlookup arrivals lookup
    exact (get?_lookups_dropped _ fun hin => hnot pending hne (List.mem_filter.1 hin).1).trans
      (hmatched lookup hne)

/-- An effect changes the prospect of at most the request that it is about. -/
theorem Effect.prospect_of_ne : t.prospect π k = s.prospect π k :=
  prospect_congr h (h.moves (he.moves h)) (he.alters h) he.frame (he.get?_pending_of_ne h hk)
    fun _ hi _ hl => he.lookups_of_ne h hk hi hl

end Elsewhere

/-! ### Lookups that come in -/

theorem mem_awaited {i : Nat} :
    i ∈ s.awaited inquiry ↔ ∃ l ∈ inquiry.lookups, ∃ k, s.lookups.get? l = some (k, i) := by
  simp only [awaited, List.mem_map, List.mem_filterMap, Prod.exists, exists_eq_right]
  constructor
  · rintro ⟨k, l, hl, hx⟩
    exact ⟨l, hl, k, hx⟩
  · rintro ⟨l, hl, k, hx⟩
    exact ⟨k, l, hl, hx⟩

/-- Where nothing is looked up, what was found is what will be. -/
theorem foretold_of_lookups_eq_nil (hnone : inquiry.lookups = []) :
    s.foretold π inquiry = inquiry.found := by
  have hawaited : s.awaited inquiry = [] := by rw [awaited, hnone]; rfl
  refine List.ext_getElem? fun i => ?_
  rw [foretold, List.getElem?_mapIdx, hawaited]
  cases inquiry.found[i]? <;> rfl

section Told

variable {token : Token} {index : Nat} {outcome : Outcome} {found : List (Option LocatedSymbol)}
  (h : s.Sound) (hl : s.lookups.get? token = some (inquiry.token, index))
  (hi : s.pending.get? inquiry.token = some inquiry)
include h hl hi

theorem mem_awaited_told (ht : t.lookups = s.lookups.erase token) {i : Nat} :
    i ∈ t.awaited (inquiry.told token found) ↔ i ∈ s.awaited inquiry ∧ i ≠ index := by
  have herase (l : Token) : t.lookups.get? l = if token = l then none else s.lookups.get? l := by
    rw [ht, Table.get?_erase]
  rw [mem_awaited, mem_awaited]
  constructor
  · rintro ⟨l, hm, k, hx⟩
    rw [herase] at hx
    split at hx
    · cases hx
    rename_i hne
    have hm := (List.mem_filter.1 hm).1
    refine ⟨⟨l, hm, k, hx⟩, ?_⟩
    rintro rfl
    obtain ⟨j, hj⟩ := h.looking.listed _ _ hi l hm
    obtain ⟨rfl, -⟩ := Prod.mk.inj (Option.some.inj (hx.symm.trans hj))
    exact hne (h.looking.once _ _ _ hl hx)
  · rintro ⟨⟨l, hm, k, hx⟩, hne⟩
    have hlt : token ≠ l := by
      rintro rfl
      exact hne (congrArg Prod.snd (Option.some.inj (hx.symm.trans hl)))
    refine ⟨l, List.mem_filter.2 ⟨hm, by simpa using Ne.symm hlt⟩, k, ?_⟩
    rw [herase, if_neg hlt, hx]

/-- What will have been found stays the same when the outcome of a lookup is in. -/
theorem foretold_told (ht : t.lookups = s.lookups.erase token)
    (htells : Tells inquiry index outcome found) (ho : outcome = π.lookup inquiry.token index) :
    t.foretold π (inquiry.told token found) = s.foretold π inquiry := by
  have hindex : index ∈ s.awaited inquiry :=
    mem_awaited.2 ⟨token, (h.mem_lookups hl hi).1, inquiry.token, hl⟩
  have hself : found[index]? =
      (inquiry.found[index]?).map (π.symbol inquiry.token inquiry.calls index) := by
    cases htells with
    | nothing unanswered =>
      have hsymbol : π.symbol inquiry.token inquiry.calls index = id := by
        funext old
        unfold Outcomes.symbol
        rw [← ho]
        cases outcome with
        | answer value => exact absurd rfl (unanswered value)
        | failure text => rfl
        | cancelled => rfl
      rw [hsymbol, Option.map_id, id]
    | @symbol value call symbol isCall read =>
      have hsymbol (old : Option LocatedSymbol) :
          π.symbol inquiry.token inquiry.calls index old = symbol := by
        unfold Outcomes.symbol
        rw [← ho, isCall]
        dsimp only
        rw [read]
      rw [List.getElem?_set_self']
      cases inquiry.found[index]? with
      | none => rfl
      | some old => exact congrArg some (hsymbol old).symm
  have hother {i : Nat} (hne : i ≠ index) : found[i]? = inquiry.found[i]? := by
    cases htells with
    | nothing => rfl
    | symbol => exact List.getElem?_set_ne (Ne.symm hne)
  refine List.ext_getElem? fun i => ?_
  rw [foretold, foretold, List.getElem?_mapIdx, List.getElem?_mapIdx]
  change (found[i]?).map _ = _
  by_cases hx : i = index
  · subst hx
    have hnot : i ∉ t.awaited (inquiry.told token found) := fun hm =>
      ((mem_awaited_told h hl hi ht).1 hm).2 rfl
    simp only [if_neg hnot, if_pos hindex, hself, Option.map_map]
    rfl
  · have hiff : i ∈ t.awaited (inquiry.told token found) ↔ i ∈ s.awaited inquiry := by
      rw [mem_awaited_told h hl hi ht]
      exact and_iff_left hx
    simp only [hiff, hother hx]
    rfl

end Told

end Session

end SymbolTrees
