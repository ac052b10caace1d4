import SymbolTrees.Proofs.Session.Economy
import SymbolTrees.Proofs.Session.Serve
import SymbolTrees.Proofs.Unfolding

/-!
# Sessions on a recording

A recording answers at once. So in a session on a recording whatever is under way has been answered
already, and when the session is drained, nothing is left: no request can time out, however short
the time is.
-/

namespace SymbolTrees

open SymbolTrees.Server (Outcome Request)
open SymbolTrees.Server.Recording (answer_calls answer_symbols callTable callsOf_listed calls
  find?_listed isRecorded_of_mem_calls IsRecorded isWellFormed listed)

namespace Session

variable {s t : Session} {inquiry : Inquiry} {results : List Resolution} {k : Token}

/-! ### Answers that come at once -/

/-- The symbols of a name are found at once, or it is found at once that there are none. -/
def IsPrompt (s : Session) (name : Text) : Prop :=
  ∀ l, ∃ outcome, s.client.prompt true l (.workspaceSymbols name) = [.lookup l outcome]

/-- All that a request waits for is in the queue: its answer, or the outcomes of its lookups. -/
def Supplied (s : Session) (k : Token) (inquiry : Inquiry) : Prop :=
  (∃ outcome, .reply k outcome ∈ s.arrivals) ∨
    inquiry.lookups ≠ [] ∧ ∀ l ∈ inquiry.lookups, ∃ outcome, .lookup l outcome ∈ s.arrivals

theorem Supplied.mono (h : s.Supplied k inquiry)
    (hin : ∀ arrival ∈ s.arrivals, arrival ∈ t.arrivals) : t.Supplied k inquiry := by
  rcases h with ⟨outcome, hm⟩ | ⟨hsome, hall⟩
  · exact .inl ⟨outcome, hin _ hm⟩
  · refine .inr ⟨hsome, fun l hl => ?_⟩
    obtain ⟨outcome, hm⟩ := hall l hl
    exact ⟨outcome, hin _ hm⟩

/-- Where nothing is in the queue, nothing is under way. -/
theorem pending_eq_nil_of_supplied (h : s.Sound)
    (hs : ∀ k inquiry, s.pending.get? k = some inquiry → s.Supplied k inquiry)
    (ha : s.arrivals = []) : s.pending = [] := by
  refine List.eq_nil_iff_forall_not_mem.2 fun entry hm => ?_
  have hi := Table.get?_of_mem h.waiting.distinct hm
  rcases hs _ _ hi with ⟨outcome, hr⟩ | ⟨hsome, hall⟩
  · rw [ha] at hr
    cases hr
  · obtain ⟨l, hl⟩ := List.exists_mem_of_ne_nil _ hsome
    obtain ⟨outcome, hr⟩ := hall l hl
    rw [ha] at hr
    cases hr

/-- For every call whose symbol is looked up the outcome arrives. -/
theorem exists_lookup_seeking (inquiry : Inquiry) {calls : List Call}
    (hprompt : ∀ call ∈ calls, s.IsPrompt call.item.name) (index : Nat) {j : Nat}
    (hj : j < calls.length) :
    ∃ outcome, .lookup (s.nextToken + (j : Int)) outcome ∈
      (s.seeking inquiry calls index).arrivals := by
  induction calls generalizing s inquiry index j with
  | nil => cases hj
  | cons call rest ih =>
    obtain ⟨hcall, hrest⟩ := List.forall_mem_cons.1 hprompt
    rw [seeking]
    cases j with
    | zero =>
      obtain ⟨outcome, hanswer⟩ := hcall s.nextToken
      have hzero : s.nextToken + ((0 : Nat) : Int) = s.nextToken := Int.add_zero _
      obtain ⟨more, he, -⟩ := arrivals_seeking (s := (s.looking inquiry.token inquiry index).posted
        s.nextToken true (.workspaceSymbols call.item.name))
        { inquiry with lookups := inquiry.lookups ++ [s.nextToken] } rest (index + 1)
      refine ⟨outcome, ?_⟩
      rw [hzero, he]
      refine List.mem_append_left _ (List.mem_append_right _ ?_)
      change _ ∈ s.client.prompt true s.nextToken _
      rw [hanswer]
      exact List.mem_cons_self
    | succ j =>
      obtain ⟨outcome, hm⟩ := ih (s := (s.looking inquiry.token inquiry index).posted s.nextToken
        true (.workspaceSymbols call.item.name))
        { inquiry with lookups := inquiry.lookups ++ [s.nextToken] } hrest (index + 1)
        (Nat.lt_of_succ_lt_succ hj)
      rw [add_succ_number]
      exact ⟨outcome, hm⟩

/-- For every call whose symbol is looked up a lookup is sent. -/
theorem exists_sent_seeking (inquiry : Inquiry) {calls : List Call} (index : Nat) {call : Call}
    (hcall : call ∈ calls) :
    ∃ r ∈ (s.seeking inquiry calls index).sent, r.request = .workspaceSymbols call.item.name := by
  induction calls generalizing s inquiry index with
  | nil => cases hcall
  | cons first rest ih =>
    rcases List.mem_cons.1 hcall with rfl | hcall
    · rw [seeking, sent_seeking]
      exact ⟨_, List.mem_append_left _ (List.mem_append_right _ List.mem_cons_self), rfl⟩
    · exact ih _ _ hcall

/-- Every arrival but the one that is dealt with stays in the queue, so that what other requests
wait for is there. -/
theorem Effect.supplied_of_ne (h : s.Sound) (he : Effect s results t) (hk : s.concerned ≠ some k)
    (hi : s.pending.get? k = some inquiry) (hs : s.Supplied k inquiry) : t.Supplied k inquiry := by
  rcases hs with ⟨outcome, hm⟩ | ⟨hsome, hall⟩
  · exact .inl ⟨outcome, he.mem_arrivals_of_ne hk hm⟩
  · refine .inr ⟨hsome, fun l hl => ?_⟩
    obtain ⟨outcome, hm⟩ := hall l hl
    obtain ⟨arrival, rest, more, hs, ht, -⟩ := he.arrivals
    rw [hs] at hm
    rcases List.mem_cons.1 hm with rfl | hm
    · obtain ⟨index, hlookup⟩ := h.looking.listed k inquiry hi l hl
      exact absurd (concerned_of_lookup hs hlookup) hk
    · exact ⟨outcome, ht ▸ List.mem_append_left _ hm⟩

/-- A request whose calls are looked up waits for lookups that are answered at once. -/
theorem supplied_rearmed {calls : List Call} {deadline : Number} (hnone : inquiry.lookups = [])
    (hsome : calls ≠ []) (hprompt : ∀ r ∈ (s.rearmed inquiry calls deadline).sent, ∀ name,
      r.request = .workspaceSymbols name → s.IsPrompt name) :
    (s.rearmed inquiry calls deadline).Supplied k (s.sought inquiry calls deadline) := by
  have hnumbers := lookups_sought (s := s) hnone calls deadline
  refine .inr ⟨?_, fun l hl => ?_⟩
  · rw [hnumbers]
    cases calls with
    | nil => exact absurd rfl hsome
    | cons call rest => simp [numbers]
  · rw [hnumbers] at hl
    obtain ⟨j, hj, rfl⟩ := mem_numbers.1 hl
    refine exists_lookup_seeking (s := { s with
      pending := s.pending.put inquiry.token (inquiry.asking calls deadline) })
      (inquiry.asking calls deadline) (fun call hcall => ?_) 0 hj
    obtain ⟨r, hr, hname⟩ := exists_sent_seeking (inquiry.asking calls deadline) 0 hcall
    exact hprompt r hr _ hname

/-- A request of which one lookup is in waits for the other ones. -/
theorem supplied_matched (h : s.Sound) {token : Token} {outcome : Outcome} {rest : List Arrival}
    {index : Nat} {found : List (Option LocatedSymbol)}
    (arrivals : s.arrivals = .lookup token outcome :: rest)
    (lookup : s.lookups.get? token = some (inquiry.token, index))
    (pending : s.pending.get? inquiry.token = some inquiry)
    (more : (inquiry.told token found).lookups ≠ []) (hs : s.Supplied inquiry.token inquiry) :
    (s.matched rest token inquiry found).Supplied inquiry.token (inquiry.told token found) := by
  refine .inr ⟨more, fun l hm => ?_⟩
  obtain ⟨hm, hne⟩ := List.mem_filter.1 hm
  rcases hs with ⟨other, hreply⟩ | ⟨-, hall⟩
  · exact absurd (h.calls_eq_nil hreply pending) (h.calls_of_lookup lookup pending)
  · obtain ⟨other, hin⟩ := hall l hm
    rw [arrivals] at hin
    rcases List.mem_cons.1 hin with he | hin
    · exact absurd (Arrival.lookup.inj he).1 (by simpa using hne)
    · exact ⟨other, hin⟩

/-- **What is under way stays answered**, where the lookups that are sent are answered at once. -/
theorem Effect.supplied (h : s.Sound) (he : Effect s results t)
    (hprompt : ∀ r ∈ t.sent, ∀ name, r.request = .workspaceSymbols name → s.IsPrompt name)
    (ha : ∀ k inquiry, s.pending.get? k = some inquiry → s.Supplied k inquiry) {new : Inquiry}
    (hnew : t.pending.get? k = some new) : t.Supplied k new := by
  by_cases hk : s.concerned = some k
  swap
  · rw [he.get?_pending_of_ne h hk] at hnew
    exact he.supplied_of_ne h hk hnew (ha k new hnew)
  have gone {token : Token} (hc : s.concerned = some token)
      (ht : t.pending = s.pending.erase token) : t.Supplied k new := by
    obtain rfl := Option.some.inj (hc.symm.trans hk)
    rw [ht, Table.get?_erase, if_pos rfl] at hnew
    cases hnew
  cases he with
  | ignore arrivals unheeded => exact absurd (heeds_of_concerned arrivals hk hnew) unheeded
  | stale arrivals pending =>
    obtain rfl := (h.waiting.own _ _ pending).1
    exact gone (concerned_of_reply arrivals) rfl
  | refuse arrivals pending =>
    obtain rfl := (h.waiting.own _ _ pending).1
    exact gone (concerned_of_reply arrivals) pending_failed
  | pass arrivals pending =>
    obtain rfl := (h.waiting.own _ _ pending).1
    exact gone (concerned_of_reply arrivals) rfl
  | adopt arrivals pending =>
    obtain rfl := (h.waiting.own _ _ pending).1
    exact gone (concerned_of_reply arrivals) rfl
  | seek arrivals pending purpose live read some =>
    obtain rfl := (h.waiting.own _ _ pending).1
    obtain rfl := Option.some.inj ((concerned_of_reply arrivals).symm.trans hk)
    rw [get?_pending_rearmed, if_pos rfl] at hnew
    obtain rfl := Option.some.inj hnew
    exact supplied_rearmed (h.lookups_of_reply arrivals pending) some hprompt
  | @find token outcome rest inquiry index found arrivals lookup pending tells more =>
    obtain rfl := Option.some.inj ((concerned_of_lookup arrivals lookup).symm.trans hk)
    have hput : (s.matched rest token inquiry found).pending.get? inquiry.token =
        some (inquiry.told token found) := Table.get?_put_self ..
    obtain rfl := Option.some.inj (hput.symm.trans hnew)
    exact supplied_matched h arrivals lookup pending more (ha _ inquiry pending)
  | finish arrivals lookup pending =>
    exact gone (concerned_of_lookup arrivals lookup) pending_matched_dropped
  | lapse arrivals lookup pending =>
    exact gone (concerned_of_lookup arrivals lookup) pending_matched_dropped

end Session

/-! ### Trees of recordings -/

/-- A tree of calls in a session on a well-formed recording. -/
structure Replay where
  recording : Json.Fields
  wellFormed : isWellFormed recording
  /-- The item at the root. -/
  item : CallItem
  recorded : IsRecorded item
  direction : CallDirection
  /-- Whether symbols are looked up. -/
  resolves : Bool
  style : Style
  tree : TreeId
  handle : Int

namespace Replay

variable (r : Replay)

/-- What the recording has as the calls of the items with a name. -/
def callsAnswer (name : Text) : Outcome :=
  .answer (.arr (listed r.recording (callTable r.direction) name))

/-- What the recording has as the symbols with a name. -/
def symbolsAnswer (name : Text) : Outcome :=
  .answer (.arr (listed r.recording "workspaceSymbols" name))

/-- The root of the tree when it is unfolded by some levels. -/
def root (levels : Nat) : Node :=
  unfolding r.recording r.direction r.resolves levels (.call r.item) r.item 0 []

theorem prompt_calls {item : CallItem} (hi : IsRecorded item) (token : Token) :
    Client.prompt (.replay (.obj r.recording)) false token (.calls r.direction item) =
      [.reply token (r.callsAnswer item.name)] := by
  rw [Client.prompt, answer_calls r.wellFormed hi]
  rfl

theorem prompt_symbols (token : Token) (name : Text) :
    Client.prompt (.replay (.obj r.recording)) true token (.workspaceSymbols name) =
      [.lookup token (r.symbolsAnswer name)] := by
  rw [Client.prompt, answer_symbols r.wellFormed]
  rfl

/-- Every node of the tree shows a recorded item. -/
theorem standsFor {levels : Nat} {path : List Nat} {m : Node}
    (hm : (r.root levels).at? path = some m) : ∃ item, StandsFor m.payload item :=
  standsFor_of_at?_unfolding r.wellFormed (.call r.recorded) hm

end Replay

namespace Session

variable {r : Replay} {s t : Session} {results : List Resolution} {level : Nat}

/-- A session on a recording with one open tree. What has arrived is what the recording has. -/
structure Replays (r : Replay) (s : Session) : Prop where
  steady : s.Steady
  client : s.client = .replay (.obj r.recording)
  timely : ∃ now timeout, s.now = .float now ∧ s.settings.timeout = .float timeout
  resolves : s.settings.resolveSymbols = r.resolves
  style : s.style = r.style
  isOpen : s.isOpen r.tree
  alone : ∀ id, s.isOpen id → id = r.tree
  frame : (s.tree r.tree).frame = (r.handle, .calls r.direction, none, false, false, [])
  replies : ∀ k outcome, .reply k outcome ∈ s.arrivals → ∃ name, outcome = r.callsAnswer name
  lookups : ∀ l outcome, .lookup l outcome ∈ s.arrivals → ∃ name, outcome = r.symbolsAnswer name
  purposes : ∀ k inquiry, s.pending.get? k = some inquiry →
    ∃ ref generation, inquiry.purpose = .expand r.tree ref generation r.direction
  supplied : ∀ k inquiry, s.pending.get? k = some inquiry → s.Supplied k inquiry

namespace Replays

theorem exists_deadline (h : s.Replays r) :
    ∃ deadline, s.now.add s.settings.timeout = .ok deadline := by
  obtain ⟨now, timeout, hn, ht⟩ := h.timely
  exact ⟨_, by rw [hn, ht]; rfl⟩

theorem isPrompt (h : s.Replays r) (name : Text) : s.IsPrompt name := fun l =>
  ⟨r.symbolsAnswer name, by rw [h.client, r.prompt_symbols]⟩

/-- The recording has an answer to every lookup. -/
theorem not_baffled (h : s.Replays r) (name : Text) :
    ¬s.client.Baffled (.workspaceSymbols name) := by
  rintro ⟨recording, reason, hc, he⟩
  obtain rfl := Client.replay.inj (h.client.symm.trans hc)
  cases (answer_symbols r.wellFormed name).symm.trans he

/-- Whatever has arrived can be dealt with. -/
theorem not_stumbles (h : s.Replays r) : ¬s.Stumbles t := by
  have hpurpose {k : Token} {inquiry : Inquiry} (hi : s.pending.get? k = some inquiry) :=
    h.purposes k inquiry hi
  have head {arrival : Arrival} {rest : List Arrival} (ha : s.arrivals = arrival :: rest) :
      arrival ∈ s.arrivals := ha ▸ List.mem_cons_self
  intro hs
  cases hs with
  | calls arrivals pending purpose live unreadable =>
    obtain ⟨name, hn⟩ := h.replies _ _ (head arrivals)
    obtain ⟨ref, generation, hp⟩ := hpurpose pending
    obtain ⟨-, -, -, rfl⟩ := Purpose.expand.inj (hp.symm.trans purpose)
    obtain rfl := Outcome.answer.inj hn
    cases (callsOf_listed r.wellFormed r.direction name).symm.trans unreadable
  | untimely arrivals pending purpose live read some resolves late =>
    obtain ⟨deadline, hd⟩ := h.exists_deadline
    cases hd.symm.trans late
  | baffled arrivals pending purpose live read resolves timely baffled =>
    exact h.not_baffled _ baffled
  | items arrivals pending purpose =>
    obtain ⟨ref, generation, hp⟩ := hpurpose pending
    cases hp.symm.trans purpose
  | outline arrivals pending purpose =>
    obtain ⟨ref, generation, hp⟩ := hpurpose pending
    cases hp.symm.trans purpose
  | @symbol l value rest inquiry j call reason arrivals lookup pending isCall unreadable =>
    obtain ⟨name, hn⟩ := h.lookups _ _ (head arrivals)
    obtain rfl := Outcome.answer.inj hn
    obtain ⟨symbol, hs, -⟩ := find?_listed r.wellFormed call.item name
    cases hs.symm.trans unreadable

theorem log (h : s.Replays r) (journal : Journal) :
    ({ s with journal := journal } : Session).Replays r :=
  ⟨h.steady.log journal, h.client, h.timely, h.resolves, h.style, h.isOpen, h.alone, h.frame,
    h.replies, h.lookups, h.purposes, h.supplied⟩

/-- Time may go by in any way. -/
theorem ticked (h : s.Replays r) (now : Float) : (s.ticked (.float now)).Replays r := by
  obtain ⟨-, timeout, -, ht⟩ := h.timely
  exact ⟨h.steady.ticked _, h.client, ⟨now, timeout, rfl, ht⟩, h.resolves, h.style, h.isOpen,
    h.alone, h.frame, h.replies, h.lookups, h.purposes, h.supplied⟩

/-- An effect leaves a session on a recording what it is. -/
theorem effect (h : s.Replays r) (he : Effect s results t) : t.Replays r := by
  have hs := h.steady.sound
  have hframe := he.frame
  have halters := he.alters hs
  have hopen := halters.isOpen
  have prompts {arrival : Arrival} (hm : arrival ∈ t.arrivals) : arrival ∈ s.arrivals ∨
      ∃ l name, arrival = .lookup l (r.symbolsAnswer name) := by
    refine (he.arrivals_cases hs hm).imp_right ?_
    rintro ⟨-, -, -, -, -, -, hp⟩
    rw [h.client, r.prompt_symbols] at hp
    exact ⟨_, _, List.mem_singleton.1 hp⟩
  refine ⟨h.steady.moves (he.moves hs), hframe.client.trans h.client, ?_, ?_,
    hframe.style.trans h.style, (hopen r.tree).trans h.isOpen,
    fun id ho => h.alone id ((hopen id).symm.trans ho), ((halters.frame hs).2 r.tree).trans h.frame,
    fun k outcome hm => ?_, fun l outcome hm => ?_, fun k new hnew => ?_,
    fun k new hnew => he.supplied hs (fun _ _ name _ => h.isPrompt name) h.supplied hnew⟩
  · rw [hframe.now, hframe.settings]
    exact h.timely
  · rw [hframe.settings]
    exact h.resolves
  · rcases prompts hm with hm | ⟨l, name, heq⟩
    · exact h.replies k outcome hm
    · cases heq
  · rcases prompts hm with hm | ⟨l, name, heq⟩
    · exact h.lookups l outcome hm
    · obtain ⟨-, rfl⟩ := Arrival.lookup.inj heq
      exact ⟨name, rfl⟩
  · obtain ⟨old, hi, hp, -⟩ := (he.accounts hs).kept k new hnew
    rw [hp]
    exact h.purposes k old hi

theorem chain (h : s.Replays r) (hc : Chain Effect s results t) : t.Replays r :=
  hc.keeps h (fun _ journal hu _ => hu.log journal) fun _ _ _ hu he => hu.effect he

/-- **A session on a recording is drained to the end**, and nothing fails. -/
theorem ends_drain (h : s.Replays r) : drain.Ends s (fun results t =>
    Chain Effect s results t ∧ t.arrivals = [] ∧ t.pending = []) fun _ _ => False := by
  rw [drain_eq]
  refine .bind ((ends_absorb h.steady).mono ?_ ?_)
  · rintro results t ⟨hc, ha⟩
    have hnone := pending_eq_nil_of_supplied (h.chain hc).steady.sound (h.chain hc).supplied ha
    refine .bind (.get ?_)
    rw [hnone]
    refine .bind ((ends_expireAll_of_timely [] (by simp)).mono ?_ fun _ _ h => h)
    rintro _ _ ⟨rfl, rfl⟩
    refine .pure ⟨?_, ha, hnone⟩
    rwa [List.append_nil]
  · rintro e u ⟨-, results, v, hc, hv⟩
    exact (h.chain hc).not_stumbles hv

end Replays

/-! ### Asking a recording -/

/-- The node on a path of the tree waits. -/
def WaitsAt (s : Session) (id : TreeId) (path : List Nat) : Prop :=
  ∃ n, s.Occurs id path n ∧ n.pending ≠ none

/-- What changes when a node is asked for: it waits, and the answer is in the queue. -/
structure Sends (r : Replay) (ref : NodeRef) (item : CallItem) (s t : Session) : Prop where
  move : Move s t
  frame : Frame s t
  member : s.Member r.tree ref
  registry : t.registry = s.registry.updateNode ref fun node =>
    { node with pending := some s.nextToken }
  pending : ∃ deadline, t.pending = s.pending.put s.nextToken ⟨s.nextToken,
    .expand r.tree ref (s.tree r.tree).generation r.direction, deadline, [], [], []⟩
  arrivals : t.arrivals = s.arrivals ++ [.reply s.nextToken (r.callsAnswer item.name)]

theorem Replays.sends (h : s.Replays r) {ref : NodeRef} {item : CallItem} {deadline : Number}
    (ha : s.Askable r.tree ref r.direction item) (hi : IsRecorded item)
    (htimely : s.now.add s.settings.timeout = .ok deadline) :
    Sends r ref item s (((s.awaiting ref).entered s.nextToken
      (.expand r.tree ref (s.tree r.tree).generation r.direction) deadline).posted s.nextToken false
        (.calls r.direction item)) := by
  refine ⟨.ask ha htimely, ⟨rfl, rfl, rfl, rfl, rfl, rfl⟩, ha.member, rfl, ⟨deadline, rfl⟩, ?_⟩
  rw [← r.prompt_calls hi, ← h.client]
  rfl

namespace Sends

variable {ref : NodeRef} {item : CallItem} (h : Sends r ref item s t)
include h

theorem isOpen (id : TreeId) : t.isOpen id = s.isOpen id :=
  (congrArg (Registry.isOpen · id) h.registry).trans Registry.isOpen_updateNode

theorem mem_arrivals {arrival : Arrival} (hm : arrival ∈ s.arrivals) : arrival ∈ t.arrivals :=
  h.arrivals ▸ List.mem_append_left _ hm

theorem answer : .reply s.nextToken (r.callsAnswer item.name) ∈ t.arrivals :=
  h.arrivals ▸ List.mem_append_right _ List.mem_cons_self

theorem of_mem_arrivals {arrival : Arrival} (hm : arrival ∈ t.arrivals) : arrival ∈ s.arrivals ∨
    arrival = .reply s.nextToken (r.callsAnswer item.name) :=
  (List.mem_append.1 (h.arrivals ▸ hm)).imp_right List.mem_singleton.1

theorem get?_pending : ∃ inquiry, t.pending.get? s.nextToken = some inquiry := by
  obtain ⟨deadline, hp⟩ := h.pending
  exact ⟨_, hp ▸ Table.get?_put_self ..⟩

/-- Of the requests one is new. -/
theorem pending_cases {k : Token} {inquiry : Inquiry} (hk : t.pending.get? k = some inquiry) :
    k = s.nextToken ∧ (∃ ref generation,
      inquiry.purpose = .expand r.tree ref generation r.direction) ∨
        s.pending.get? k = some inquiry := by
  obtain ⟨deadline, hp⟩ := h.pending
  rw [hp] at hk
  rcases Table.of_get?_put hk with ⟨rfl, rfl⟩ | ⟨-, hk⟩
  · exact .inl ⟨rfl, _, _, rfl⟩
  · exact .inr hk

theorem get?_pending_of_some (hs : s.Sound) {k : Token} {inquiry : Inquiry}
    (hk : s.pending.get? k = some inquiry) : t.pending.get? k = some inquiry := by
  obtain ⟨deadline, hp⟩ := h.pending
  rw [hp, Table.get?_put, if_neg, hk]
  rintro rfl
  cases hs.waiting.get?_next.symm.trans hk

/-- Of the tree nothing changes but that the node waits. -/
theorem tree (hs : s.Sound) : (s.tree r.tree).IsCurrent ref.place ∧
    t.tree r.tree = (s.tree r.tree).modify ref.place fun node =>
      { node with pending := some s.nextToken } := by
  have hstands := hs.stands h.member
  rw [← h.member.tree]
  refine ⟨hstands.current, ?_⟩
  rw [Session.tree, h.registry, Registry.tree_updateNode_self hstands.planted]
  rfl

theorem root (hs : s.Sound) : (t.tree r.tree).root = (s.tree r.tree).root.modifyAt (fun node =>
    { node with pending := some s.nextToken }) ref.place.path := by
  obtain ⟨hcurrent, htree⟩ := h.tree hs
  rw [htree, Tree.modify_of_isCurrent hcurrent]

/-- Whatever node waited waits on, and so does the node that is asked for. -/
theorem waitsAt (hs : s.Sound) {path : List Nat}
    (hw : path = ref.place.path ∨ s.WaitsAt r.tree path) : t.WaitsAt r.tree path := by
  have hopen : t.isOpen r.tree := (h.isOpen r.tree).trans h.member.isOpen
  by_cases hpath : path = ref.place.path
  · have hfound : (s.tree r.tree).root.at? ref.place.path = some (s.node ref) :=
      h.member.tree ▸ (hs.stands h.member).found
    refine ⟨{ s.node ref with pending := some s.nextToken }, ⟨hopen, ?_⟩, Option.some_ne_none _⟩
    rw [h.root hs, hpath, Node.at?_modifyAt, hfound]
    rfl
  · obtain ⟨n, hn, hwaits⟩ := hw.resolve_left hpath
    obtain ⟨m, hm, hresembles⟩ := Node.at?_modifyAt_of_ne
      (f := fun node => { node with pending := some s.nextToken })
      (fun m _ => ⟨rfl, .inl rfl⟩) hpath hn.found
    exact ⟨m, ⟨hopen, h.root hs ▸ hm⟩, hresembles.pending ▸ hwaits⟩

theorem replays (hr : s.Replays r) : t.Replays r := by
  obtain ⟨hcurrent, htree⟩ := h.tree hr.steady.sound
  refine ⟨hr.steady.move h.move, h.frame.client.trans hr.client, ?_, ?_,
    h.frame.style.trans hr.style, (h.isOpen r.tree).trans hr.isOpen,
    fun id ho => hr.alone id ((h.isOpen id).symm.trans ho), ?_, fun k outcome hm => ?_,
    fun l outcome hm => ?_, fun k inquiry hk => ?_, fun k inquiry hk => ?_⟩
  · rw [h.frame.now, h.frame.settings]
    exact hr.timely
  · rw [h.frame.settings]
    exact hr.resolves
  · rw [htree, Tree.frame_modify hcurrent]
    exact hr.frame
  · rcases h.of_mem_arrivals hm with hm | he
    · exact hr.replies k outcome hm
    · exact ⟨_, (Arrival.reply.inj he).2⟩
  · rcases h.of_mem_arrivals hm with hm | he
    · exact hr.lookups l outcome hm
    · cases he
  · rcases h.pending_cases hk with ⟨-, hp⟩ | hk
    · exact hp
    · exact hr.purposes k inquiry hk
  · rcases h.pending_cases hk with ⟨rfl, -⟩ | hk
    · exact .inl ⟨_, h.answer⟩
    · exact (hr.supplied k inquiry hk).mono fun _ hm => h.mem_arrivals hm

end Sends

end Session

end SymbolTrees
