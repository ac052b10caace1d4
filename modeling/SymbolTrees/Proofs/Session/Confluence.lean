import SymbolTrees.Proofs.Session.Serve

/-!
# The order of answers

In which order outcomes arrive, and how they are shared out among pumps, makes no difference in the
end: once everything is in that nodes wait for, trees, maps, buffers and what was told are
determined by the outcomes.
-/

namespace SymbolTrees

open SymbolTrees.Server (Outcome)

/-- Something can still arrive for the request: its answer, or the outcome of a lookup. -/
def Inquiry.IsAnswerable (inquiry : Inquiry) : Prop := inquiry.calls = [] ∨ inquiry.lookups ≠ []

namespace Session

variable {s t u : Session} {π : Outcomes} {inquiry : Inquiry} {k : Token} {id : TreeId}
  {ref : NodeRef} {ended : List Token}

/-! ### Runs in which a session is served -/

/-- Something arrives as was known, or the clock goes on, or the session is pumped without a fault
before anybody's time is up. -/
def Event.Accords (π : Outcomes) (s : Session) : Event → Prop
  | .settle i outcome => ∀ request, s.sent[i]? = some request → request.isOpen →
    s.Agrees π (.of request.isLookup request.token outcome)
  | .tick _ => True
  | .pump => s.isTimely ∧ (Session.pump.answer s).isOk
  | _ => False

/-- Nothing else happens in a run. -/
def AccordsRun (π : Outcomes) : Session → List Event → Prop
  | _, [] => True
  | s, event :: rest => event.Accords π s ∧ AccordsRun π (s.step event) rest

/-- Nothing can arrive any more for a request for nodes that a node waits for. -/
def Served (s : Session) : Prop :=
  ∀ k inquiry id ref generation direction, s.pending.get? k = some inquiry →
    inquiry.purpose = .expand id ref generation direction → s.isLive inquiry →
      ¬inquiry.IsAnswerable

/-- A request that a node waits for has a prospect as long as something can arrive for it. -/
theorem prospect_ne_none_iff {generation : Nat} {direction : CallDirection}
    (hi : s.pending.get? k = some inquiry)
    (hp : inquiry.purpose = .expand id ref generation direction) (hl : s.isLive inquiry) :
    s.prospect π k ≠ none ↔ inquiry.IsAnswerable := by
  unfold Inquiry.IsAnswerable
  by_cases hc : inquiry.calls = []
  · rw [prospect_of_unanswered hi hp hl hc]
    simp [hc]
  · by_cases hlookups : inquiry.lookups = []
    · rw [prospect, hi, Option.bind_some, ending, hp]
      simp [hl, hc, hlookups]
    · rw [prospect_of_looking hi hp hl hc hlookups]
      simp [hlookups]

theorem Served.prospect (h : s.Served) (k : Token) : s.prospect π k = none := by
  by_contra hsome
  obtain ⟨ending, he⟩ := Option.ne_none_iff_exists'.1 hsome
  obtain ⟨inquiry, id, ref, generation, direction, hi, hp, hl⟩ := exists_of_prospect he
  exact h k inquiry id ref generation direction hi hp hl ((prospect_ne_none_iff hi hp hl).1 hsome)

/-! ### What has arrived was asked for -/

/-- Whatever arrives carries the number of something that was asked for. -/
def Issued (s : Session) : Prop := ∀ arrival ∈ s.arrivals, arrival.token < s.nextToken

theorem Issued.move (h : s.Issued) (hs : s.Sound) (hm : Move s t) : t.Issued := by
  intro arrival ha
  rcases hm.arrivals_cases ha with hold | ⟨isLookup, request, hsent, hprompt⟩
  · exact Int.lt_of_lt_of_le (h arrival hold) hm.nextToken_le
  · rw [Client.token_of_prompt hprompt]
    have hmem : (⟨s.nextToken, isLookup, request, s.client.isServer⟩ : Sent) ∈ t.sent := by
      rw [hsent]
      exact List.mem_append_right _ List.mem_cons_self
    exact (hs.move hm).queued.issued _ hmem

theorem Issued.arrived (h : s.Issued) (hs : s.Sound) {i : Nat} {request : Sent}
    (hr : s.sent[i]? = some request) (outcome : Outcome) :
    (s.arrived i request outcome).Issued := by
  intro arrival ha
  rcases List.mem_append.1 ha with ha | ha
  · exact h arrival ha
  · rw [List.mem_singleton.1 ha, Arrival.token_of]
    exact hs.queued.issued request (List.mem_of_getElem? hr)

theorem Issued.steps (h : s.Issued) (hs : s.Sound) (events : List Event) : (s.steps events).Issued :=
  steps_induction (P := fun _ u => u.Issued) hs h (fun _ _ _ h => h) (fun _ _ _ h => h)
    (fun _ _ _ hu h hm => h.move hu hm)
    (fun before _ _ outcome h hr _ => h.arrived (hs.steps before) hr outcome) events

/-! ### One event -/

theorem Accordant.arrived (ha : Accordant π s) {i : Nat} {request : Sent} {outcome : Outcome}
    (hr : s.sent[i]? = some request) (ho : request.isOpen)
    (hagrees : s.Agrees π (.of request.isLookup request.token outcome)) :
    Accordant π (s.arrived i request outcome) := by
  refine ⟨⟨ha.steady.sound.arrived outcome hr ho, ha.steady.expands⟩,
    Issued.arrived ha.issued ha.steady.sound hr outcome, fun arrival hm => ?_, ha.fits⟩
  rcases List.mem_append.1 hm with hm | hm
  · exact ha.queue arrival hm
  · rw [List.mem_singleton.1 hm]
    exact hagrees

theorem Accordant.ticked (ha : Accordant π s) (now : Number) : Accordant π (s.ticked now) :=
  ⟨ha.steady.ticked now, ha.issued, ha.queue, ha.fits⟩

/-- What has become of a session that was served, with all that was told. -/
structure Follows (π : Outcomes) (s : Session) (ended : List Token) (t : Session) : Prop where
  accordant : Accordant π t
  serves : Serves π s ended ∅ t
  notes : t.journal.notes = s.journal.notes ++ s.told π ended

theorem Follows.refl (ha : Accordant π s) : Follows π s [] s :=
  ⟨ha, .refl s, (List.append_nil _).symm⟩

/-- **A session that is served fulfils its prospects**, whatever comes next. -/
theorem Follows.step (h : Follows π s ended t) {event : Event} (he : event.Accords π t) :
    ∃ more, Follows π s (ended ++ more) (t.step event) := by
  obtain ⟨ha, hs, hnotes⟩ := h
  have same {u : Session} (ha : Accordant π u) (hu : Serves π s ended ∅ u)
      (hj : u.journal = t.journal) : ∃ more, Follows π s (ended ++ more) u :=
    ⟨[], by rw [List.append_nil]; exact ⟨ha, hu, by rw [hj]; exact hnotes⟩⟩
  cases event with
  | settle i outcome =>
    by_cases hr : ∃ request, t.sent[i]? = some request ∧ request.isOpen
    · obtain ⟨request, hr, ho⟩ := hr
      have hstep : t.step (.settle i outcome) = t.arrived i request outcome := by
        rw [Session.step, Action.after, settle_of_isOpen hr ho]
      rw [hstep]
      exact same (ha.arrived hr ho (he request hr ho)) (hs.of_same rfl (fun _ => rfl) rfl rfl) rfl
    · have hstep : t.step (.settle i outcome) = t := by
        rw [Session.step, Action.after, settle_of_not_isOpen fun request hi ho => hr ⟨request, hi, ho⟩]
      rw [hstep]
      exact same ha hs rfl
  | tick now => exact same (ha.ticked now) (hs.of_same rfl (fun _ => rfl) rfl rfl) rfl
  | pump =>
    obtain ⟨htimely, hok⟩ := he
    obtain ⟨results, u, hpump⟩ : ∃ results u, pump t = .ok results u := by
      unfold Action.answer at hok
      cases hp : pump t with
      | ok results u => exact ⟨results, u, rfl⟩
      | error e u =>
        rw [hp] at hok
        cases hok
    have hends := serves_pump ha hs htimely
    unfold Action.Ends at hends
    rw [hpump] at hends
    obtain ⟨more, hau, hu, hnotes'⟩ := hends
    have hstep : t.step .pump = u := by
      have hact : Event.pump.act t = .ok (Report.resolutions results) u := by
        change EStateM.bind Session.pump _ t = _
        rw [EStateM.bind, hpump]
        rfl
      rw [Session.step, Action.after, hact]
    rw [hstep]
    refine ⟨more, hau, hu, ?_⟩
    rw [hnotes', hnotes, told, told, told, List.filterMap_append, List.append_assoc]
  | _ => exact he.elim

theorem Follows.steps (h : Follows π s ended t) {events : List Event} (he : t.AccordsRun π events) :
    ∃ more, Follows π s (ended ++ more) (t.steps events) := by
  induction events generalizing t ended with
  | nil => exact ⟨[], by rw [List.append_nil]; exact h⟩
  | cons event rest ih =>
    obtain ⟨hevent, hrest⟩ := he
    obtain ⟨first, hfirst⟩ := h.step hevent
    obtain ⟨more, hmore⟩ := ih hfirst hrest
    exact ⟨first ++ more, by rw [← List.append_assoc]; exact hmore⟩

/-! ### Two runs -/

/-- What two runs from one session have in common in the end. -/
structure EndsAlike (s t u : Session) : Prop where
  /-- The same trees, node for node, with the same maps. -/
  registry : t.registry = u.registry
  /-- The same rows and annotations in the same buffers. -/
  buffers : ∀ handle, (t.buffers.get? handle).map (fun b => (b.lines, b.annotations, b.visible)) =
    (u.buffers.get? handle).map fun b => (b.lines, b.annotations, b.visible)
  /-- The same notifications, in whatever order. -/
  notes : t.journal.notes.Perm u.journal.notes
  /-- No node waits for anything that could still arrive at the beginning. -/
  idle : ∀ id path n k inquiry, t.Occurs id path n → n.pending = some k →
    s.pending.get? k = some inquiry → ¬inquiry.IsAnswerable

section Served

variable {others : List Token} (ht : Serves π s ended ∅ t) (hu : Serves π s others ∅ u)
  (hst : t.Served) (hsu : u.Served)
include ht hst

/-- All requests have ended that had a prospect. -/
theorem Serves.mem_ended : k ∈ ended ↔ s.prospect π k ≠ none := by
  refine ⟨ht.foretold k, fun hk => ?_⟩
  by_contra hn
  have hnone := ht.prospects k
  rw [hst.prospect, if_neg hn] at hnone
  exact hk hnone.symm

/-- The trees have become what they were to be. -/
theorem Serves.root_eq (id : TreeId) : (t.tree id).root = s.filled π id := by
  rw [← ht.filled id, Session.filled]
  refine (Node.fill_eq_self _ fun path m _ => ?_).symm
  cases hpending : m.pending with
  | none =>
    rw [hpending]
    rfl
  | some k =>
    rw [hpending, Option.bind_some, hst.prospect]
    rfl

include hu hsu

theorem Serves.blooms_congr : s.Blooms π ended id ↔ s.Blooms π others id := by
  simp only [Blooms, ht.mem_ended hst, hu.mem_ended hsu]

/-- A tree and its buffer are the same in the end. -/
theorem Serves.tree_eq (ho : s.isOpen id) : t.tree id = u.tree id ∧ t.content id = u.content id := by
  have hframe : (t.tree id).frame = (u.tree id).frame := (ht.trees id).trans (hu.trees id).symm
  have hroot : (t.tree id).root = (u.tree id).root :=
    (ht.root_eq hst id).trans (hu.root_eq hsu id).symm
  have hmaps : (t.tree id).lineMap = (u.tree id).lineMap ∧
      (t.tree id).sourceMap = (u.tree id).sourceMap ∧ t.content id = u.content id := by
    cases ht.display id ho (Set.notMem_empty id) with
    | kept root lineMap sourceMap content bare =>
      cases hu.display id ho (Set.notMem_empty id) with
      | kept root' lineMap' sourceMap' content' bare' =>
        exact ⟨lineMap.trans lineMap'.symm, sourceMap.trans sourceMap'.symm,
          content.trans content'.symm⟩
      | drawn drawn' lineMap' sourceMap' content' blooms' =>
        exact absurd ((ht.blooms_congr hu hst hsu).2 blooms') bare
    | @drawn view drawn lineMap sourceMap content blooms =>
      cases hu.display id ho (Set.notMem_empty id) with
      | kept root' lineMap' sourceMap' content' bare' =>
        exact absurd ((ht.blooms_congr hu hst hsu).1 blooms) bare'
      | @drawn view' drawn' lineMap' sourceMap' content' blooms' =>
        obtain ⟨view'', hv, hsame⟩ := View.ofTree_of_idle (congrArg Node.idle hroot.symm)
          (congrArg (·.2.2.1) hframe.symm) drawn
        obtain rfl := Except.ok.inj (hv.symm.trans drawn')
        refine ⟨?_, ?_, ?_⟩
        · rw [lineMap, lineMap']
          exact hsame.lineMap _ _ (congrArg (fun frame => frame.2.2.2.2.2.length) hframe)
        · rw [sourceMap, sourceMap', hsame.sourceMap]
        · rw [content, content', hsame.lines, hsame.annotations]
  obtain ⟨hlineMap, hsourceMap, hcontent⟩ := hmaps
  exact ⟨Tree.eq_of_frame hframe hroot hlineMap hsourceMap, hcontent⟩

end Served

/-- **Two runs that end alike.** -/
theorem endsAlike_of_follows {others : List Token} (h : s.Sound) (ht : Follows π s ended t)
    (hu : Follows π s others u) (hst : t.Served) (hsu : u.Served) : EndsAlike s t u := by
  have hsame (id : TreeId) : t.tree id = u.tree id := by
    cases ho : s.isOpen id with
    | true => exact (ht.serves.tree_eq hu.serves hst hsu ho).1
    | false => exact (ht.serves.closed id ho).trans (hu.serves.closed id ho).symm
  refine ⟨?_, fun handle => ?_, ?_, ?_⟩
  · exact Registry.eq_of_frame (ht.serves.registry.trans hu.serves.registry.symm) hsame
  · cases hslot : s.registry.slots.get? handle with
    | none => rw [ht.serves.strangers handle hslot, hu.serves.strangers handle hslot]
    | some id =>
      have hhandle : (s.tree id).handle = handle := (h.registry.slots handle id hslot).2.1
      have hcontent := (ht.serves.tree_eq hu.serves hst hsu (h.registry.isOpen_of_slot hslot)).2
      rw [content, content, ht.serves.handle, hu.serves.handle, hhandle] at hcontent
      exact hcontent
  · rw [ht.notes, hu.notes]
    refine List.Perm.append_left _ (List.Perm.filterMap _ ?_)
    refine (List.perm_ext_iff_of_nodup ht.serves.distinct hu.serves.distinct).2 fun k => ?_
    rw [ht.serves.mem_ended hst, hu.serves.mem_ended hsu]
  · intro id path n k inquiry hn hw hi hanswerable
    have hfilled : (s.filled π id).at? path = some n := ht.serves.root_eq hst id ▸ hn.found
    obtain ⟨hnone, m, hm, hwaits⟩ := h.pending_of_filled hfilled hw
    have hoccurs : s.Occurs id path m := ⟨(ht.serves.isOpen id).symm.trans hn.isOpen, hm⟩
    obtain ⟨ref, direction, hp, -⟩ := (h.waiting.nodes id path m k hm hwaits).2 inquiry hi
    have hlive : s.isLive inquiry :=
      (h.isLive_iff hi hp).2 ⟨hoccurs.isOpen, rfl⟩
    exact (prospect_ne_none_iff hi hp hlive).2 hanswerable hnone

/-- **The order of answers makes no difference.** From any session that can be reached, with one
outcome for every request and every lookup, all runs in which nothing but these arrives, in whatever
order and shared out among pumps in whatever way, end alike once everything is in. -/
theorem order_independence (client : Client) (settings : Settings) (root : Path) (now : Number)
    (before first second : List Event) (π : Outcomes)
    (queue : ∀ arrival ∈ ((start client settings root now).steps before).arrivals,
      ((start client settings root now).steps before).Agrees π arrival)
    (fits : ((start client settings root now).steps before).Fits π)
    (accords : ((start client settings root now).steps before).AccordsRun π first)
    (served : (((start client settings root now).steps before).steps first).Served)
    (accords' : ((start client settings root now).steps before).AccordsRun π second)
    (served' : (((start client settings root now).steps before).steps second).Served) :
    EndsAlike ((start client settings root now).steps before)
      (((start client settings root now).steps before).steps first)
      (((start client settings root now).steps before).steps second) := by
  have hsteady := (Steady.of_start client settings root now).steps before
  have hissued : ((start client settings root now).steps before).Issued :=
    Issued.steps (fun _ hm => by cases hm) (sound_start client settings root now) before
  have hfollows := Follows.refl ⟨hsteady, hissued, queue, fits⟩
  obtain ⟨ended, ht⟩ := hfollows.steps accords
  obtain ⟨others, hu⟩ := hfollows.steps accords'
  exact endsAlike_of_follows hsteady.sound ht hu served served'

/-! ### Two orders of the same outcomes -/

/-- The callers of two functions are asked for. -/
def askedRun : List Event :=
  [.openCalls ⟨"f", none, [], ⟨⟨0, 0⟩, ⟨0, 0⟩⟩, ⟨⟨0, 0⟩, ⟨0, 0⟩⟩, none, []⟩ (.calls .incoming),
    .openCalls ⟨"g", none, [], ⟨⟨0, 0⟩, ⟨0, 0⟩⟩, ⟨⟨0, 0⟩, ⟨0, 0⟩⟩, none, []⟩ (.calls .incoming)]

/-- The first function has a caller for which no symbol is found, and for the other one the server
gives no answer. -/
def oneAnswer : Outcomes where
  reply k := if k = 1 then .answer (.arr [.obj []]) else .failure "no"
  lookup _ _ := .answer (.arr [])

/-- The answer arrives first, and what is arrived is applied at once. -/
def promptRun : List Event :=
  [.settle 0 (oneAnswer.reply 1), .pump, .settle 2 (oneAnswer.lookup 1 0), .pump,
    .settle 1 (oneAnswer.reply 2), .pump]

/-- The failure arrives first, and is applied together with the answer. -/
def lateRun : List Event :=
  [.settle 1 (oneAnswer.reply 2), .settle 0 (oneAnswer.reply 1), .pump,
    .settle 2 (oneAnswer.lookup 1 0), .pump]

theorem accords_reply {i : Nat} (id : TreeId) (ref : NodeRef) (direction : CallDirection)
    (hs : (s.sent[i]?).map (fun request => (request.token, request.isLookup)) = some (k, false))
    (hp : (s.pending.get? k).map Inquiry.purpose = some (.expand id ref 0 direction)) :
    (Event.settle i (π.reply k)).Accords π s := by
  intro request hr _
  rw [hr] at hs
  obtain ⟨rfl, hl⟩ := Prod.mk.inj (Option.some.inj hs)
  rw [hl]
  intro inquiry hi
  rw [hi] at hp
  exact ⟨rfl, id, ref, 0, direction, Option.some.inj hp⟩

theorem accords_lookup {i index : Nat} (l : Token)
    (hs : (s.sent[i]?).map (fun request => (request.token, request.isLookup)) = some (l, true))
    (hl : s.lookups.get? l = some (k, index)) :
    (Event.settle i (π.lookup k index)).Accords π s := by
  intro request hr _
  rw [hr] at hs
  obtain ⟨rfl, hlookup⟩ := Prod.mk.inj (Option.some.inj hs)
  rw [hlookup]
  intro parent j hx
  obtain ⟨rfl, rfl⟩ := Prod.mk.inj (Option.some.inj (hl.symm.trans hx))
  rfl

theorem served_of_isEmpty (h : s.pending.isEmpty) : s.Served := by
  intro k inquiry _ _ _ _ hi
  rw [List.isEmpty_iff.1 h] at hi
  cases hi

/-- In a session with a server nothing is answered at once. -/
theorem fits_of_isServer (h : s.client.isServer) (π : Outcomes) : s.Fits π := by
  intro k inquiry id ref generation direction value calls i call l _ _ _ _ _ arrival ha
  cases hc : s.client with
  | server =>
    rw [hc] at ha
    cases ha
  | replay recording =>
    rw [hc] at h
    cases h

/-- A session in which symbols are looked up, with the callers of two functions asked for. -/
def askedSession : Session :=
  (start .server { Settings.default with resolveSymbols := true } ⟨.root, []⟩ (.float 0)).steps
    askedRun

theorem order_independence_askedRun :
    EndsAlike askedSession (askedSession.steps promptRun) (askedSession.steps lateRun) := by
  have hqueue : askedSession.arrivals.isEmpty := by decide +kernel
  have hprompt : askedSession.AccordsRun oneAnswer promptRun :=
    ⟨accords_reply 0 ⟨0, 0, []⟩ .incoming (by decide +kernel) (by decide +kernel),
      ⟨by decide +kernel, by decide +kernel⟩,
      accords_lookup 3 (by decide +kernel) (by decide +kernel),
      ⟨by decide +kernel, by decide +kernel⟩,
      accords_reply 1 ⟨1, 0, []⟩ .incoming (by decide +kernel) (by decide +kernel),
      ⟨by decide +kernel, by decide +kernel⟩, trivial⟩
  have hlate : askedSession.AccordsRun oneAnswer lateRun :=
    ⟨accords_reply 1 ⟨1, 0, []⟩ .incoming (by decide +kernel) (by decide +kernel),
      accords_reply 0 ⟨0, 0, []⟩ .incoming (by decide +kernel) (by decide +kernel),
      ⟨by decide +kernel, by decide +kernel⟩,
      accords_lookup 3 (by decide +kernel) (by decide +kernel),
      ⟨by decide +kernel, by decide +kernel⟩, trivial⟩
  refine order_independence .server { Settings.default with resolveSymbols := true } ⟨.root, []⟩
    (.float 0) askedRun promptRun lateRun oneAnswer (fun arrival ha => ?_)
    (fits_of_isServer (by decide +kernel) _) hprompt (served_of_isEmpty (by decide +kernel)) hlate
    (served_of_isEmpty (by decide +kernel))
  have hnone : askedSession.arrivals = [] := List.isEmpty_iff.1 hqueue
  rw [askedSession] at hnone
  rw [hnone] at ha
  cases ha

end Session

end SymbolTrees
