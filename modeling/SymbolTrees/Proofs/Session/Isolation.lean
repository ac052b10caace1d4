import SymbolTrees.Proofs.Session.Attribution
import SymbolTrees.Proofs.Session.Economy
import SymbolTrees.Proofs.Session.Skirting

/-!
# Trees are apart from one another

An open tree changes only by what is asked of it, or where a session is pumped and there is news for
it: the outcome of one of its requests has arrived, or that of a lookup for one, or the time of one
is up. All that is asked of other trees and all their news leave it exactly as it is, in every run;
and so a tree and the copy of one of its nodes never change each other.
-/

namespace SymbolTrees.Session

open SymbolTrees.Server (Outcome)

variable {s t u : Session} {id : TreeId} {ref : NodeRef} {inquiry : Inquiry} {token : Token}
  {rest : List Arrival} {results more : List Resolution}

/-- There is news for the tree. -/
inductive News (id : TreeId) (s : Session) : Prop where
  | reply {k : Token} {outcome : Outcome} {inquiry : Inquiry}
    (arrival : .reply k outcome ∈ s.arrivals) (pending : s.pending.get? k = some inquiry)
    (isFor : inquiry.IsFor id)
  | lookup {l k : Token} {index : Nat} {outcome : Outcome} {inquiry : Inquiry}
    (arrival : .lookup l outcome ∈ s.arrivals) (lookup : s.lookups.get? l = some (k, index))
    (pending : s.pending.get? k = some inquiry) (isFor : inquiry.IsFor id)
  | late {k : Token} {inquiry : Inquiry} (pending : s.pending.get? k = some inquiry)
    (isFor : inquiry.IsFor id) (late : s.now.lt inquiry.deadline = false)

/-! ### Draining -/

/-- News that comes of what is done for other trees is for none that was left alone. -/
theorem Intact.news (hi : Intact id s t) (h : s.Sound) (hnow : t.now = s.now)
    (ha : ∀ arrival ∈ t.arrivals, arrival ∈ s.arrivals ∨
      ∃ l outcome, arrival = .lookup l outcome ∧ s.nextToken ≤ l) (hn : News id t) : News id s := by
  cases hn with
  | reply arrival pending isFor =>
    rcases ha _ arrival with hold | ⟨l, outcome, he, -⟩
    · exact .reply hold ((hi.pending _ _ isFor).1 pending) isFor
    · cases he
  | @lookup l k index outcome inquiry arrival lookup pending isFor =>
    have hpending := (hi.pending _ _ isFor).1 pending
    have hlookup := (hi.lookups k inquiry hpending isFor l index).1 lookup
    rcases ha _ arrival with hold | ⟨l', outcome', he, hle⟩
    · exact .lookup hold hlookup hpending isFor
    · obtain ⟨rfl, -⟩ := Arrival.lookup.inj he
      exact absurd (h.looking.known _ _ _ hlookup).1 (Int.not_lt.2 hle)
  | late pending isFor late => exact .late ((hi.pending _ _ isFor).1 pending) isFor (hnow ▸ late)

/-- Nothing is looked up yet under a number that is still to come. -/
theorem Sound.get?_lookups_of_le (h : s.Sound) {l : Token} (hle : s.nextToken ≤ l) :
    s.lookups.get? l = none := by
  cases hl : s.lookups.get? l with
  | none => rfl
  | some target => exact absurd (h.looking.known _ _ _ hl).1 (Int.not_lt.2 hle)

/-- The calls of a request for another tree become known, and the symbols of some are looked up. -/
theorem intact_asking (h : s.Sound) (hi : s.pending.get? inquiry.token = some inquiry)
    (hf : ¬inquiry.IsFor id) (calls some : List Call) (deadline : Number) :
    Intact id s (Session.seeking
      { s.taken rest with pending := s.pending.put inquiry.token (inquiry.asking calls deadline) }
      (inquiry.asking calls deadline) some 0) := by
  have hf' : ¬(inquiry.asking calls deadline).IsFor id := hf
  refine Intact.trans (t := { s.taken rest with
    pending := s.pending.put inquiry.token (inquiry.asking calls deadline) }) ?_ ?_
  · exact intact_put hi hf hf' rfl rfl rfl rfl
  · exact intact_seeking (Table.get?_put_self ..) hf' some 0 fun _ => h.get?_lookups_of_le

section Quiet

variable (hn : ¬News id s)
include hn

theorem not_isFor_of_reply {outcome : Outcome} (ha : s.arrivals = .reply token outcome :: rest)
    (hi : s.pending.get? token = some inquiry) : ¬inquiry.IsFor id := fun hf =>
  hn (.reply (ha ▸ List.mem_cons_self) hi hf)

theorem not_isFor_of_lookup {outcome : Outcome} {k : Token} {index : Nat}
    (ha : s.arrivals = .lookup token outcome :: rest) (hl : s.lookups.get? token = some (k, index))
    (hi : s.pending.get? k = some inquiry) : ¬inquiry.IsFor id := fun hf =>
  hn (.lookup (ha ▸ List.mem_cons_self) hl hi hf)

variable (h : s.Sound)
include h

/-- What arrives for others changes nothing. -/
theorem Effect.intact (he : Effect s results t) : Intact id s t := by
  cases he with
  | ignore => exact .of_same rfl rfl rfl rfl
  | stale arrivals pending | pass arrivals pending =>
    have hf := not_isFor_of_reply hn arrivals pending
    obtain rfl := (h.waiting.own _ _ pending).1
    exact (intact_dropped pending hf h).trans (.of_same rfl rfl rfl rfl)
  | @refuse token outcome rest inquiry reason arrivals pending =>
    have hf := not_isFor_of_reply hn arrivals pending
    obtain rfl := (h.waiting.own _ _ pending).1
    have htaken : Intact id s (s.taken rest) := .of_same rfl rfl rfl rfl
    have hs : (s.taken rest).Sound := h.move (.ignore arrivals)
    exact htaken.trans (intact_failed pending hf hs)
  | adopt arrivals pending purpose =>
    have hf := not_isFor_of_reply hn arrivals pending
    obtain rfl := (h.waiting.own _ _ pending).1
    exact (intact_dropped pending hf h).trans
      (.of_update (ne_tree_of_purpose pending hf h purpose) rfl rfl rfl rfl)
  | seek arrivals pending =>
    have hf := not_isFor_of_reply hn arrivals pending
    obtain rfl := (h.waiting.own _ _ pending).1
    exact intact_asking h pending hf _ _ _
  | find arrivals lookup pending =>
    exact intact_matched pending (not_isFor_of_lookup hn arrivals lookup pending) lookup _
  | @finish token outcome rest inquiry index found _ _ _ _ arrivals lookup pending tells _ purpose =>
    have hf := not_isFor_of_lookup hn arrivals lookup pending
    have hf' : ¬(inquiry.told token found).IsFor id := hf
    have hs := h.move (.find arrivals lookup pending tells.finds)
    exact (intact_matched pending hf lookup _).trans
      (intact_grafted (Table.get?_put_self ..) hf' hs purpose)
  | @lapse token outcome rest inquiry index found arrivals lookup pending tells =>
    have hf := not_isFor_of_lookup hn arrivals lookup pending
    have hf' : ¬(inquiry.told token found).IsFor id := hf
    have hs := h.move (.find arrivals lookup pending tells.finds)
    exact (intact_matched pending hf lookup _).trans
      (intact_dropped (Table.get?_put_self ..) hf' hs)

/-- Nor does it where it cannot be dealt with. -/
theorem Stumbles.intact (hs : s.Stumbles t) : Intact id s t := by
  cases hs with
  | calls | items => exact .of_same rfl rfl rfl rfl
  | @untimely token value rest inquiry _ _ _ _ calls _ arrivals pending =>
    have hf := not_isFor_of_reply hn arrivals pending
    have hf' : ¬(inquiry.answered calls).IsFor id := hf
    obtain rfl := (h.waiting.own _ _ pending).1
    exact intact_put pending hf hf' rfl rfl rfl rfl
  | baffled arrivals pending =>
    have hf := not_isFor_of_reply hn arrivals pending
    obtain rfl := (h.waiting.own _ _ pending).1
    exact intact_asking h pending hf _ _ _
  | outline arrivals pending =>
    have hf := not_isFor_of_reply hn arrivals pending
    obtain rfl := (h.waiting.own _ _ pending).1
    exact (intact_dropped pending hf h).trans (.of_same rfl rfl rfl rfl)
  | symbol arrivals lookup pending =>
    exact intact_matched pending (not_isFor_of_lookup hn arrivals lookup pending) lookup _

/-- That the time of other requests is up changes nothing. -/
theorem Expiry.intact (he : Expiry s results t) : Intact id s t := by
  cases he with
  | adopt pending late looking purpose =>
    exact intact_grafted pending (fun hf => hn (.late pending hf late)) h purpose
  | lapse pending late => exact intact_dropped pending (fun hf => hn (.late pending hf late)) h
  | timeOut pending late => exact intact_failed pending (fun hf => hn (.late pending hf late)) h

/-- Where there is no news for a tree, a step of draining leaves it alone and brings none. -/
theorem Progress.intact (hp : Progress s results t) : Intact id s t ∧ ¬News id t := by
  cases hp with
  | effect he =>
    have hi := he.intact hn h
    refine ⟨hi, fun hnews => hn (hi.news h he.frame.now (fun arrival ha => ?_) hnews)⟩
    refine (he.arrivals_cases h ha).imp_right ?_
    rintro ⟨answer, pending, purpose, read, isCall, lookup, prompt⟩
    obtain ⟨_, value', -, -, he⟩ := Client.mem_prompt_lookup prompt
    exact ⟨_, _, he, Int.le_add_of_nonneg_right (Int.natCast_nonneg _)⟩
  | expiry he =>
    have hi := he.intact hn h
    exact ⟨hi, fun hnews => hn (hi.news h he.frame.now (fun _ ha => .inl (he.arrivals ▸ ha)) hnews)⟩

theorem Chain.intact (hc : Chain Progress s results t) : Intact id s t ∧ ¬News id t := by
  have hall := hc.keeps (P := fun u => u.Sound ∧ Intact id s u ∧ ¬News id u)
    ⟨h, .refl id s, hn⟩ ?_ ?_
  · exact hall.2
  · rintro u journal ⟨hu, hi, hn⟩ -
    have hlog : Intact id u { u with journal := journal } := .of_same rfl rfl rfl rfl
    have hback : Intact id { u with journal := journal } u := .of_same rfl rfl rfl rfl
    refine ⟨hu.move (.journal u journal), hi.trans hlog, fun hnews => hn ?_⟩
    exact hlog.news hu rfl (fun _ => .inl) hnews
  · rintro u v more ⟨hu, hi, hn⟩ hp
    obtain ⟨hi', hn'⟩ := hp.intact hn hu
    exact ⟨hu.moves (lawful_progress.moves hu hp), hi.trans hi', hn'⟩

end Quiet

/-- No tree that was left alone is reported to have grown. -/
theorem Intact.notMem_enlarged (hi : Intact id s t) (ha : Accounts s results t) :
    id ∉ enlarged results := by
  intro hm
  obtain ⟨r, hr, hg⟩ := List.mem_filterMap.1 hm
  obtain ⟨old, hold, hp, hnone⟩ := ha.known r hr
  have hf : old.IsFor id := by
    unfold Resolution.grown? at hg
    split at hg
    · rename_i hpurpose
      obtain rfl := Option.some.inj hg
      exact ⟨_, _, _, hp ▸ hpurpose⟩
    · cases hg
  cases hnone.symm.trans ((hi.pending _ _ hf).2 hold)

theorem skirts_drain (h : s.Steady) (hn : ¬News id s) :
    Skirts id s drain fun results t => t.Sound ∧ id ∉ enlarged results := by
  refine (ends_drain h).mono ?_ ?_
  · intro results t hd
    have hi := (hd.chain.intact hn h.sound).1
    exact ⟨hi, hd.chain.sound lawful_progress h.sound,
      hi.notMem_enlarged (hd.chain.accounts lawful_progress h.sound)⟩
  · rintro _ t ⟨-, results, u, hc, hs⟩
    have hchain : Chain Progress s results u := hc.mono fun _ _ _ he => .effect he
    obtain ⟨hi, hn'⟩ := hchain.intact hn h.sound
    exact hi.trans (hs.intact hn' (hchain.sound lawful_progress h.sound))

/-! ### Pumping -/

section Pump

variable (h : s.Sound) (ho : s.isOpen id)
include h ho

/-- What a report leads to is done apart from the trees that are there. -/
theorem skirts_act (r : Resolution) :
    Skirts id s (act r) fun grown t => t.Sound ∧ grown = r.grown? := by
  have hmoves := (lock_act (twins_self h) r).moves
  have hact : Skirts id s (act r) fun grown _ => grown = r.grown? := by
    obtain ⟨token, purpose, result⟩ := r
    cases result with
    | failure reason => exact ⟨.of_same rfl rfl rfl rfl, rfl⟩
    | children nodes => cases purpose <;> exact .pure rfl
    | items items =>
      cases items with
      | nil => cases purpose <;> exact .pure rfl
      | cons item rest =>
        cases purpose with
        | openCalls uri direction =>
          exact (skirts_openCalls h ho item (.calls direction)).bind fun _ _ _ _ => .pure rfl
        | _ => exact .pure rfl
    | symbols symbols =>
      cases purpose with
      | openOutline uri =>
        exact (skirts_openOutline h ho uri fun _ hn => outline_of_outlineOfJson hn).bind
          fun _ _ _ _ => .pure rfl
      | _ => exact .pure rfl
  refine (Action.Ends.and hact hmoves).mono ?_ fun _ _ he => he.1
  rintro grown t ⟨⟨hi, hg⟩, hm⟩
  exact ⟨hi, h.moves hm, hg⟩

theorem skirts_acts (results : List Resolution) : Skirts id s (results.filterMapM act)
    fun ids _ => ids = results.filterMap Resolution.grown? := by
  induction results generalizing s with
  | nil => exact .pure rfl
  | cons r rest ih =>
    rw [List.filterMapM_cons, List.filterMap_cons]
    refine (skirts_act h ho r).bind ?_
    rintro _ t hi ⟨ht, rfl⟩
    have hrest := ih ht (hi.isOpen.trans ho)
    cases r.grown? with
    | none => exact hrest
    | some grown =>
      refine hrest.bind ?_
      rintro _ u - rfl
      exact .pure rfl

omit h in
theorem skirts_redraw (ids : List TreeId) (hid : id ∉ ids) :
    Skirts id s (ids.forM fun id => do if (← get).isOpen id then let _ ← render id)
      fun _ _ => True := by
  induction ids generalizing s with
  | nil => exact .pure trivial
  | cons target ids ih =>
    obtain ⟨hne, hid⟩ := not_or.1 (List.mem_cons.not.1 hid)
    have hdraw : Skirts id s (do if (← get).isOpen target then let _ ← render target)
        fun _ _ => True := by
      refine .get ?_
      split
      · rename_i ht
        exact (skirts_render ho ht hne).returns
      · exact .pure trivial
    exact hdraw.bind fun _ _ hi _ => ih (hi.isOpen.trans ho) hid

omit h in
/-- **A session that is pumped leaves every tree alone for which there is no news.** -/
theorem skirts_pump (h : s.Steady) (hn : ¬News id s) : Skirts id s pump fun _ _ => True := by
  unfold pump
  refine (skirts_drain h hn).bind ?_
  rintro results t hi ⟨ht, hgrown⟩
  have hot := hi.isOpen.trans ho
  refine (skirts_acts ht hot results).bind ?_
  rintro _ u hi rfl
  exact (skirts_redraw (hi.isOpen.trans hot) _ fun hm => hgrown (List.mem_eraseDups.1 hm)).returns

end Pump

/-! ### Events -/

/-- The event is aimed at the tree, or it brings news to it. -/
def Event.Concerns (id : TreeId) (s : Session) : Event → Prop
  | .expand target _ | .collapse target _ | .toggle target _ | .switchDirection target
  | .render target => target = id
  | .close handle | .setHidden handle _ => handle = (s.tree id).handle
  | .toggleHidden kind => ∃ k, TreeKind.ofText kind = .ok k ∧ s.registry.get? k = some id
  | .pump => News id s
  | _ => False

/-- No event of the run concerns the tree. -/
def Unconcerned (id : TreeId) : Session → List Event → Prop
  | _, [] => True
  | s, event :: rest => ¬event.Concerns id s ∧ Unconcerned id (s.step event) rest

/-- **An event leaves every open tree alone that it does not concern**, also where it fails. -/
theorem skirts_event (h : s.Steady) (ho : s.isOpen id) {event : Event}
    (hc : ¬event.Concerns id s) : Skirts id s event.act fun _ _ => True := by
  have hs := h.sound
  cases event with
  | openCalls item direction => exact (skirts_openCalls hs ho item direction).returns
  | startCalls uri line character direction =>
    refine Skirts.returns (P := fun _ _ => True) ?_
    unfold askItems
    cases direction with
    | calls direction => exact skirts_inquire hs (.calls uri line character direction)
    | outline => exact .throw _
    | unknown name => exact .throw _
  | openOutline uri entries =>
    exact (skirts_openOutline hs ho uri fun _ hn => ⟨entries, hn⟩).returns
  | showOutline uri answer =>
    exact (skirts_openOutline hs ho uri fun _ hn => outline_of_outlineOfJson hn).returns
  | startOutline uri => exact (skirts_inquire hs (.outline uri)).returns
  | expand target ref => exact (skirts_expand hs ho (Ne.symm hc) ref).returns
  | collapse target ref =>
    exact (skirts_collapse hs ho (Ne.symm hc) ref).bind fun _ _ _ _ => .pure trivial
  | toggle target ref => exact (skirts_toggle hs ho (Ne.symm hc) ref).returns
  | focus target ref => exact (skirts_focus hs ho target ref).returns
  | switchDirection target => exact (skirts_switchDirection hs ho (Ne.symm hc)).returns
  | jump target ref => exact (skirts_jump target ref).returns
  | details target ref => exact (skirts_details target ref).returns
  | render target =>
    refine Skirts.returns (P := fun _ _ => True) ?_
    by_cases ht : s.isOpen target
    · exact (skirts_render ho ht (Ne.symm hc)).mono fun _ _ _ => trivial
    · exact .check checks_open (fun _ _ he => he.1) fun ht' => absurd ht' ht
  | close handle => exact (skirts_close hs ho (Ne.symm hc)).returns
  | setHidden handle hidden => exact (skirts_setHidden hs (Ne.symm hc) hidden).returns
  | toggleHidden kind =>
    exact (skirts_toggleHidden hs ho kind fun k hk hg => hc ⟨k, hk, hg⟩).returns
  | pump => exact (skirts_pump ho h hc).returns
  | settle request outcome =>
    unfold Skirts Action.Ends
    by_cases hr : ∃ sent, s.sent[request]? = some sent ∧ sent.isOpen
    · obtain ⟨sent, hr, ho⟩ := hr
      rw [settle_of_isOpen hr ho]
      exact ⟨.of_same rfl rfl rfl rfl, trivial⟩
    · rw [settle_of_not_isOpen fun sent hi ho => hr ⟨sent, hi, ho⟩]
      exact ⟨.refl id s, trivial⟩
  | tick now => exact ⟨.of_same rfl rfl rfl rfl, trivial⟩

theorem Steady.intact_step (h : s.Steady) (ho : s.isOpen id) {event : Event}
    (hc : ¬event.Concerns id s) : Intact id s (s.step event) :=
  after_of_ends (Action.Ends.mono (skirts_event h ho hc) (fun _ _ ht => ht.1) fun _ _ ht => ht)

/-- A run that does not concern a tree leaves it alone. -/
theorem Steady.intact_steps (h : s.Steady) (ho : s.isOpen id) {events : List Event}
    (hu : Unconcerned id s events) : Intact id s (s.steps events) := by
  induction events generalizing s with
  | nil => exact .refl id s
  | cons event rest ih =>
    have hi := h.intact_step ho hu.1
    exact hi.trans (ih (h.steps [event]) (hi.isOpen.trans ho) hu.2)

/-- Only nodes of open trees are copied. -/
theorem isOpen_of_focus {report : Report} (ha : (Event.focus id ref).act.answer s = .ok report) :
    s.isOpen id := by
  by_contra ho
  have hends : (Event.focus id ref).act.Ends s (fun _ _ => False) fun _ _ => True := by
    unfold Event.act focus
    exact .bind (.bind (checks_member.mono (fun _ _ hm => absurd hm.2.isOpen ho)
      fun _ _ _ => trivial))
  rcases answer_of_ends hends with ⟨_, -, hfalse⟩ | ⟨e, he, -⟩
  · exact hfalse
  · cases ha.symm.trans he

/-- The copy of a node is a new tree, and the tree of the node stays as it is. -/
theorem Sound.opened_of_focus (h : s.Sound) {new : TreeId}
    (ha : (Event.focus id ref).act.answer s = .ok (.tree (some new))) :
    Intact id s (s.step (.focus id ref)) ∧ s.Opened new (s.step (.focus id ref)) := by
  have ho := isOpen_of_focus ha
  have hfocus : Skirts id s (Event.focus id ref).act fun report t =>
      ∃ made, report = .tree (some made) ∧ s.Opened made t :=
    (skirts_focus h ho id ref).bind fun made _ _ hopened => .pure ⟨made, rfl, hopened⟩
  rcases answer_of_ends hfocus with ⟨report, hr, hi, made, rfl, hopened⟩ | ⟨e, he, -⟩
  · obtain rfl := Option.some.inj (Report.tree.inj (Except.ok.inj (ha.symm.trans hr)))
    exact ⟨hi, hopened⟩
  · cases ha.symm.trans he

/-- How trees are apart. -/
structure Isolation (s : Session) : Prop where
  /-- An event leaves every open tree exactly as it is that it is not aimed at, also where it fails;
  a session that is pumped leaves every open tree so for which there is no news. -/
  step : ∀ event id, s.isOpen id → ¬event.Concerns id s → Intact id s (s.step event)
  /-- So does a run that never concerns the tree. -/
  steps : ∀ events id, s.isOpen id → Unconcerned id s events → Intact id s (s.steps events)
  /-- A tree and the copy of one of its nodes are two trees, and whatever becomes of the one later
  leaves the other as it is. -/
  focus : ∀ id ref new, (Event.focus id ref).act.answer s = .ok (.tree (some new)) →
    new ≠ id ∧ Intact id s (s.step (.focus id ref)) ∧
      ∀ tree, tree = id ∨ tree = new → (s.step (.focus id ref)).isOpen tree ∧
        ∀ events, Unconcerned tree (s.step (.focus id ref)) events →
          Intact tree (s.step (.focus id ref)) ((s.step (.focus id ref)).steps events)

/-- **Trees are apart from one another** in every session that a run leads to. -/
theorem isolation_steps (client : Client) (settings : Settings) (root : Path) (now : Number)
    (events : List Event) : Isolation ((start client settings root now).steps events) := by
  have h := (Steady.of_start client settings root now).steps events
  generalize (start client settings root now).steps events = s at h
  refine ⟨fun _ _ ho hc => h.intact_step ho hc, fun _ _ ho hu => h.intact_steps ho hu,
    fun id ref new ha => ?_⟩
  have ho := isOpen_of_focus ha
  obtain ⟨hi, hnew, hopened⟩ := h.sound.opened_of_focus ha
  refine ⟨fun he => h.sound.ne_length ho (he ▸ hnew), hi, fun tree htree => ?_⟩
  have hopen : (s.step (.focus id ref)).isOpen tree := by
    rcases htree with rfl | rfl
    · exact hi.isOpen.trans ho
    · exact hopened
  exact ⟨hopen, fun _ hu => (h.steps [.focus id ref]).intact_steps hopen hu⟩

end SymbolTrees.Session
