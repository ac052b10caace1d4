import SymbolTrees.Proofs.Session.Tables
import SymbolTrees.Proofs.Session.Tracking

/-!
# Lookups in the course of a run

In every run it can be told what became of which lookup (`tracked_steps`). A request that has got
its calls has a lookup under way, or one of its own was answered with what cannot be read.
-/

namespace SymbolTrees

open SymbolTrees.Server (Outcome Request)

namespace Session

variable {s t : Session} {k : Token} {inquiry : Inquiry} {calls : List Call}
  {came later : Nat → Request → Outcome → Prop} {own own' : Owners} {results : List Resolution}
  {events : List Event}

/-! ### Requests that have got their calls -/

/-- One of the lookups of a request was answered with what cannot be read for its call. -/
def Spoilt (came : Nat → Request → Outcome → Prop) (own : Owners) (sent : List Sent) (k : Token)
    (calls : List Call) : Prop :=
  ∃ j call i l value reason, calls[j]? = some call ∧ own k j = some i ∧
    Searched sent i l (.workspaceSymbols call.item.name) ∧
      came i (.workspaceSymbols call.item.name) (.answer value) ∧
        LocatedSymbol.find? call.item value = .error reason

theorem Spoilt.mono {sent more : List Sent} (h : Spoilt came own sent k calls)
    (hcame : ∀ i request outcome, came i request outcome → later i request outcome)
    (hown : ∀ k j i, own k j = some i → own' k j = some i)
    (hsent : ∀ i l request, Searched sent i l request → Searched more i l request) :
    Spoilt later own' more k calls := by
  obtain ⟨j, call, i, l, value, reason, hcall, ho, hs, hc, hunreadable⟩ := h
  exact ⟨j, call, i, l, value, reason, hcall, hown _ _ _ ho, hsent _ _ _ hs, hcame _ _ _ hc,
    hunreadable⟩

/-- A request that has got its calls has a lookup under way, or is spoilt. -/
def Full (came : Nat → Request → Outcome → Prop) (own : Owners) (s : Session) : Prop :=
  ∀ k inquiry, s.pending.get? k = some inquiry → inquiry.calls ≠ [] → inquiry.lookups = [] →
    Spoilt came own s.sent k inquiry.calls

theorem full_start (client : Client) (settings : Settings) (root : Path) (now : Number) :
    Full came own (start client settings root now) := fun _ _ hi => by cases hi

theorem Full.mono (h : Full came own s)
    (hcame : ∀ i request outcome, came i request outcome → later i request outcome) :
    Full later own s := fun k inquiry hi hc hl =>
  (h k inquiry hi hc hl).mono hcame (fun _ _ _ ho => ho) fun _ _ _ hs => hs

/-- A request without lookups had none before, or is spoilt by now. -/
theorem Full.carried (h : Full came own s) (hagrees : own.Agrees s own') (hsent : s.sent <+: t.sent)
    (hp : ∀ k new, t.pending.get? k = some new → new.calls ≠ [] → new.lookups = [] →
      s.pending.get? k = some new ∨ Spoilt came own' t.sent k new.calls) : Full came own' t := by
  intro k new hi hc hl
  rcases hp k new hi hc hl with hold | hspoilt
  · exact (h k new hold hc hl).mono (fun _ _ _ hc => hc) hagrees.kept
      fun _ _ _ hs => hs.extend hsent
  · exact hspoilt

theorem Full.erased (h : Full came own s) (hagrees : own.Agrees s own') (hsent : s.sent <+: t.sent)
    {token : Token} (ht : t.pending = s.pending.erase token) : Full came own' t :=
  h.carried hagrees hsent fun _ _ hi _ _ => .inl (Table.of_get?_erase (ht ▸ hi)).2

theorem Full.preserved (h : Full came own s) (hs : Preserves s t) : Full came own t := by
  intro k new hi hc hl
  rcases hs.spares.pending k new hi with ⟨old, deadline, hold, rfl⟩ | ⟨-, hnone⟩
  · exact (h k old hold hc hl).mono (fun _ _ _ hc => hc) (fun _ _ _ ho => ho)
      fun _ _ _ hs' => hs'.extend hs.sent
  · exact absurd hnone hc

theorem numbers_ne_nil {first : Token} {count : Nat} (hn : count ≠ 0) : numbers first count ≠ [] := by
  cases count with
  | zero => exact absurd rfl hn
  | succ count => exact List.cons_ne_nil _ _

/-- Where calls are looked up, the request is full. -/
theorem lookups_seeking (hi : s.pending.get? inquiry.token = some inquiry) (hn : calls ≠ [])
    {new : Inquiry} (hnew : (s.seeking inquiry calls 0).pending.get? inquiry.token = some new) :
    new.lookups ≠ [] := by
  rw [get?_pending_seeking inquiry calls 0 hi, if_pos rfl] at hnew
  obtain rfl := Option.some.inj hnew
  refine fun hl => numbers_ne_nil ?_ (List.append_eq_nil_iff.1 hl).2
  exact fun hlength => hn (List.length_eq_zero_iff.1 hlength)

theorem Full.seeking (h : Full came own s) (inquiry : Inquiry) (hagrees : own.Agrees s own')
    (hsent : s.sent <+: t.sent)
    (ht : ∀ k, inquiry.token ≠ k → t.pending.get? k = s.pending.get? k)
    (hi : t.pending.get? inquiry.token = some inquiry) (hn : calls ≠ []) :
    Full came own' (t.seeking inquiry calls 0) := by
  have hgrows : s.sent <+: (t.seeking inquiry calls 0).sent := by
    rw [sent_seeking]
    exact hsent.trans (List.prefix_append ..)
  refine h.carried hagrees hgrows fun k new hnew _ hl => ?_
  by_cases hk : inquiry.token = k
  · subst hk
    exact absurd hl (lookups_seeking hi hn hnew)
  · rw [get?_pending_seeking inquiry calls 0 hi, if_neg hk, ht k hk] at hnew
    exact .inl hnew

/-- **Requests with calls keep their lookups** while a session is drained. -/
theorem Full.applies (h : Full came own s) (hs : s.Sound) (ha : Applies s results t)
    (hagrees : own.Agrees s own') : Full came own' t := by
  have hsent := (lawful_progress.moves hs ha.progress).sent_grows
  cases ha with
  | expiry expiry =>
    obtain ⟨inquiry, -, ht⟩ := expiry.pending
    exact h.erased hagrees hsent ht
  | effect effect =>
    cases effect with
    | ignore => exact h.carried hagrees hsent fun _ _ hi _ _ => .inl hi
    | stale => exact h.erased hagrees hsent rfl
    | refuse => exact h.erased hagrees hsent pending_failed
    | pass => exact h.erased hagrees hsent rfl
    | adopt => exact h.erased hagrees hsent rfl
    | @seek token value rest inquiry id ref generation direction calls deadline arrivals pending
        purpose live read some =>
      exact h.seeking (inquiry.asking calls deadline) hagrees List.prefix_rfl
        (fun k hk => (Table.get?_put ..).trans (if_neg hk)) (Table.get?_put_self ..) some
    | find arrivals lookup pending tells more =>
      refine h.carried hagrees hsent fun k new hi _ hl => ?_
      rcases Table.of_get?_put hi with ⟨rfl, rfl⟩ | ⟨-, hi⟩
      · exact absurd hl more
      · exact .inl hi
    | finish => exact h.erased hagrees hsent pending_matched_dropped
    | lapse => exact h.erased hagrees hsent pending_matched_dropped

/-- Where an arrival cannot be dealt with, the request with its last lookup is spoilt at most. -/
theorem Full.stumbles (h : Full came own s) (ht : Tracked came own s) (hs : s.Stumbles t)
    (hagrees : own.Agrees s own') (htime : ∃ d, s.now.add s.settings.timeout = .ok d) :
    Full came own' t := by
  have hsent := hs.sent_grows
  cases hs with
  | calls => exact h.carried hagrees hsent fun _ _ hi _ _ => .inl hi
  | items => exact h.carried hagrees hsent fun _ _ hi _ _ => .inl hi
  | outline => exact h.erased hagrees hsent rfl
  | untimely arrivals pending purpose live read some resolves late =>
    obtain ⟨d, hd⟩ := htime
    cases late.symm.trans hd
  | @baffled token value rest inquiry id ref generation direction before after call deadline =>
    exact h.seeking (inquiry.asking (before ++ call :: after) deadline) hagrees
      List.prefix_rfl (fun k hk => (Table.get?_put ..).trans (if_neg hk)) (Table.get?_put_self ..)
      (by simp)
  | @symbol token value rest inquiry index call reason arrivals lookup pending isCall unreadable =>
    refine h.carried hagrees hsent fun k new hi _ _ => ?_
    rcases Table.of_get?_put hi with ⟨rfl, rfl⟩ | ⟨-, hi⟩
    · refine .inr ?_
      obtain ⟨i, request, hsearched, hcame⟩ :=
        ht.attributed.queued token (.answer value) (arrivals ▸ List.mem_cons_self)
      cases ht.attributed.calls _ inquiry index call pending isCall with
      | skipped none idle => exact absurd lookup (idle token)
      | @waits i' l owns searched hl =>
        obtain rfl := ht.sound.looking.once l token _ hl lookup
        obtain ⟨rfl, rfl⟩ := searched.eq ht.sound.queued.distinct hsearched
        exact ⟨index, call, i', _, value, reason, isCall, hagrees.kept _ _ _ owns, searched, hcame,
          unreadable⟩
      | heard owns searched idle => exact absurd lookup (idle token)
    · exact .inl hi

/-! ### Drains -/

/-- A session is tracked while it is drained, and full if it was. -/
theorem Tracked.carries (h : Tracked came own s) (hc : Chain Applies s results t) :
    ∃ own', Carried came own s results own' t ∧ (Full came own s → Full came own' t) :=
  h.chain (P := fun own' _ u => Full came own s → Full came own' u) (fun _ _ _ _ hu _ => hu)
    (fun _ _ _ _ _ _ ht hu ha hagrees hs => (hu hs).applies ht.sound ha hagrees) id hc

/-- What a drain does to a session that is tracked, be it drained to the end or only up to where
what has arrived cannot be dealt with: requests end, and all of them are accounted for. -/
theorem Tracked.after_drain (h : Tracked came own s) (hs : s.Steady) :
    ∃ own' results u, Chain Progress s results u ∧ Carried came own s results own' u ∧
      (drain.after s).registry = u.registry ∧ u.sent <+: (drain.after s).sent := by
  have hends := ends_drain hs
  unfold Action.Ends at hends
  unfold Action.after
  cases hd : drain s with
  | ok results t =>
    rw [hd] at hends
    obtain ⟨own', hcarried, -⟩ := h.carries hends.applies
    exact ⟨own', results, t, hends.chain, hcarried, rfl, List.prefix_rfl⟩
  | error e t =>
    rw [hd] at hends
    obtain ⟨-, results, u, hchain, hstumbles⟩ := hends
    obtain ⟨own', hcarried, -⟩ := h.carries (hchain.mono fun _ _ _ he => .effect he)
    exact ⟨own', results, u, hchain.mono fun _ _ _ he => .effect he, hcarried, hstumbles.registry,
      hstumbles.sent_grows⟩

/-! ### Runs -/

/-- A session is tracked when it is pumped, and full if it was and deadlines can be told. -/
theorem Tracked.pump (h : Tracked came own s) (hs : s.Steady) :
    ∃ own', Tracked came own' (s.step .pump) ∧ ((∃ d, s.now.add s.settings.timeout = .ok d) →
      Full came own s → Full came own' (s.step .pump)) := by
  cases pumps_step hs with
  | drained drain drains makes moves =>
    obtain ⟨own', hcarried, hfull⟩ := h.carries drains.applies
    have hpreserves := makes.preserves moves
    exact ⟨own', hcarried.tracked.preserved moves hpreserves,
      fun _ hf => (hfull hf).preserved hpreserves⟩
  | halted drain halts =>
    obtain ⟨-, results, u, hchain, hstumbles⟩ := halts
    obtain ⟨own', hcarried, hfull⟩ := h.carries (hchain.mono fun _ _ _ he => .effect he)
    obtain ⟨own'', hagrees, hattributed⟩ := hcarried.tracked.stumbles hstumbles
    have hframe := hchain.frame lawful_effect
    exact ⟨own'', h.after (h.sound.moves_step rfl) hattributed, fun htime hf =>
      (hfull hf).stumbles hcarried.tracked hstumbles hagrees (hframe.now ▸ hframe.settings ▸ htime)⟩

/-- What is not pumped keeps its lookups. -/
theorem Full.step (h : Full came own s) (hs : s.Sound) {event : Event} (hp : event ≠ .pump) :
    Full came own (s.step event) := by
  have owned (ho : event.isOwn) : Full came own (s.step event) := by
    obtain ⟨posts, hmakes⟩ := makes_step hs ho hp
    exact h.preserved (hmakes.preserves (hs.moves_step ho))
  cases event with
  | tick now => exact h
  | settle i outcome =>
    by_cases hr : ∃ r, s.sent[i]? = some r ∧ r.isOpen
    · obtain ⟨r, hr, ho⟩ := hr
      rw [Session.step, Action.after, settle_of_isOpen hr ho]
      exact fun k inquiry hi hc hl => (h k inquiry hi hc hl).mono (fun _ _ _ hc => hc)
        (fun _ _ _ ho => ho) fun _ _ _ hs => hs.settle i
    · rw [Session.step, Action.after, settle_of_not_isOpen fun r hi ho => hr ⟨r, hi, ho⟩]
      exact h
  | pump => exact absurd rfl hp
  | _ => exact owned rfl

/-- What a session is given it keeps, and its clock shows what was read. -/
theorem given_steps (client : Client) (settings : Settings) (root : Path) (now : Number)
    (events : List Event) : ((start client settings root now).steps events).settings = settings ∧
      ((start client settings root now).steps events).client = client ∧
        ((start client settings root now).steps events).now ∈ readings now events := by
  refine steps_induction (P := fun before t => t.settings = settings ∧ t.client = client ∧
    t.now ∈ readings now before) (sound_start client settings root now)
    ⟨rfl, rfl, List.mem_cons_self⟩ ?_ ?_ ?_ (fun _ _ _ _ h _ _ => h) events
  · rintro before event s ⟨hs, hc, hn⟩
    exact ⟨hs, hc, readings_append now before [event] _ hn⟩
  · rintro before s reading ⟨hs, hc, -⟩
    exact ⟨hs, hc, by simp [readings, ticked]⟩
  · rintro before s t - ⟨hs, hc, hn⟩ hm
    obtain ⟨hsettings, hclient, hnow⟩ := hm.given
    exact ⟨hsettings.trans hs, hclient.trans hc, hnow ▸ hn⟩

/-- **A session is tracked through every run**, and full as long as deadlines can be told. -/
theorem tracked_steps (client : Client) (settings : Settings) (root : Path) (now : Number)
    (events : List Event) : ∃ own, Tracked (Came (start client settings root now) events) own
      ((start client settings root now).steps events) ∧
        ((∀ reading ∈ readings now events, ∃ d, reading.add settings.timeout = .ok d) →
          Full (Came (start client settings root now) events) own
            ((start client settings root now).steps events)) := by
  induction events using List.reverseRec with
  | nil =>
    refine ⟨fun _ _ => none, ⟨sound_start .., attributed_start client settings root now ?_,
      traced_start .., fun recording i request value hc hv => .inr ⟨recording, value, hc, hv, rfl⟩⟩,
      fun _ => full_start client settings root now⟩
    rintro i request outcome (⟨before, after, he, -⟩ | hr)
    · exact absurd he (by simp)
    · exact hr
  | append_singleton before event ih =>
    obtain ⟨own, h, hfull⟩ := ih
    have htime (ht : ∀ reading ∈ readings now (before ++ [event]),
        ∃ d, reading.add settings.timeout = .ok d) :
        ∀ reading ∈ readings now before, ∃ d, reading.add settings.timeout = .ok d :=
      fun reading hr => ht reading (readings_append now before [event] reading hr)
    rw [steps_concat]
    by_cases hp : event = .pump
    · subst hp
      obtain ⟨own', ht, hf⟩ := h.pump ((Steady.of_start ..).steps before)
      rw [came_eq fun i outcome he => by cases he]
      refine ⟨own', ht, fun hreadings => hf ?_ (hfull (htime hreadings))⟩
      obtain ⟨hs, -, hn⟩ := given_steps client settings root now before
      rw [hs]
      exact htime hreadings _ hn
    · exact ⟨own, h.step event hp, fun hreadings => ((hfull (htime hreadings)).step h.sound hp).mono
        fun i request outcome hc => hc.append [event]⟩

end Session

end SymbolTrees
