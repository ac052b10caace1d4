import SymbolTrees.Proofs.Session.Ask
import SymbolTrees.Proofs.Session.Effect

/-!
# Draining

To drain a session is to let everything that has arrived have its effect, and then to end the
requests whose time is up. Where that fails, the oldest arrival could not be dealt with.
-/

namespace SymbolTrees

open SymbolTrees.Server (Outcome)

namespace Session

variable {s t : Session} {inquiry : Inquiry} {results : List Resolution}

/-! ### Requests with calls -/

/-- A sound session in which only what is asked for a node has calls. -/
structure Steady (s : Session) : Prop where
  sound : s.Sound
  expands : ∀ k inquiry, s.pending.get? k = some inquiry → inquiry.calls ≠ [] →
    ∃ id ref generation direction, inquiry.purpose = .expand id ref generation direction

namespace Steady

theorem of_start (client : Client) (settings : Settings) (root : Path) (now : Number) :
    (start client settings root now).Steady :=
  ⟨sound_start .., fun _ _ h => by cases h⟩

theorem move (h : s.Steady) (hm : Move s t) : t.Steady := by
  refine ⟨h.sound.move hm, ?_⟩
  intro k inquiry hi hc
  cases hm.pends hi with
  | asked fresh askable purpose calls => exact absurd calls hc
  | inquired fresh opens calls => exact absurd calls hc
  | stayed pending purpose calls =>
    rw [purpose]
    exact h.expands k _ pending (calls ▸ hc)
  | answered pending purpose live expands => exact ⟨_, _, _, _, purpose.trans expands⟩

theorem moves (h : s.Steady) (hm : Moves s t) : t.Steady := by
  induction hm with
  | refl => exact h
  | tail _ hmove ih => exact ih.move hmove

theorem log (h : s.Steady) (journal : Journal) :
    ({ s with journal := journal } : Session).Steady := h.move (.journal s journal)

theorem ticked (h : s.Steady) (now : Number) : (s.ticked now).Steady :=
  ⟨h.sound.ticked now, h.expands⟩

theorem steps (h : s.Steady) (events : List Event) : (s.steps events).Steady := by
  have hold := steps_induction (P := fun _ u => u.Sound → u.Steady) h.sound (fun _ => h)
    (fun _ _ _ hp => hp) (fun before u now hp hu => ?_)
    (fun _ u v hu hp hm _ => (hp hu).move hm) (fun before i request outcome hp hr ho hu => ?_)
    events
  · exact hold (h.sound.steps events)
  · obtain ⟨hs, he⟩ := hp ⟨hu.registry, hu.grown, hu.waiting, hu.looking, hu.queued⟩
    exact ⟨hu, he⟩
  · obtain ⟨hs, he⟩ := hp (h.sound.steps before)
    exact ⟨hu, he⟩

end Steady

/-! ### Asking for symbols -/

/-- Why the oldest arrival cannot be dealt with: it cannot be read, the time until which symbols
are looked up cannot be told, or a recording cannot be asked for them. It is taken from the queue
all the same. -/
inductive Stumbles (s : Session) : Session → Prop where
  | calls {token : Token} {value : Json} {rest : List Arrival} {inquiry : Inquiry} {id : TreeId}
    {ref : NodeRef} {generation : Nat} {direction : CallDirection} {reason : Malformed}
    (arrivals : s.arrivals = .reply token (.answer value) :: rest)
    (pending : s.pending.get? token = some inquiry)
    (purpose : inquiry.purpose = .expand id ref generation direction) (live : s.isLive inquiry)
    (unreadable : callsOf direction value = .error reason) : Stumbles s (s.taken rest)
  | untimely {token : Token} {value : Json} {rest : List Arrival} {inquiry : Inquiry} {id : TreeId}
    {ref : NodeRef} {generation : Nat} {direction : CallDirection} {calls : List Call}
    {reason : Malformed} (arrivals : s.arrivals = .reply token (.answer value) :: rest)
    (pending : s.pending.get? token = some inquiry)
    (purpose : inquiry.purpose = .expand id ref generation direction) (live : s.isLive inquiry)
    (read : callsOf direction value = .ok calls) (some : calls ≠ [])
    (resolves : s.settings.resolveSymbols)
    (late : s.now.add s.settings.timeout = .error reason) :
    Stumbles s (s.answering rest inquiry calls)
  /-- The lookups up to the one that a recording cannot be asked are made. -/
  | baffled {token : Token} {value : Json} {rest : List Arrival} {inquiry : Inquiry} {id : TreeId}
    {ref : NodeRef} {generation : Nat} {direction : CallDirection} {before after : List Call}
    {call : Call} {deadline : Number} (arrivals : s.arrivals = .reply token (.answer value) :: rest)
    (pending : s.pending.get? token = some inquiry)
    (purpose : inquiry.purpose = .expand id ref generation direction) (live : s.isLive inquiry)
    (read : callsOf direction value = .ok (before ++ call :: after))
    (resolves : s.settings.resolveSymbols) (timely : s.now.add s.settings.timeout = .ok deadline)
    (baffled : s.client.Baffled (.workspaceSymbols call.item.name)) :
    Stumbles s (({ s.taken rest with
      pending := s.pending.put inquiry.token
        (inquiry.asking (before ++ call :: after) deadline) } : Session).seeking
      (inquiry.asking (before ++ call :: after) deadline) (before ++ [call]) 0)
  | items {token : Token} {value : Json} {rest : List Arrival} {inquiry : Inquiry} {uri : Text}
    {direction : CallDirection} {reason : Malformed}
    (arrivals : s.arrivals = .reply token (.answer value) :: rest)
    (pending : s.pending.get? token = some inquiry)
    (purpose : inquiry.purpose = .openCalls uri direction)
    (unreadable : itemsOf value = .error reason) : Stumbles s (s.taken rest)
  | outline {token : Token} {value : Json} {rest : List Arrival} {inquiry : Inquiry} {uri : Text}
    {reason : Malformed} (arrivals : s.arrivals = .reply token (.answer value) :: rest)
    (pending : s.pending.get? token = some inquiry)
    (purpose : inquiry.purpose = .openOutline uri) (present : value.isPresent)
    (unreadable : value.entries = .error reason) : Stumbles s ((s.taken rest).dropped inquiry)
  /-- The lookup is over, with nothing found. -/
  | symbol {token : Token} {value : Json} {rest : List Arrival} {inquiry : Inquiry} {index : Nat}
    {call : Call} {reason : Malformed}
    (arrivals : s.arrivals = .lookup token (.answer value) :: rest)
    (lookup : s.lookups.get? token = some (inquiry.token, index))
    (pending : s.pending.get? inquiry.token = some inquiry)
    (isCall : inquiry.calls[index]? = some call)
    (unreadable : LocatedSymbol.find? call.item value = .error reason) :
    Stumbles s (s.matched rest token inquiry inquiry.found)

theorem ends_askSymbol {parent : Token} (index : Nat) (call : Call)
    (hi : s.pending.get? parent = some inquiry) :
    (askSymbol parent index call).Ends s
      (fun _ t => t = (s.looking parent inquiry index).posted s.nextToken true
        (.workspaceSymbols call.item.name))
      fun e t => t = (s.looking parent inquiry index).posted s.nextToken true
        (.workspaceSymbols call.item.name) ∧ IsMalformed e ∧
          s.client.Baffled (.workspaceSymbols call.item.name) := by
  have hnext {E : Fault → Session → Prop} : newToken.Ends s (fun token t => token = s.nextToken ∧
      t = { s with nextToken := s.nextToken + 1 }) E := ⟨rfl, rfl⟩
  unfold askSymbol
  refine .bind (hnext.mono ?_ fun _ _ h => h)
  rintro _ _ ⟨rfl, rfl⟩
  refine .bind (.modify ?_)
  dsimp only
  rw [hi]
  exact ends_send ..

theorem ends_askSymbols (inquiry : Inquiry) (rest : List Call) {index : Nat}
    (hi : s.pending.get? inquiry.token = some inquiry) :
    Action.Ends ((rest.zipIdx index).forM fun (call, i) => askSymbol inquiry.token i call) s
      (fun _ t => t = s.seeking inquiry rest index)
      fun e t => IsMalformed e ∧ ∃ before call after, rest = before ++ call :: after ∧
        t = s.seeking inquiry (before ++ [call]) index ∧
          s.client.Baffled (.workspaceSymbols call.item.name) := by
  induction rest generalizing s index inquiry with
  | nil => exact .pure rfl
  | cons call rest ih =>
    refine .bind ((ends_askSymbol index call hi).mono ?_ ?_)
    · rintro _ _ rfl
      refine (ih { inquiry with lookups := inquiry.lookups ++ [s.nextToken] }
        (Table.get?_put_self ..)).mono (fun _ _ h => h) ?_
      rintro e _ ⟨he, before, other, after, rfl, rfl, hb⟩
      exact ⟨he, call :: before, other, after, rfl, rfl, hb⟩
    · rintro e _ ⟨rfl, he, hb⟩
      exact ⟨he, [], call, rest, rfl, rfl, hb⟩

/-! ### One arrival -/

/-- The oldest arrival has had its effect. -/
def Completes (s : Session) (results : List Resolution) (t : Session) : Prop :=
  ∃ u journal, Effect s results u ∧ journal.notes = u.journal.notes ∧
    t = { u with journal := journal }

theorem Effect.completes (h : Effect s results t) {journal : Journal}
    (hj : journal.notes = t.journal.notes) : Completes s results { t with journal := journal } :=
  ⟨t, journal, h, hj, rfl⟩

/-- Where an arrival cannot be dealt with. -/
def Stuck (s : Session) : Fault → Session → Prop := fun e t => IsMalformed e ∧ s.Stumbles t

theorem notes_failed : (s.failed inquiry).journal.notes = s.journal.notes := by
  unfold failed
  split <;> rfl

section Arrival

variable {arrival : Arrival} {rest : List Arrival} {token : Token} {outcome : Outcome}
  (h : s.Steady)
include h

omit h in
/-- A request ends without a result. -/
theorem ends_refuse (ha : s.arrivals = .reply token outcome :: rest)
    (hi : s.pending.get? token = some inquiry) (hl : s.isLive inquiry) {reason : Failure}
    (hr : Refuses s inquiry.purpose outcome reason) :
    (fail inquiry reason).Ends (s.taken rest) (Completes s) s.Stuck := by
  refine (ends_fail_of_live (s := s.taken rest) hl reason).mono ?_ fun _ _ h => h.elim
  rintro _ _ ⟨rfl, rfl⟩
  exact (Effect.refuse ha hi hl hr).completes notes_failed.symm

theorem ends_completeExpansion (ha : s.arrivals = .reply token outcome :: rest)
    (hi : s.pending.get? token = some inquiry) {id : TreeId} {ref : NodeRef} {generation : Nat}
    {direction : CallDirection} (hp : inquiry.purpose = .expand id ref generation direction) :
    (completeExpansion inquiry ref direction outcome).Ends (s.taken rest) (Completes s)
      s.Stuck := by
  have hnone := h.sound.lookups_of_reply ha hi
  obtain rfl := (h.sound.waiting.own token inquiry hi).1
  unfold completeExpansion
  refine .bind (.get ?_)
  change Action.Ends (if !s.isLive inquiry then _ else _) _ _ _
  cases hl : s.isLive inquiry with
  | false =>
    refine (ends_stale (s := s.taken rest) hnone).mono ?_ fun _ _ h => h.elim
    rintro _ _ ⟨rfl, journal, rfl, hj⟩
    exact (Effect.stale ha hi hl).completes hj
  | true =>
    refine .bind (.get ?_)
    dsimp only
    have hfail (hu : ∀ value, outcome ≠ .answer value) :
        (fail inquiry (.callsFailed direction (s.node ref).name (outcome.error?.getD []))).Ends
          (s.taken rest) (Completes s) s.Stuck :=
      ends_refuse ha hi hl (hp ▸ .callsFailed id ref generation direction hu)
    cases outcome with
    | failure text => exact hfail fun _ he => by cases he
    | cancelled => exact hfail fun _ he => by cases he
    | answer value =>
      refine .bindRead (fun calls hc => ?_) fun e he => ⟨⟨e, rfl⟩, .calls ha hi hp hl he⟩
      split
      · rename_i hempty
        obtain rfl := List.isEmpty_iff.1 hempty
        exact ends_refuse ha hi hl (hp ▸ .noCalls id ref generation hc)
      rename_i hsome
      have hsome : calls ≠ [] := by simpa using hsome
      refine .bind (.modify (.bind (.get ?_)))
      split
      · rename_i hresolves
        refine .bind ((ends_deadline (s := s.answering rest inquiry calls)).mono ?_ ?_)
        · rintro deadline _ ⟨rfl, hd⟩
          refine .bind (.modify ?_)
          dsimp only
          rw [Table.put_put]
          refine .bind ((ends_askSymbols (inquiry.asking calls deadline) calls
            (Table.get?_put_self ..)).mono ?_ ?_)
          · rintro _ _ rfl
            exact .pure ((Effect.seek ha hi hp hl hc hsome hresolves hd).completes rfl)
          · rintro e _ ⟨he, before, call, after, rfl, rfl, hb⟩
            exact ⟨he, .baffled ha hi hp hl hc hresolves hd hb⟩
        · rintro e _ ⟨rfl, reason, rfl, hd⟩
          exact ⟨⟨reason, rfl⟩, .untimely ha hi hp hl hc hsome hresolves hd⟩
      · rename_i hplain
        have hplain : s.settings.resolveSymbols = false := by simpa using hplain
        have hlive : (s.answering rest inquiry calls).isLive (inquiry.answered calls) := hl
        refine (ends_graft_of_live hlive hp).mono ?_ fun _ _ h => h.elim
        rintro _ _ ⟨rfl, rfl⟩
        have heffect := Effect.adopt ha hi hp hl hc hsome hplain
        exact grafted_answering ▸ heffect.completes rfl

theorem ends_completeItems (ha : s.arrivals = .reply token outcome :: rest)
    (hi : s.pending.get? token = some inquiry) {uri : Text} {direction : CallDirection}
    (hp : inquiry.purpose = .openCalls uri direction) :
    (completeItems inquiry outcome).Ends (s.taken rest) (Completes s) s.Stuck := by
  have hnone := h.sound.lookups_of_reply ha hi
  obtain rfl := (h.sound.waiting.own token inquiry hi).1
  have hl : s.isLive inquiry := by simp only [isLive, hp]
  have hfail (hu : ∀ value, outcome ≠ .answer value) :
      (fail inquiry (.itemsFailed (outcome.error?.getD []))).Ends (s.taken rest) (Completes s)
        s.Stuck := ends_refuse ha hi hl (hp ▸ .itemsFailed uri direction hu)
  unfold completeItems
  cases outcome with
  | failure text => exact hfail fun _ he => by cases he
  | cancelled => exact hfail fun _ he => by cases he
  | answer value =>
    refine .bindRead (fun items hread => ?_) fun e he => ⟨⟨e, rfl⟩, .items ha hi hp he⟩
    split
    · rename_i hempty
      obtain rfl := List.isEmpty_iff.1 hempty
      exact ends_refuse ha hi hl (hp ▸ .noItem uri direction hread)
    · rename_i hsome
      have hpasses : Passes inquiry.purpose value (.items items) :=
        hp ▸ .items uri direction hread (by simpa using hsome)
      have heffect := Effect.pass ha hi hpasses
      rw [dropped_of_lookups_eq_nil hnone] at heffect
      exact .bind (.modify (.pure (heffect.completes rfl)))

theorem ends_completeOutline (ha : s.arrivals = .reply token outcome :: rest)
    (hi : s.pending.get? token = some inquiry) {uri : Text}
    (hp : inquiry.purpose = .openOutline uri) :
    (completeOutline inquiry uri outcome).Ends (s.taken rest) (Completes s) s.Stuck := by
  have hnone := h.sound.lookups_of_reply ha hi
  obtain rfl := (h.sound.waiting.own token inquiry hi).1
  have hl : s.isLive inquiry := by simp only [isLive, hp]
  have hfail (hu : ∀ value, outcome ≠ .answer value) :
      (fail inquiry (.outlineFailed (outcome.error?.getD []))).Ends (s.taken rest) (Completes s)
        s.Stuck := ends_refuse ha hi hl (hp ▸ .outlineFailed uri hu)
  unfold completeOutline
  cases outcome with
  | failure text => exact hfail fun _ he => by cases he
  | cancelled => exact hfail fun _ he => by cases he
  | answer value =>
    dsimp only
    split
    · rename_i habsent
      exact ends_refuse ha hi hl (hp ▸ .noSymbols uri (by simpa using habsent))
    · rename_i hpresent
      refine .bind (.modify (.bindRead (fun symbols hread => ?_) fun e he => ⟨⟨e, rfl⟩, ?_⟩))
      · have hpasses : Passes inquiry.purpose value (.symbols symbols) :=
          hp ▸ .symbols uri (by simpa using hpresent) hread
        have heffect := Effect.pass ha hi hpasses
        rw [dropped_of_lookups_eq_nil hnone] at heffect
        exact .pure (heffect.completes rfl)
      · have hstumbles := Stumbles.outline ha hi hp (by simpa using hpresent) he
        rw [dropped_of_lookups_eq_nil hnone] at hstumbles
        exact hstumbles

/-- What was found for the calls of a request is entered, and after the last lookup they become
nodes. -/
theorem ends_finish (ha : s.arrivals = .lookup token outcome :: rest) {index : Nat}
    {found : List (Option LocatedSymbol)}
    (hl : s.lookups.get? token = some (inquiry.token, index))
    (hi : s.pending.get? inquiry.token = some inquiry) (ht : Tells inquiry index outcome found)
    {journal : Journal} (hj : journal.notes = s.journal.notes) :
    (finish inquiry token found).Ends
      { s.matched rest token inquiry inquiry.found with journal := journal } (Completes s)
      s.Stuck := by
  obtain ⟨id, ref, generation, direction, hp⟩ :=
    h.expands _ inquiry hi (h.sound.calls_of_lookup hl hi)
  unfold finish
  refine .bind (.modify ?_)
  unfold matched
  dsimp only
  rw [Table.put_put]
  split
  · rename_i hlast
    have hlast : (inquiry.told token found).lookups = [] := List.isEmpty_iff.1 hlast
    have hsame : Session.isLive { s.matched rest token inquiry found with journal := journal }
        (inquiry.told token found) = s.isLive inquiry := rfl
    cases hlive : s.isLive inquiry with
    | true =>
      refine (ends_graft_of_live (hsame.trans hlive) hp).mono ?_ fun _ _ h => h.elim
      rintro _ _ ⟨rfl, rfl⟩
      exact (Effect.finish ha hl hi ht hlast hp hlive).completes hj
    | false =>
      refine (ends_graft_of_dead (hsame.trans hlive)).mono ?_ fun _ _ h => h.elim
      rintro _ _ ⟨rfl, journal', rfl, hj'⟩
      exact (Effect.lapse ha hl hi ht hlast hlive).completes (hj'.trans hj)
  · rename_i hmore
    have hmore : (inquiry.told token found).lookups ≠ [] := by simpa [Inquiry.told] using hmore
    exact .pure ((Effect.find ha hl hi ht hmore).completes hj)

theorem ends_completeLookup (ha : s.arrivals = .lookup token outcome :: rest) :
    (completeLookup token outcome).Ends (s.taken rest) (Completes s) s.Stuck := by
  unfold completeLookup
  refine .bind (.get ?_)
  dsimp only
  cases hl : s.lookups.get? token with
  | none =>
    have hunheeded : ¬s.Heeds (.lookup token outcome) := by simp [Heeds, hl]
    exact .bind (.modify (.pure ((Effect.ignore ha hunheeded).completes rfl)))
  | some target =>
    obtain ⟨parent, index⟩ := target
    obtain ⟨-, -, inquiry, hi, -, hlt⟩ := h.sound.looking.known token parent index hl
    obtain rfl := (h.sound.waiting.own parent inquiry hi).1
    have hcall := List.getElem?_eq_getElem hlt
    refine .bind (.modify (.bind (.get ?_)))
    dsimp only
    rw [hi]
    refine .bind (.modify ?_)
    cases outcome with
    | failure text =>
      exact .bind (.modify (ends_finish h ha hl hi (.nothing fun _ he => by cases he) rfl))
    | cancelled =>
      exact .bind (.modify (ends_finish h ha hl hi (.nothing fun _ he => by cases he) rfl))
    | answer value =>
      rw [hcall]
      refine .bindRead (fun symbol hs => ?_) fun e he => ⟨⟨e, rfl⟩, .symbol ha hl hi hcall he⟩
      exact ends_finish h ha hl hi (.symbol hcall hs) rfl

/-- **What arrives has one effect**, or it cannot be read. -/
theorem ends_complete (ha : s.arrivals = arrival :: rest) :
    (complete arrival).Ends (s.taken rest) (Completes s) s.Stuck := by
  cases arrival with
  | lookup token outcome => exact ends_completeLookup h ha
  | reply token outcome =>
    unfold complete
    refine .bind (.get ?_)
    dsimp only
    cases hi : s.pending.get? token with
    | none =>
      have hunheeded : ¬s.Heeds (.reply token outcome) := by simp [Heeds, hi]
      exact .bind (.modify (.pure ((Effect.ignore ha hunheeded).completes rfl)))
    | some inquiry =>
      dsimp only
      cases hp : inquiry.purpose with
      | expand id ref generation direction => exact ends_completeExpansion h ha hi hp
      | openCalls uri direction => exact ends_completeItems h ha hi hp
      | openOutline uri => exact ends_completeOutline h ha hi hp

end Arrival

/-! ### All that has arrived -/

/-- Sending lookups makes at most outcomes of lookups arrive. -/
theorem arrivals_seeking (inquiry : Inquiry) (calls : List Call) (index : Nat) :
    ∃ more, (s.seeking inquiry calls index).arrivals = s.arrivals ++ more ∧
      ∀ arrival ∈ more, arrival.reply? = none := by
  induction calls generalizing s inquiry index with
  | nil => exact ⟨[], (List.append_nil _).symm, by simp⟩
  | cons call rest ih =>
    obtain ⟨more, he, hm⟩ := ih (s := (s.looking inquiry.token inquiry index).posted s.nextToken
      true (.workspaceSymbols call.item.name))
      { inquiry with lookups := inquiry.lookups ++ [s.nextToken] } (index + 1)
    refine ⟨_, he.trans (List.append_assoc ..), ?_⟩
    intro arrival ha
    rcases List.mem_append.1 ha with ha | ha
    · rcases replies_prompt s.client true s.nextToken (.workspaceSymbols call.item.name) with
        hr | ⟨hr, -⟩
      · exact List.filterMap_eq_nil_iff.1 hr arrival ha
      · cases hr
    · exact hm arrival ha

/-- An effect takes the oldest arrival from the queue. Only that of an answer makes more arrive,
and those are outcomes of lookups. -/
theorem Effect.arrivals (he : Effect s results t) : ∃ arrival rest more,
    s.arrivals = arrival :: rest ∧ t.arrivals = rest ++ more ∧
      (∀ other ∈ more, other.reply? = none) ∧ (arrival.reply? = none → more = []) := by
  have plain {arrival : Arrival} {rest : List Arrival} (ha : s.arrivals = arrival :: rest)
      (ht : t.arrivals = rest) : ∃ arrival rest more, s.arrivals = arrival :: rest ∧
        t.arrivals = rest ++ more ∧ (∀ other ∈ more, other.reply? = none) ∧
          (arrival.reply? = none → more = []) :=
    ⟨arrival, rest, [], ha, by rw [ht, List.append_nil], by simp, fun _ => rfl⟩
  cases he with
  | refuse arrivals =>
    refine plain arrivals ?_
    unfold failed
    split <;> rfl
  | @seek token value rest inquiry id ref generation direction calls deadline arrivals =>
    obtain ⟨more, hm, hn⟩ := arrivals_seeking (s := { s.taken rest with
      pending := s.pending.put inquiry.token (inquiry.asking calls deadline) })
      (inquiry.asking calls deadline) calls 0
    exact ⟨_, rest, more, arrivals, hm, hn, fun hr => by cases hr⟩
  | ignore arrivals => exact plain arrivals rfl
  | stale arrivals => exact plain arrivals rfl
  | pass arrivals => exact plain arrivals rfl
  | adopt arrivals => exact plain arrivals rfl
  | find arrivals => exact plain arrivals rfl
  | finish arrivals => exact plain arrivals rfl
  | lapse arrivals => exact plain arrivals rfl

theorem Completes.chain (h : Completes s results t) : Chain Effect s results t := by
  obtain ⟨u, journal, he, hj, rfl⟩ := h
  exact (Chain.single he).log hj

theorem Chain.steady_effect (h : s.Steady) (hc : Chain Effect s results t) : t.Steady :=
  h.moves (hc.moves (fun _ _ _ hu he => he.moves hu) h.sound)

/-- After some effects an arrival cannot be dealt with. -/
def Halts (s : Session) : Fault → Session → Prop := fun e t =>
  IsMalformed e ∧ ∃ results u, Chain Effect s results u ∧ u.Stumbles t

theorem Halts.since {e : Fault} {u : Session} (hc : Chain Effect s results t) (h : t.Halts e u) :
    s.Halts e u := by
  obtain ⟨he, more, v, hv, hs⟩ := h
  exact ⟨he, results ++ more, v, hc.trans hv, hs⟩

/-- What is in the queue has its effects, one after the other. -/
theorem ends_applyArrivals (xs : List Arrival) {ys : List Arrival} (h : s.Steady)
    (ha : s.arrivals = xs ++ ys) :
    (applyArrivals xs.length).Ends s (fun results t => Chain Effect s results t ∧
      ∃ more, t.arrivals = ys ++ more ∧ (∀ arrival ∈ more, arrival.reply? = none) ∧
        ((∀ arrival ∈ xs, arrival.reply? = none) → more = [])) s.Halts := by
  induction xs generalizing s ys with
  | nil => exact .pure ⟨.refl, [], by simpa using ha, by simp, fun _ => rfl⟩
  | cons arrival xs ih =>
    have ha' : s.arrivals = arrival :: (xs ++ ys) := ha
    rw [List.length_cons, applyArrivals]
    refine .bind (.get ?_)
    rw [ha']
    refine .bind (.modify (.bind ((ends_complete h ha').mono ?_ ?_)))
    · intro first t hfirst
      have hchain := hfirst.chain
      obtain ⟨u, journal, heffect, -, rfl⟩ := hfirst
      obtain ⟨oldest, rest, more, hs, ht, hreply, hnone⟩ := heffect.arrivals
      obtain ⟨rfl, rfl⟩ := List.cons.inj (ha'.symm.trans hs)
      rw [List.append_assoc] at ht
      refine .bind ((ih (hchain.steady_effect h) ht).mono ?_ fun e v hv => hv.since hchain)
      rintro second t ⟨hc, more', ht', hreply', hnone'⟩
      refine .pure ⟨hchain.trans hc, more ++ more', ?_, ?_, ?_⟩
      · rw [ht', List.append_assoc]
      · intro other ho
        exact (List.mem_append.1 ho).elim (hreply other) (hreply' other)
      · intro hall
        obtain ⟨hhead, htail⟩ := List.forall_mem_cons.1 hall
        rw [hnone hhead, hnone' htail, List.append_nil]
    · rintro e _ ⟨he, hs⟩
      exact ⟨he, [], s, .refl, hs⟩

/-- Everything that has arrived has its effect. -/
def absorb : SessionM (List Resolution) := do
  let first ← applyArrivals (← get).arrivals.length
  let second ← applyArrivals (← get).arrivals.length
  pure (first ++ second)

/-- **A queue is worked off in two rounds**: answers can make lookups arrive, and lookups make
nothing arrive. -/
theorem ends_absorb (h : s.Steady) :
    absorb.Ends s (fun results t => Chain Effect s results t ∧ t.arrivals = []) s.Halts := by
  unfold absorb
  refine .bind (.get (.bind ((ends_applyArrivals s.arrivals h (List.append_nil _).symm).mono ?_
    fun _ _ h => h)))
  rintro first t ⟨hfirst, more, ht, hlookups, -⟩
  rw [List.nil_append] at ht
  refine .bind (.get (.bind ((ends_applyArrivals t.arrivals (hfirst.steady_effect h)
    (List.append_nil _).symm).mono ?_ fun e v hv => hv.since hfirst)))
  rintro second u ⟨hsecond, rest, hu, -, hnone⟩
  rw [hnone (ht ▸ hlookups)] at hu
  exact .pure ⟨hfirst.trans hsecond, hu⟩

/-! ### Deadlines -/

/-- A request is over, and with it at most what is looked up for it. -/
structure Spends (s : Session) (inquiry : Inquiry) (t : Session) : Prop where
  pending : t.pending = s.pending.erase inquiry.token
  arrivals : t.arrivals = s.arrivals
  now : t.now = s.now

theorem spends_failed : s.Spends inquiry (s.failed inquiry) := by
  unfold failed
  split <;> exact ⟨rfl, rfl, rfl⟩

/-- The request still has time, or its time is up and that has its effect. -/
theorem ends_expire (h : s.Steady) (hi : s.pending.get? inquiry.token = some inquiry) :
    (expire inquiry).Ends s (fun results t =>
      s.now.lt inquiry.deadline ∧ results = [] ∧ t = s ∨
        Chain Expiry s results t ∧ s.Spends inquiry t) fun _ _ => False := by
  unfold expire
  refine .bind (.get ?_)
  split
  · rename_i hlt
    exact .pure (.inl ⟨hlt, rfl, rfl⟩)
  rename_i hlate
  have hlate : s.now.lt inquiry.deadline = false := by simpa using hlate
  split
  · rename_i hsome
    have hsome : inquiry.lookups ≠ [] := by simpa using hsome
    obtain ⟨id, ref, generation, direction, hp⟩ :=
      h.expands _ inquiry hi (h.sound.calls_of_lookups hi hsome)
    refine .bind (.modify ?_)
    cases hl : s.isLive inquiry with
    | true =>
      refine Action.Ends.mono (ends_graft_of_live (by exact hl) hp) ?_ fun _ _ h => h.elim
      rintro _ _ ⟨rfl, rfl⟩
      have hexpiry := Chain.single (Expiry.adopt hi hlate hsome hp hl)
      exact .inr ⟨hexpiry.log rfl, rfl, rfl, rfl⟩
    | false =>
      refine Action.Ends.mono (ends_graft_of_dead (by exact hl)) ?_ fun _ _ h => h.elim
      rintro _ _ ⟨rfl, journal, rfl, hj⟩
      have hexpiry := Chain.single (Expiry.lapse hi hlate hl)
      exact .inr ⟨hexpiry.log hj, rfl, rfl, rfl⟩
  · rename_i hnone
    have hnone : inquiry.lookups = [] := by simpa using hnone
    refine .bind (.get ?_)
    cases hl : s.isLive inquiry with
    | true =>
      refine (ends_fail_of_live hl _).mono ?_ fun _ _ h => h.elim
      rintro _ _ ⟨rfl, rfl⟩
      have hexpiry := Chain.single (Expiry.timeOut hi hlate hnone hl)
      obtain ⟨hp, ha, hn⟩ : s.Spends inquiry (s.failed inquiry) := spends_failed
      exact .inr ⟨hexpiry.log notes_failed.symm, hp, ha, hn⟩
    | false =>
      refine (ends_fail_of_dead hl _).mono ?_ fun _ _ h => h.elim
      rintro _ _ ⟨rfl, rfl⟩
      exact .inr ⟨.single (.lapse hi hlate hl), rfl, rfl, rfl⟩

theorem Chain.steady_expiry (h : s.Steady) (hc : Chain Expiry s results t) : t.Steady :=
  h.moves (hc.moves (fun _ _ _ hu he => he.moves hu) h.sound)

/-- What is under way after the requests of `entries` were looked through. -/
structure Lasts (s : Session) (entries : Table Token Inquiry) (t : Session) : Prop where
  arrivals : t.arrivals = s.arrivals
  now : t.now = s.now
  pending : ∀ k inquiry, t.pending.get? k = some inquiry → s.pending.get? k = some inquiry ∧
    (k ∈ entries.map Prod.fst → s.now.lt inquiry.deadline)

/-- Of requests that are looked through one after the other those are left that have time. -/
theorem ends_expireAll (entries : Table Token Inquiry) (h : s.Steady) (hs : s.Listed entries) :
    (expireAll entries).Ends s (fun results t => Chain Expiry s results t ∧ s.Lasts entries t)
      fun _ _ => False := by
  induction entries generalizing s with
  | nil => exact .pure ⟨.refl, rfl, rfl, fun _ _ hi => ⟨hi, fun hk => by cases hk⟩⟩
  | cons entry rest ih =>
    obtain ⟨k, inquiry⟩ := entry
    have hi := hs.known (k, inquiry) List.mem_cons_self
    obtain rfl := (h.sound.waiting.own k inquiry hi).1
    rw [expireAll_cons]
    refine .bind ((ends_expire h hi).mono ?_ fun _ _ h => h)
    rintro first t (⟨hlt, rfl, rfl⟩ | ⟨hchain, hspends⟩)
    · have hsame : Leaves inquiry.token t t := ⟨rfl, fun _ _ => rfl⟩
      have htail : t.Listed rest := hs.tail hsame
      refine .bind ((ih h htail).mono ?_ fun _ _ h => h)
      rintro more u ⟨hc, ha, hn, hp⟩
      refine .pure ⟨hc, ha, hn, fun j other ho => ?_⟩
      obtain ⟨hold, hfresh⟩ := hp j other ho
      refine ⟨hold, fun hj => ?_⟩
      rcases List.mem_cons.1 hj with rfl | hj
      · obtain rfl := Option.some.inj (hi.symm.trans hold)
        exact hlt
      · exact hfresh hj
    · have herase (j : Token) : t.pending.get? j =
          if inquiry.token = j then none else s.pending.get? j := by
        rw [hspends.pending, Table.get?_erase]
      have hleaves : Leaves inquiry.token s t :=
        ⟨hspends.arrivals, fun j hj => (herase j).trans (if_neg (Ne.symm hj))⟩
      have htail : t.Listed rest := hs.tail hleaves
      refine .bind ((ih (hchain.steady_expiry h) htail).mono ?_ fun _ _ h => h)
      rintro more u ⟨hc, ha, hn, hp⟩
      refine .pure ⟨hchain.trans hc, ha.trans hspends.arrivals, hn.trans hspends.now,
        fun j other ho => ?_⟩
      obtain ⟨hold, hfresh⟩ := hp j other ho
      rw [herase] at hold
      split at hold
      · cases hold
      · rename_i hne
        refine ⟨hold, fun hj => ?_⟩
        rw [← hspends.now]
        rcases List.mem_cons.1 hj with rfl | hj
        · exact absurd rfl hne
        · exact hfresh hj

/-! ### Draining -/

theorem drain_eq : drain = absorb >>= fun results =>
    MonadState.get >>= fun s => expireAll s.pending >>= fun expired => pure (results ++ expired) := by
  simp only [drain, absorb, expireAll, map_eq_pure_bind, bind_assoc, pure_bind]

/-- What it is to drain a session: all that has arrived has its effect, and then every request is
ended whose time is up. -/
structure Drains (s : Session) (results : List Resolution) (t : Session) : Prop where
  split : ∃ first second u, results = first ++ second ∧ Chain Effect s first u ∧
    u.arrivals = [] ∧ Chain Expiry u second t ∧ u.Lasts u.pending t

/-- **A session is drained, unless something that has arrived cannot be read.** -/
theorem ends_drain (h : s.Steady) : drain.Ends s (Drains s) s.Halts := by
  rw [drain_eq]
  refine .bind ((ends_absorb h).mono ?_ fun _ _ h => h)
  rintro first u ⟨hfirst, hu⟩
  have hsteady := hfirst.steady_effect h
  refine .bind (.get (.bind ((ends_expireAll u.pending hsteady hsteady.sound.listed).mono ?_
    fun _ _ h => h.elim)))
  rintro second t ⟨hsecond, hlasts⟩
  exact .pure ⟨first, second, u, rfl, hfirst, hu, hsecond, hlasts⟩

end Session

end SymbolTrees
