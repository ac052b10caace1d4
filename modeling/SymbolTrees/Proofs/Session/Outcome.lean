import SymbolTrees.Proofs.Session.Provenance

/-!
# What became of requests

In a run every request comes to one outcome at most: a server's outcomes count once (`settle_once`),
and a recording, which answers at once, has nothing open for any other.
-/

namespace SymbolTrees.Session

open SymbolTrees.Server (Outcome Recording.answer Request)

variable {s t : Session} {i : Nat} {request : Request} {outcome other : Outcome}
  {events : List Event}

/-- In the run of `events` from `s`, the request that was sent as number `i` came to `outcome`: from
the server, whose outcomes count once, or from a recording. -/
def Came (s : Session) (events : List Event) (i : Nat) (request : Request) (outcome : Outcome) :
    Prop :=
  (∃ before after, events = before ++ .settle i outcome :: after ∧
    (Event.settle i outcome).act.answer (s.steps before) = .ok (.done true)) ∨
  ∃ recording value, s.client = .replay recording ∧
    Recording.answer recording request.method request.params = .ok value ∧ outcome = .answer value

/-- It was answered if and only if it came to an answer. -/
theorem came_answer {value : Json} :
    Came s events i request (.answer value) ↔ Answered s events i request value := by
  refine or_congr Iff.rfl (exists_congr fun recording => ⟨?_, fun h => ⟨value, h.1, h.2, rfl⟩⟩)
  rintro ⟨_, hc, hv, he⟩
  obtain rfl := Outcome.answer.inj he
  exact ⟨hc, hv⟩

theorem Came.append (h : Came s events i request outcome) (more : List Event) :
    Came s (events ++ more) i request outcome := by
  rcases h with ⟨before, after, rfl, ha⟩ | hr
  · exact .inl ⟨before, after ++ more, by simp, ha⟩
  · exact .inr hr

/-- What is new at an event is the outcome that arrives. -/
theorem came_concat {event : Event} (h : Came s (events ++ [event]) i request outcome) :
    Came s events i request outcome ∨ event = .settle i outcome ∧
      event.act.answer (s.steps events) = .ok (.done true) := by
  rcases h with ⟨before, after, he, ha⟩ | hr
  · rcases List.eq_nil_or_concat after with rfl | ⟨rest, last, rfl⟩
    · obtain ⟨rfl, hlast⟩ := List.append_inj' he rfl
      obtain rfl := List.singleton_inj.1 hlast
      exact .inr ⟨rfl, ha⟩
    · rw [List.concat_eq_append, ← List.cons_append, ← List.append_assoc] at he
      obtain ⟨rfl, -⟩ := List.append_inj' he rfl
      exact .inl (.inl ⟨before, rest, rfl, ha⟩)
  · exact .inl (.inr hr)

/-- An outcome is taken if and only if its request is open. -/
theorem answer_settle : (Event.settle i outcome).act.answer s = .ok (.done true) ↔
    ∃ r, s.sent[i]? = some r ∧ r.isOpen := by
  by_cases hr : ∃ r, s.sent[i]? = some r ∧ r.isOpen
  · obtain ⟨r, hi, ho⟩ := hr
    exact iff_of_true (by rw [Action.answer, settle_of_isOpen hi ho]) ⟨r, hi, ho⟩
  · refine iff_of_false (fun h => ?_) hr
    rw [Action.answer, settle_of_not_isOpen fun r hi ho => hr ⟨r, hi, ho⟩] at h
    cases h

/-- What was sent stays as it was sent, and closed once it is closed. -/
theorem Sound.sent_steps (h : s.Sound) {r : Sent} (hr : s.sent[i]? = some r) (events : List Event) :
    ∃ r', (s.steps events).sent[i]? = some r' ∧ r'.settled = r.settled ∧
      (r.isOpen = false → r'.isOpen = false) := by
  refine steps_induction (P := fun _ t => ∃ r', t.sent[i]? = some r' ∧ r'.settled = r.settled ∧
    (r.isOpen = false → r'.isOpen = false)) h ⟨r, hr, rfl, id⟩ (fun _ _ _ h => h)
    (fun _ _ _ h => h) ?_ ?_ events
  · rintro - t u - ⟨r', hr', he⟩ hm
    obtain ⟨rest, hrest⟩ := hm.sent_grows
    refine ⟨r', ?_, he⟩
    rw [← hrest, List.getElem?_append_left (List.getElem?_eq_some_iff.1 hr').1, hr']
  · rintro before j request outcome ⟨r', hr', he, hclosed⟩ - -
    change ∃ r'', ((s.steps before).sent.modify j Sent.settled)[i]? = some r'' ∧ _
    by_cases hj : j = i
    · exact ⟨r'.settled, by simp [hj, hr'], he, fun _ => rfl⟩
    · exact ⟨r', by simp [hj, hr'], he, hclosed⟩

/-- A recording has nothing open: it answers at once. -/
theorem isServer_of_isOpen (client : Client) (settings : Settings) (root : Path) (now : Number)
    (events : List Event) : ((start client settings root now).steps events).client = client ∧
      ∀ r ∈ ((start client settings root now).steps events).sent, r.isOpen → client.isServer := by
  refine steps_induction (P := fun _ t => t.client = client ∧ ∀ r ∈ t.sent, r.isOpen →
    client.isServer) (sound_start client settings root now) ⟨rfl, fun _ hr => by cases hr⟩
    (fun _ _ _ h => h) (fun _ _ _ h => h) ?_ ?_ events
  · rintro - t u - ⟨hc, hs⟩ hm
    refine ⟨hm.client_eq.trans hc, fun r hr ho => ?_⟩
    rcases hm.sent_cases with he | ⟨last, he, -, hopen⟩
    · exact hs r (he ▸ hr) ho
    · rw [he] at hr
      rcases List.mem_append.1 hr with hr | hr
      · exact hs r hr ho
      · rw [← hc, ← hopen, ← List.mem_singleton.1 hr]
        exact ho
  · rintro before j request outcome ⟨hc, hs⟩ hj ho
    refine ⟨hc, fun r hr hopen => ?_⟩
    rcases of_mem_settle hj hr with rfl | hr
    · cases hopen
    · exact hs r hr hopen

/-- An outcome is taken once. -/
theorem Sound.settle_once (h : s.Sound) {before after : List Event}
    (ha : (Event.settle i outcome).act.answer (s.steps before) = .ok (.done true)) :
    (Event.settle i other).act.answer
      (s.steps (before ++ .settle i outcome :: after)) ≠ .ok (.done true) := by
  obtain ⟨r, hr, ho⟩ := answer_settle.1 ha
  have hstep : (s.steps before).step (.settle i outcome) = (s.steps before).arrived i r outcome := by
    rw [Session.step, Action.after, settle_of_isOpen hr ho]
  have hclosed : ((s.steps before).step (.settle i outcome)).sent[i]? = some r.settled := by
    rw [hstep]
    change ((s.steps before).sent.modify i Sent.settled)[i]? = _
    simp [hr]
  obtain ⟨r', hr', -, hstays⟩ := ((h.steps before).step _).sent_steps hclosed after
  intro hagain
  obtain ⟨r'', hr'', hopen⟩ := answer_settle.1 hagain
  rw [steps_append, steps_cons, hr'] at hr''
  obtain rfl := Option.some.inj hr''
  rw [hstays rfl] at hopen
  cases hopen

/-- Only what a server has open is settled. -/
theorem isServer_of_settled {client : Client} {settings : Settings} {root : Path} {now : Number}
    (ha : (Event.settle i outcome).act.answer ((start client settings root now).steps events) =
      .ok (.done true)) : client.isServer := by
  obtain ⟨r, hr, ho⟩ := answer_settle.1 ha
  exact (isServer_of_isOpen client settings root now events).2 r (List.mem_of_getElem? hr) ho

/-- **A request comes to one outcome.** -/
theorem came_unique (client : Client) (settings : Settings) (root : Path) (now : Number)
    (h : Came (start client settings root now) events i request outcome)
    (h' : Came (start client settings root now) events i request other) : outcome = other := by
  have hsound := sound_start client settings root now
  rcases h with ⟨before, after, rfl, ha⟩ | ⟨recording, value, hc, hv, rfl⟩ <;>
    rcases h' with ⟨before', after', he, ha'⟩ | ⟨recording', value', hc', hv', rfl⟩
  · rcases List.append_eq_append_iff.1 he with ⟨between, rfl, hrest⟩ | ⟨between, rfl, hrest⟩
    · cases between with
      | nil => exact (Event.settle.inj (List.cons.inj hrest).1).2
      | cons event between =>
        obtain ⟨rfl, -⟩ := List.cons.inj hrest
        exact absurd ha' (hsound.settle_once ha)
    · cases between with
      | nil => exact (Event.settle.inj (List.cons.inj hrest).1).2.symm
      | cons event between =>
        obtain ⟨rfl, -⟩ := List.cons.inj hrest
        exact absurd ha (hsound.settle_once ha')
  · have hs := isServer_of_settled ha
    change client = _ at hc'
    rw [hc'] at hs
    cases hs
  · have hs := isServer_of_settled ha'
    change client = _ at hc
    rw [hc] at hs
    cases hs
  · obtain rfl := Client.replay.inj (hc.symm.trans hc')
    rw [Except.ok.inj (hv.symm.trans hv')]

end SymbolTrees.Session
