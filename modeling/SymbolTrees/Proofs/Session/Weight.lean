import Mathlib.Algebra.GroupWithZero.Nat
import SymbolTrees.Proofs.Session.Attribution

/-!
# Working off the queue

While a queue is worked off it can grow: an answer with calls has as many lookups answered as it has
calls. But a lookup makes nothing more arrive, so there is a measure that every arrival lowers
(`Effect.weight_lt`), and a loop that applies what is in the queue as long as anything is there
comes to its end.
-/

namespace SymbolTrees

open SymbolTrees.Server (Request)

namespace Action

variable {σ α β : Type} {s t : σ}

/-- What is looked up is what is there. -/
theorem get_bind (f : σ → Action σ β) (s : σ) :
    ((MonadState.get : Action σ σ) >>= f) s = f s s := rfl

/-- What follows does not depend on how it was come to. -/
theorem bind_congr_left {x y : Action σ α} (h : x s = y t) (f : α → Action σ β) :
    (x >>= f) s = (y >>= f) t := by
  change EStateM.bind x f s = EStateM.bind y f t
  rw [EStateM.bind, EStateM.bind, h]

theorem bind_congr_right {x : Action σ α} {f g : α → Action σ β} (h : ∀ a t, f a t = g a t)
    (s : σ) : (x >>= f) s = (x >>= g) s := by
  change EStateM.bind x f s = EStateM.bind x g s
  cases hx : x s with
  | ok a t => simpa only [EStateM.bind, hx] using h a t
  | error e t => simp only [EStateM.bind, hx]

end Action

/-- How many arrivals an arrival comes to at most: the answer to a request can have the symbols of
all its calls looked up. -/
def Arrival.weight : Arrival → Nat
  | .reply _ (.answer value) =>
    match Session.objects value with
    | .ok entries => entries.length + 1
    | .error _ => 1
  | _ => 1

theorem Arrival.weight_pos (arrival : Arrival) : 0 < arrival.weight := by
  unfold weight
  split
  · split <;> exact Nat.succ_pos _
  · exact Nat.one_pos

/-- There is one outcome of a request at once, if there is any. -/
theorem Client.prompt_cases (client : Client) (isLookup : Bool) (token : Token)
    (request : Request) : client.prompt isLookup token request = [] ∨
      ∃ outcome, client.prompt isLookup token request = [.of isLookup token outcome] := by
  cases client with
  | server => exact .inl rfl
  | replay recording =>
    unfold Client.prompt
    dsimp only
    split
    · exact .inr ⟨_, rfl⟩
    · exact .inl rfl

namespace Session

variable {s t : Session} {results : List Resolution} {arrival : Arrival} {rest : List Arrival}
  {k : Token} {n : Nat}

theorem weight_of_callsOf {direction : CallDirection} {value : Json} {calls : List Call}
    (h : callsOf direction value = .ok calls) :
    (Arrival.reply k (.answer value)).weight = calls.length + 1 := by
  obtain ⟨entries, he, hread⟩ := Except.of_bind h
  rw [Arrival.weight, he]
  exact congrArg (· + 1) (Except.of_mapM hread).length_eq

/-! ### Working off the queue -/

/-- How many arrivals the queue comes to at most. -/
def weight (s : Session) : Nat := (s.arrivals.map Arrival.weight).sum

/-- To a lookup there is one outcome at most. -/
theorem weight_prompts_searches (client : Client) (k : Token) (calls : List Call) :
    ((prompts client (searches client k calls)).map Arrival.weight).sum ≤ calls.length := by
  induction calls generalizing k with
  | nil => exact Nat.le_refl _
  | cons call rest ih =>
    have hfirst : ((client.prompt true k (.workspaceSymbols call.item.name)).map
        Arrival.weight).sum ≤ 1 := by
      rcases client.prompt_cases true k (.workspaceSymbols call.item.name) with he | ⟨outcome, he⟩
      · rw [he]
        exact Nat.zero_le _
      · rw [he]
        exact Nat.le_refl _
    rw [searches, prompts, List.flatMap_cons, List.map_append, List.sum_append, List.length_cons,
      Nat.add_comm rest.length]
    exact Nat.add_le_add hfirst (ih (k + 1))

/-- **Every arrival that is applied makes the queue lighter.** -/
theorem Effect.weight_lt (he : Effect s results t) : t.weight < s.weight := by
  have plain {arrival : Arrival} {rest : List Arrival} (ha : s.arrivals = arrival :: rest)
      (ht : t.arrivals = rest) : t.weight < s.weight := by
    rw [weight, weight, ha, ht, List.map_cons, List.sum_cons]
    exact Nat.lt_add_of_pos_left arrival.weight_pos
  cases he with
  | @seek token value rest inquiry id ref generation direction calls deadline arrivals pending
      purpose live read =>
    have hprompts := weight_prompts_searches s.client s.nextToken calls
    rw [weight, weight, rearmed, arrivals_seeking_eq, arrivals, List.map_append, List.sum_append,
      List.map_cons, List.sum_cons, weight_of_callsOf read]
    change (rest.map _).sum +
      ((prompts s.client (searches s.client s.nextToken calls)).map _).sum < _
    omega
  | refuse arrivals => exact plain arrivals spends_failed.arrivals
  | ignore arrivals => exact plain arrivals rfl
  | stale arrivals => exact plain arrivals rfl
  | pass arrivals => exact plain arrivals rfl
  | adopt arrivals => exact plain arrivals rfl
  | find arrivals => exact plain arrivals rfl
  | finish arrivals => exact plain arrivals rfl
  | lapse arrivals => exact plain arrivals rfl

theorem applyArrivals_of_nil (ha : s.arrivals = []) : applyArrivals n s = .ok [] s := by
  cases n with
  | zero => rfl
  | succ n =>
    rw [applyArrivals, Action.get_bind, ha]
    rfl

theorem applyArrivals_of_cons (ha : s.arrivals = arrival :: rest) : applyArrivals (n + 1) s =
    (complete arrival >>= fun first => applyArrivals n >>= fun more => pure (first ++ more))
      (s.taken rest) := by
  rw [applyArrivals, Action.get_bind, ha]
  rfl

/-- Working off the queue can be interrupted. -/
theorem applyArrivals_add (n m : Nat) (s : Session) : applyArrivals (n + m) s =
    (applyArrivals n >>= fun first => applyArrivals m >>= fun more => pure (first ++ more)) s := by
  induction n generalizing s with
  | zero =>
    rw [Nat.zero_add, applyArrivals]
    simp
  | succ n ih =>
    rw [Nat.succ_add]
    cases ha : s.arrivals with
    | nil =>
      rw [applyArrivals_of_nil ha, Action.bind_of_ok (applyArrivals_of_nil ha),
        Action.bind_of_ok (applyArrivals_of_nil ha)]
      rfl
    | cons arrival rest =>
      rw [applyArrivals_of_cons ha, Action.bind_congr_left (applyArrivals_of_cons ha)]
      simp only [bind_assoc, pure_bind]
      refine Action.bind_congr_right (fun first t => ?_) _
      rw [Action.bind_congr_left (ih t)]
      simp only [bind_assoc, pure_bind, List.append_assoc]

/-- A queue that was worked off stays worked off. -/
theorem applyArrivals_of_ends (m : Nat)
    (h : (applyArrivals n).Ends s (fun _ t => t.arrivals = []) fun _ _ => True) :
    applyArrivals (n + m) s = applyArrivals n s := by
  rw [applyArrivals_add]
  unfold Action.Ends at h
  cases hn : applyArrivals n s with
  | error e t => exact Action.bind_of_error hn
  | ok first t =>
    rw [hn] at h
    rw [Action.bind_of_ok hn, Action.bind_of_ok (applyArrivals_of_nil h), List.append_nil]
    rfl

/-- **The queue is worked off** when as many arrivals are applied as it weighs. -/
theorem ends_applyArrivals_of_weight (h : s.Steady) (hn : s.weight ≤ n) :
    (applyArrivals n).Ends s (fun _ t => t.arrivals = []) fun _ _ => True := by
  induction n generalizing s with
  | zero =>
    cases ha : s.arrivals with
    | nil => exact .pure ha
    | cons arrival rest =>
      have hpos := arrival.weight_pos
      rw [weight, ha, List.map_cons, List.sum_cons] at hn
      omega
  | succ n ih =>
    rw [applyArrivals]
    refine .bind (.get ?_)
    cases ha : s.arrivals with
    | nil => exact .pure ha
    | cons arrival rest =>
      refine .bind (.modify (.bind ((ends_complete h ha).mono ?_ fun _ _ _ => trivial)))
      intro first t hfirst
      have ht := hfirst.chain.steady_effect h
      obtain ⟨u, journal, heffect, -, rfl⟩ := hfirst
      have hlighter : u.weight < s.weight := heffect.weight_lt
      exact .bind ((ih ht (Nat.le_of_lt_succ (Nat.lt_of_lt_of_le hlighter hn))).mono
        (fun _ _ hu => .pure hu) fun _ _ _ => trivial)

/-- The two rounds of a drain apply as much as any number that is large enough. -/
theorem applyArrivals_eq_absorb (h : s.Steady) (hn : s.weight ≤ n) :
    applyArrivals n s = absorb s := by
  have hends := ends_applyArrivals_of_weight h hn
  have habsorb := ends_absorb h
  suffices hrounds : ∃ m, absorb s = applyArrivals m s by
    obtain ⟨m, hm⟩ := hrounds
    unfold Action.Ends at habsorb
    rw [hm] at habsorb
    rw [hm, ← applyArrivals_of_ends m hends, Nat.add_comm]
    refine applyArrivals_of_ends n ?_
    unfold Action.Ends
    cases happly : applyArrivals m s with
    | ok results t =>
      rw [happly] at habsorb
      exact habsorb.2
    | error e t => trivial
  have hfirst : absorb s = (applyArrivals s.arrivals.length >>= fun first =>
      MonadState.get >>= fun t => applyArrivals t.arrivals.length >>= fun second =>
        pure (first ++ second)) s := rfl
  cases hf : applyArrivals s.arrivals.length s with
  | error e t => exact ⟨_, by rw [hfirst, Action.bind_of_error hf, hf]⟩
  | ok first t =>
    refine ⟨s.arrivals.length + t.arrivals.length, ?_⟩
    rw [hfirst, applyArrivals_add, Action.bind_of_ok hf, Action.bind_of_ok hf]
    rfl

/-- To pump a session with a loop that applies what is in the queue as long as anything is there,
but `n` times at most. -/
def pumpWithin (n : Nat) : SessionM (List Resolution) := do
  let results ← applyArrivals n
  let expired ← expireAll (← get).pending
  conclude (results ++ expired)

/-- **A loop that works off the queue comes to its end**, and to the end that pumping comes to. -/
theorem pumpWithin_eq_pump (h : s.Steady) (hn : s.weight ≤ n) : pumpWithin n s = pump s := by
  have hpump : pump = absorb >>= fun results => MonadState.get >>= fun s =>
      expireAll s.pending >>= fun expired => conclude (results ++ expired) := by
    rw [pump_eq, drain_eq]
    simp only [bind_assoc, pure_bind]
  rw [hpump]
  exact Action.bind_congr_left (applyArrivals_eq_absorb h hn) _

end Session

end SymbolTrees
