import SymbolTrees.Proofs.Merged
import SymbolTrees.Proofs.Session.Completion

/-!
# Draining in lockstep

What arrives for requests that are left out, and that their time is up, is dealt with on one side
only: it ends without a result and is not seen. All else is dealt with in lockstep.
-/

namespace SymbolTrees.Session

open SymbolTrees.Server (Outcome)

variable {dead : Token → Bool} {s t s' t' : Session} {inquiry : Inquiry} {token : Token}
  {outcome : Outcome} {arrival : Arrival} {rest : List Arrival} {α : Type}

/-! ### What is not seen -/

/-- By moves of which nothing is seen `s` became `s'`. -/
structure Silent (dead : Token → Bool) (s s' : Session) : Prop where
  moves : Moves s s'
  alike : s.Alike dead s'

namespace Silent

theorem refl (s : Session) : Silent dead s s := ⟨.refl, .refl s⟩

theorem trans {s'' : Session} (h : Silent dead s s') (h' : Silent dead s' s'') :
    Silent dead s s'' :=
  ⟨Relation.ReflTransGen.trans h.moves h'.moves, h.alike.trans h'.alike⟩

theorem journal {j : Journal} (h : Silent dead s s') (hj : j.notes = s'.journal.notes) :
    Silent dead s { s' with journal := j } :=
  ⟨.tail h.moves (.journal s' j), { h.alike with notes := h.alike.notes.trans hj.symm }⟩

theorem after (hw : Twins dead s t) (h : Silent dead s s') : After dead s t s' t :=
  ⟨h.moves, .refl, h.alike.symm.trans hw.alike⟩

end Silent

section Quiet

variable (h : s.Sound) (hq : s.Quiet dead)
include h hq

theorem silent_dropped (hi : s.pending.get? inquiry.token = some inquiry)
    (hk : dead inquiry.token) : Silent dead s (s.dropped inquiry) := by
  refine ⟨.single (.drop hi (.inl (hq.stale _ inquiry hk hi).2)), .of_dropped hk fun l hl => ?_⟩
  obtain ⟨index, hl⟩ := h.looking.listed _ inquiry hi l hl
  rw [hq.lookups l _ index hl]
  exact hk

omit h hq in
theorem silent_take (ha : s.arrivals = arrival :: rest) (hk : dead arrival.token) :
    Silent dead s { s with arrivals := rest } := by
  refine ⟨.single (.ignore ha), { Alike.refl s with arrivals := ?_ }⟩
  rw [ha, List.filter_cons_of_neg (by simp [hk])]

omit h in
/-- An outcome of a lookup is found for a call that is left out. -/
theorem silent_matched {index : Nat} {found : List (Option LocatedSymbol)} (hk : dead token)
    (ha : s.arrivals = .lookup token outcome :: rest)
    (hl : s.lookups.get? token = some (inquiry.token, index))
    (hi : s.pending.get? inquiry.token = some inquiry) (finds : Finds inquiry index outcome found) :
    Silent dead s (s.matched rest token inquiry found) := by
  have hp : dead inquiry.token := hq.lookups token _ index hl ▸ hk
  refine ⟨.single (.find ha hl hi finds), { (silent_take ha hk).alike with
    lookups := ?_
    pending := ?_ }⟩
  · exact (Table.filter_put_of_not s.pending inquiry.token (fun k => !dead k) _ (by simp [hp])).symm
  · exact (Table.filter_erase_of_not s.lookups token (fun k => !dead k) (by simp [hk])).symm

theorem silent_finish {index : Nat} {found : List (Option LocatedSymbol)} (hk : dead token)
    (ha : s.arrivals = .lookup token outcome :: rest)
    (hl : s.lookups.get? token = some (inquiry.token, index))
    (hi : s.pending.get? inquiry.token = some inquiry) (finds : Finds inquiry index outcome found)
    {j : Journal} (hj : j.notes = s.journal.notes) :
    (finish inquiry token found).Ends
      { s.matched rest token inquiry inquiry.found with journal := j }
      (fun results s' => results = [] ∧ Silent dead s s' ∧ s'.arrivals = rest)
      fun _ _ => False := by
  have hp : dead inquiry.token := hq.lookups token _ index hl ▸ hk
  have hs := (silent_matched hq hk ha hl hi finds).journal (j := j) hj
  have hstale := (hq.stale _ inquiry hp hi).2
  unfold finish
  refine .bind (.modify ?_)
  unfold matched
  dsimp only
  rw [Table.put_put]
  split
  · refine Action.Ends.mono (ends_graft_of_dead ?_) ?_ fun _ _ h => h
    · exact hstale
    rintro _ _ ⟨rfl, j', rfl, hj'⟩
    have hd : Silent dead { s.matched rest token inquiry found with journal := j } (dropped _
        { inquiry with lookups := inquiry.lookups.filter (· ≠ token), found := found }) :=
      silent_dropped (h.moves hs.moves) (hq.moves h hs.moves) (Table.get?_put_self ..) hp
    exact ⟨rfl, (hs.trans hd).journal hj', rfl⟩
  · exact .pure ⟨rfl, hs, rfl⟩

theorem silent_completeLookup (hk : dead token) (ha : s.arrivals = .lookup token outcome :: rest) :
    (completeLookup token outcome).Ends { s with arrivals := rest }
      (fun results s' => results = [] ∧ Silent dead s s' ∧ s'.arrivals = rest)
      fun _ _ => False := by
  have htake := silent_take ha hk
  unfold completeLookup
  refine .bind (.get ?_)
  dsimp only
  cases hl : s.lookups.get? token with
  | none => exact .bind (.modify (.pure ⟨rfl, htake.journal rfl, rfl⟩))
  | some target =>
    obtain ⟨parent, index⟩ := target
    obtain ⟨-, -, inquiry, hi, -, hlt⟩ := h.looking.known token parent index hl
    obtain rfl := (h.waiting.own parent inquiry hi).1
    have hcall := List.getElem?_eq_getElem hlt
    refine .bind (.modify (.bind (.get ?_)))
    dsimp only
    rw [hi]
    refine .bind (.modify ?_)
    cases outcome with
    | failure text => exact .bind (.modify (silent_finish h hq hk ha hl hi (.same _) rfl))
    | cancelled => exact .bind (.modify (silent_finish h hq hk ha hl hi (.same _) rfl))
    | answer value =>
      obtain ⟨symbol, hs⟩ := hq.readable token value (ha ▸ List.mem_cons_self) hk _ index inquiry _
        hl hi hcall
      rw [hcall]
      dsimp only
      rw [hs]
      exact silent_finish h hq hk ha hl hi (.symbol hcall hs) rfl

/-- **What arrives for a request that is left out has no result and is not seen.** -/
theorem silent_complete (hk : dead arrival.token) (ha : s.arrivals = arrival :: rest) :
    (complete arrival).Ends { s with arrivals := rest }
      (fun results s' => results = [] ∧ Silent dead s s' ∧ s'.arrivals = rest)
      fun _ _ => False := by
  have htake := silent_take ha hk
  cases arrival with
  | lookup token outcome => exact silent_completeLookup h hq hk ha
  | reply token outcome =>
    unfold complete
    refine .bind (.get ?_)
    dsimp only
    cases hi : s.pending.get? token with
    | none => exact .bind (.modify (.pure ⟨rfl, htake.journal rfl, rfl⟩))
    | some inquiry =>
      have hn := h.lookups_of_reply ha hi
      obtain ⟨⟨id, ref, generation, direction, hp⟩, hstale⟩ := hq.stale token inquiry hk hi
      obtain rfl := (h.waiting.own token inquiry hi).1
      have hd := silent_dropped (h.moves htake.moves) (hq.moves h htake.moves) hi hk
      dsimp only
      rw [hp]
      unfold completeExpansion
      refine .bind (.get ?_)
      change Action.Ends (if !s.isLive inquiry then _ else _) _ _ _
      rw [hstale]
      refine (ends_stale hn).mono ?_ fun _ _ h => h
      rintro _ _ ⟨rfl, j, rfl, hj⟩
      exact ⟨rfl, (htake.trans hd).journal hj, rfl⟩

/-- That the time of a request that is left out is up is not seen. -/
theorem silent_expire (hk : dead inquiry.token) (hi : s.pending.get? inquiry.token = some inquiry) :
    (expire inquiry).Ends s
      (fun results s' => results = [] ∧ Silent dead s s' ∧ Leaves inquiry.token s s')
      fun _ _ => False := by
  have hstale := (hq.stale _ inquiry hk hi).2
  have hd := silent_dropped h hq hi hk
  unfold expire
  refine .bind (.get ?_)
  split
  · exact .pure ⟨rfl, .refl s, rfl, fun _ _ => rfl⟩
  split
  · refine .bind (.modify ?_)
    refine Action.Ends.mono (ends_graft_of_dead ?_) ?_ fun _ _ h => h
    · exact hstale
    rintro _ _ ⟨rfl, j, rfl, hj⟩
    exact ⟨rfl, hd.journal hj, leaves_dropped j⟩
  · refine .bind (.get ?_)
    refine (ends_fail_of_dead hstale _).mono ?_ fun _ _ h => h
    rintro _ _ ⟨rfl, rfl⟩
    exact ⟨rfl, hd, leaves_dropped s.journal⟩

end Quiet

/-! ### Queues -/

theorem Twins.symm (h : Twins dead s t) : Twins dead t s :=
  ⟨h.right, h.left, h.quietRight, h.quietLeft, h.alike.symm⟩

theorem After.symm (h : After dead s t s' t') : After dead t s t' s' :=
  ⟨h.right, h.left, h.alike.symm⟩

theorem Lock.symm {x y : SessionM α} (h : Lock dead x y s t Anyhow) : Lock dead y x t s Anyhow :=
  Action.Pair.mono (Action.Pair.symm h) (fun _ _ _ h => ⟨h.1.symm, trivial⟩) fun _ _ h => h.symm

/-- The oldest arrival is not seen. -/
theorem lock_skip {n : Nat} {y : SessionM (List Resolution)} (h : Twins dead s t)
    (hk : dead arrival.token) (ha : s.arrivals = arrival :: rest)
    (hrest : ∀ s', Twins dead s' t → s'.arrivals = rest →
      Lock dead (applyArrivals n) y s' t Anyhow) :
    Lock dead (applyArrivals (n + 1)) y s t Anyhow := by
  rw [applyArrivals]
  apply Action.Pair.getLeft
  rw [ha]
  apply Action.Pair.modifyLeft
  apply Action.Pair.left (silent_complete h.left h.quietLeft hk ha)
  rintro _ s' ⟨rfl, hs, hr⟩
  simp only [List.nil_append, bind_pure]
  have hafter := hs.after h
  exact (hrest s' (h.after hafter) hr).since hafter

/-- **Queues that agree on what is seen are worked off in lockstep.** -/
theorem lock_applyArrivals {xs ys : List Arrival}
    (hm : Merged (fun arrival => !dead arrival.token) xs ys) (h : Twins dead s t)
    (hs : xs <+: s.arrivals) (ht : ys <+: t.arrivals) :
    Lock dead (applyArrivals xs.length) (applyArrivals ys.length) s t Anyhow := by
  induction hm generalizing s t with
  | nil => exact Lock.pure h trivial
  | @left arrival xs ys skipped rest ih =>
    obtain ⟨more, hs⟩ := hs
    refine lock_skip h (by simpa using skipped) hs.symm fun s' h' he => ?_
    exact ih h' (he ▸ List.prefix_append ..) ht
  | @right arrival xs ys skipped rest ih =>
    obtain ⟨more, ht⟩ := ht
    refine (lock_skip h.symm (by simpa using skipped) ht.symm fun t' h' he => ?_).symm
    exact (ih h'.symm hs (he ▸ List.prefix_append ..)).symm
  | @both arrival xs ys kept rest ih =>
    obtain ⟨more, hs⟩ := hs
    obtain ⟨more', ht⟩ := ht
    rw [List.length_cons, List.length_cons, applyArrivals, applyArrivals]
    apply Lock.get
    rw [← hs, ← ht]
    apply Action.Pair.modifyBind
    apply Action.Pair.bind (lock_complete h (by simpa using kept) hs.symm ht.symm)
    rintro first s' t' ⟨hafter, hg, hg'⟩
    have hmore := Lock.bind (h.after hafter) (ih (h.after hafter)
      ((List.prefix_append xs more).trans hg) ((List.prefix_append ys more').trans hg'))
      fun more s' t' h _ => Lock.pure (a := first ++ more) (Q := Anyhow) h trivial
    exact hmore.since hafter

/-! ### Deadlines -/

theorem labelOf_eq (ha : s.Alike dead t) (purpose : Purpose) :
    s.labelOf purpose = t.labelOf purpose := by
  cases purpose with
  | expand id ref generation direction => exact congrArg Node.name (ha.node ref)
  | _ => rfl

/-- That the time of a request that is not left out is up is dealt with in lockstep. -/
theorem lock_expire (h : Twins dead s t) (hi : s.pending.get? inquiry.token = some inquiry)
    (hi' : t.pending.get? inquiry.token = some inquiry) :
    Lock dead (expire inquiry) (expire inquiry) s t fun _ s' t' =>
      Leaves inquiry.token s s' ∧ Leaves inquiry.token t t' := by
  unfold expire
  apply Lock.get
  rw [← h.alike.now]
  split
  · exact Lock.pure h ⟨⟨rfl, fun _ _ => rfl⟩, rfl, fun _ _ => rfl⟩
  split
  · rename_i hsome
    obtain ⟨l, hl⟩ := List.exists_mem_of_ne_nil inquiry.lookups (by simpa using hsome)
    obtain ⟨index, hl⟩ := h.left.looking.listed _ inquiry hi l hl
    obtain ⟨-, -, other, ho, -, hlt⟩ := h.left.looking.known l _ index hl
    obtain rfl := Option.some.inj (hi.symm.trans ho)
    have hc : inquiry.calls ≠ [] := List.ne_nil_of_length_pos (Nat.zero_lt_of_lt hlt)
    apply Action.Pair.modifyBind
    have hafter (message : Text) : After dead s t
        { s with journal := s.journal.write .debug message }
        { t with journal := t.journal.write .debug message } := h.refl.written h.alike.notes
    refine Action.Pair.mono (Lock.since (hafter _) (lock_graft (h.after (hafter _)) hi hi' hc)) ?_
      fun _ _ h => h
    rintro _ s' t' ⟨hg, hs, ht⟩
    exact ⟨hg, ⟨hs.arrivals, hs.others⟩, ht.arrivals, ht.others⟩
  · apply Lock.get
    rw [labelOf_eq h.alike]
    exact lock_fail h hi hi' _

/-- The requests of `entries` are under way. -/
structure Listed (s : Session) (entries : Table Token Inquiry) : Prop where
  distinct : (entries.map Prod.fst).Nodup
  known : ∀ entry ∈ entries, s.pending.get? entry.1 = some entry.2

theorem Sound.listed (h : s.Sound) : s.Listed s.pending :=
  ⟨h.waiting.distinct, fun _ he => Table.get?_of_mem h.waiting.distinct he⟩

/-- The others stay under way while one is dealt with. -/
theorem Listed.tail {entry : Token × Inquiry} {rest : Table Token Inquiry}
    (h : s.Listed (entry :: rest)) (hl : Leaves entry.1 s s') : s'.Listed rest := by
  obtain ⟨hnot, hn⟩ := List.nodup_cons.1 h.distinct
  refine ⟨hn, ?_⟩
  intro other ho
  have hne : other.1 ≠ entry.1 := fun he => hnot (he ▸ List.mem_map_of_mem ho)
  rw [hl.others _ hne]
  exact h.known other (List.mem_cons_of_mem _ ho)

/-- The requests whose time is up, one after the other. -/
def expireAll (entries : Table Token Inquiry) : SessionM (List Resolution) :=
  List.flatten <$> entries.mapM fun entry => expire entry.2

theorem expireAll_cons (entry : Token × Inquiry) (rest : Table Token Inquiry) :
    expireAll (entry :: rest) =
      expire entry.2 >>= fun first => expireAll rest >>= fun more => pure (first ++ more) := by
  simp only [expireAll, List.mapM_cons, map_eq_pure_bind, bind_assoc, pure_bind, List.flatten_cons]

/-- That the time of the first request is up is not seen. -/
theorem lock_skipExpired {entry : Token × Inquiry} {more : Table Token Inquiry}
    {y : SessionM (List Resolution)} (h : Twins dead s t) (hk : dead entry.1)
    (hl : s.Listed (entry :: more))
    (hrest : ∀ s', Twins dead s' t → s'.Listed more → Lock dead (expireAll more) y s' t Anyhow) :
    Lock dead (expireAll (entry :: more)) y s t Anyhow := by
  have hi := hl.known entry List.mem_cons_self
  have hown := (h.left.waiting.own _ _ hi).1
  rw [expireAll_cons]
  apply Action.Pair.left (silent_expire h.left h.quietLeft (hown ▸ hk) (hown ▸ hi))
  rintro _ s' ⟨rfl, hs, hleaves⟩
  simp only [List.nil_append, bind_pure]
  have hafter := hs.after h
  exact (hrest s' (h.after hafter) (hl.tail (hown ▸ hleaves))).since hafter

theorem lock_expireAll {xs ys : Table Token Inquiry}
    (hm : Merged (fun entry => !dead entry.1) xs ys) (h : Twins dead s t) (hs : s.Listed xs)
    (ht : t.Listed ys) : Lock dead (expireAll xs) (expireAll ys) s t Anyhow := by
  induction hm generalizing s t with
  | nil => exact Lock.pure h trivial
  | left skipped rest ih =>
    exact lock_skipExpired h (by simpa using skipped) hs fun s' h' hs' => ih h' hs' ht
  | right skipped rest ih =>
    exact (lock_skipExpired h.symm (by simpa using skipped) ht fun t' h' ht' =>
      (ih h'.symm hs ht').symm).symm
  | @both entry xs ys kept rest ih =>
    have hi := hs.known entry List.mem_cons_self
    have hi' := ht.known entry List.mem_cons_self
    have hown := (h.left.waiting.own _ _ hi).1
    rw [expireAll_cons, expireAll_cons]
    refine Lock.bind h (lock_expire h (hown ▸ hi) (hown ▸ hi')) fun first s' t' h' hl => ?_
    have hrest := ih h' (hs.tail (hown ▸ hl.1)) (ht.tail (hown ▸ hl.2))
    exact Lock.bind h' hrest fun more s' t' h' _ => Lock.pure h' trivial

/-- **Sessions that look alike are drained in lockstep.** -/
theorem lock_drain (h : Twins dead s t) : Lock dead drain drain s t Anyhow := by
  have harrivals {s t : Session} (h : Twins dead s t) :
      Lock dead (applyArrivals s.arrivals.length) (applyArrivals t.arrivals.length) s t Anyhow :=
    lock_applyArrivals (merged_of_filter_eq h.alike.arrivals) h List.prefix_rfl List.prefix_rfl
  unfold drain
  refine Lock.get (Lock.bind h (harrivals h) fun first s t h _ => ?_)
  refine Lock.get (Lock.bind h (harrivals h) fun second s t h _ => ?_)
  apply Lock.get
  have hall := Lock.bind h (lock_expireAll (merged_of_filter_eq h.alike.pending) h h.left.listed
    h.right.listed) fun expired s t h _ =>
      Lock.pure (a := first ++ second ++ expired) (Q := Anyhow) h trivial
  simpa only [expireAll, map_eq_pure_bind, bind_assoc, pure_bind] using hall

end SymbolTrees.Session
