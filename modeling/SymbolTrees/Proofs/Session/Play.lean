import SymbolTrees.Proofs.Session.Dispatch

/-!
# What turns come to

A command does what an event does, and writes at most a note about it. So after a turn of any kind
a session has done some moves, or an outcome has arrived, or time has gone by; and what moves keep,
plays keep, also where a turn fails.
-/

namespace SymbolTrees

/-- Where an action leaves off does not depend on what is made of its answer. -/
theorem Action.after_returns {σ α β : Type} (x : Action σ α) (f : α → β) (s : σ) :
    (x >>= fun a => pure (f a) : Action σ β).after s = x.after s := by
  unfold after
  cases hact : x s with
  | ok a t => rw [bind_of_ok hact]; rfl
  | error e t => rw [bind_of_error hact]

namespace Session

open SymbolTrees.Server (Outcome)

variable {s t : Session} {id : TreeId} {row : Option Int} {command : Command} {commands : Commands}
  {name : Text} {event : Event}

/-- What a command is for is what a session does itself. -/
theorem isOwn_of_commandEvent? (he : s.commandEvent? id row command = some event) :
    event.isOwn := by
  have node {make : NodeRef → Event} (hmake : (s.nodeOn? id row).map make = some event)
      (hown : ∀ ref, (make ref).isOwn) : event.isOwn := by
    obtain ⟨ref, -, rfl⟩ := Option.map_eq_some_iff.1 hmake
    exact hown ref
  cases command with
  | expand | collapse | toggle | focus | jump | details => exact node he fun _ => rfl
  | switch | close | hide | «show» =>
    obtain rfl := Option.some.inj he
    rfl
  | report => cases he
  | refuse text => cases he

theorem moves_carryOut (h : s.Sound) (ho : s.isOpen id) :
    Moves s ((carryOut command id row).after s) := by
  cases he : s.commandEvent? id row command with
  | some event =>
    have hafter : (carryOut command id row).after s = (Report.reply <$> event.act).after s := by
      unfold Action.after
      rw [carryOut_of_event? ho he]
    rw [hafter, map_eq_pure_bind, Action.after_returns]
    exact h.moves_step (isOwn_of_commandEvent? he)
  | none =>
    -- There is no node on the row, and that is found before anything is done.
    have onNone {x : NodeRef → SessionM Reply} {make : NodeRef → Event}
        (hmake : (s.nodeOn? id row).map make = none) :
        Moves s ((nodeOnRow id row >>= x).after s) := by
      have hnode := nodeOnRow_of_none ho (Option.map_eq_none_iff.1 hmake)
      unfold Action.after
      rw [Action.bind_of_error hnode]
      exact .refl
    cases command with
    | expand | collapse | toggle | focus | jump | details => exact onNone he
    | report => exact .refl
    | refuse text => exact .refl
    | _ => cases he

/-- What is told of a command that was tried is one more note. -/
theorem moves_relay {x : SessionM Reply} (hx : Moves s (x.after s)) :
    Moves s ((relay x).after s) := by
  unfold Action.after at hx ⊢
  cases hact : x s with
  | ok reply t =>
    rw [hact] at hx
    rw [relay_ok hact]
    exact hx
  | error e t =>
    rw [hact] at hx
    rw [relay_error hact]
    cases e with
    | refused reason => exact hx.tail (.journal t _)
    | missing what => exact hx.tail (.journal t _)
    | _ => exact hx

theorem moves_run (h : s.Sound) (kind : Option Text) :
    Moves s ((run commands name row kind).after s) := by
  have note (journal : Journal) : Moves s { s with journal := journal } := .single (.journal s _)
  cases hb : commands.bindings.get? name with
  | none =>
    unfold Action.after
    rw [run_of_unbound hb]
    exact note _
  | some binding =>
    cases hrow : binding.needsRow && row.isNone with
    | true =>
      unfold Action.after
      rw [run_of_rowless hb hrow]
      exact note _
    | false =>
      cases hk : kindFor commands kind with
      | error e =>
        unfold Action.after
        rw [(run_of_unknownKind hb hrow hk).1]
        exact .refl
      | ok k =>
        have hrun := run_of_bound (s := s) hb hrow hk
        cases hid : s.registry.get? k with
        | none =>
          rw [hid] at hrun
          unfold Action.after
          rw [hrun]
          exact note _
        | some id =>
          rw [hid] at hrun
          have hcarry : Moves s ((carryOut binding.command id row).after s) :=
            moves_carryOut h (isOpen_of_recent h hid)
          have hrelay := moves_relay hcarry
          unfold Action.after at hrelay ⊢
          rw [hrun]
          exact hrelay

/-- After a turn a session has done some moves, or an outcome has arrived, or time has gone by. -/
theorem Sound.turn_cases (h : s.Sound) (turn : Turn) : Moves s (turn.act.after s) ∨
    (∃ i outcome request, s.sent[i]? = some request ∧ request.isOpen ∧
      turn.act.after s = s.arrived i request outcome) ∨
    ∃ now, turn.act.after s = s.ticked now := by
  cases turn with
  | event event =>
    have hafter : (Turn.event event).act.after s = s.step event := Action.after_returns ..
    rw [hafter]
    rcases h.step_cases event with hm | ⟨i, outcome, request, -, hr, ho, he⟩ | ⟨now, -, he⟩
    · exact .inl hm
    · exact .inr (.inl ⟨i, outcome, request, hr, ho, he⟩)
    · exact .inr (.inr ⟨now, he⟩)
  | command commands name row kind =>
    have hafter : (Turn.command commands name row kind).act.after s =
        (run commands name row kind).after s := Action.after_returns ..
    rw [hafter]
    exact .inl (moves_run h kind)

theorem Sound.moves_induction {P : Session → Prop} (hs : s.Sound) (h : P s)
    (move : ∀ t u, t.Sound → P t → Move t u → P u) (hm : Moves s t) : t.Sound ∧ P t := by
  induction hm with
  | refl => exact ⟨hs, h⟩
  | tail _ hmove ih => exact ⟨ih.1.move hmove, move _ _ ih.1 ih.2 hmove⟩

/-- **What moves, arrivals and time keep, every play keeps.** -/
theorem play_induction {P : Session → Prop} (hs : s.Sound) (h : P s)
    (move : ∀ t u, t.Sound → P t → Move t u → P u)
    (arrival : ∀ t i request outcome, P t → t.sent[i]? = some request → request.isOpen →
      P (t.arrived i request outcome))
    (tick : ∀ t now, P t → P (t.ticked now)) (turns : List Turn) :
    (s.play turns).Sound ∧ P (s.play turns) := by
  -- The session varies, for the rest is played from where the first turn leads.
  induction turns generalizing s with
  | nil => exact ⟨hs, h⟩
  | cons turn rest ih =>
    have hfirst : (turn.act.after s).Sound ∧ P (turn.act.after s) := by
      rcases hs.turn_cases turn with hm | ⟨i, outcome, request, hr, ho, he⟩ | ⟨now, he⟩
      · exact hs.moves_induction h move hm
      · rw [he]
        exact ⟨hs.arrived outcome hr ho, arrival s i request outcome h hr ho⟩
      · rw [he]
        exact ⟨hs.ticked now, tick s now h⟩
    exact ih hfirst.1 hfirst.2

/-- Rows are drawn in one style as long as a session lasts. -/
theorem Move.style_eq (hm : Move s t) : t.style = s.style := by
  cases hm with
  | giveUp | fail =>
    simp only [givenUp, failed]
    split <;> rfl
  | _ => rfl

theorem style_play (hs : s.Sound) (turns : List Turn) : (s.play turns).style = s.style :=
  (play_induction (P := fun t => t.style = s.style) hs rfl
    (fun _ _ _ h hm => hm.style_eq.trans h) (fun _ _ _ _ h _ _ => h) (fun _ _ h => h) turns).2

end Session

end SymbolTrees
