import SymbolTrees.Proofs.Session.Economy

/-!
# What is never refused

What has arrived is applied and what is entered is sent without a look at what was asked for. So in
every state of a session, also in one with trees that no operation has made, a pump stops at most
because something cannot be read.
-/

namespace SymbolTrees.Session

open SymbolTrees.Server (Outcome Request)

variable {s t : Session} {id : TreeId} {α β : Type}

/-- In whatever state it is begun, it does not stop because something is refused or is not there. -/
def Steadfast (x : SessionM α) : Prop := ∀ s, x.Ends s (fun _ _ => True) Firm

namespace Steadfast

theorem pure (a : α) : Steadfast (Pure.pure a) := fun _ => .pure trivial

theorem modify (f : Session → Session) : Steadfast (modify f) := fun _ => .modify trivial

theorem bind {x : SessionM α} {f : α → SessionM β} (hx : Steadfast x)
    (hf : ∀ a, Steadfast (f a)) : Steadfast (x >>= f) :=
  fun s => .bind ((hx s).mono (fun a t _ => hf a t) fun _ _ h => h)

theorem get {f : Session → SessionM α} (hf : ∀ s, Steadfast (f s)) :
    Steadfast (MonadState.get >>= f) :=
  fun s => .bind (.get (hf s s))

/-- A reading stops at most for what cannot be read. -/
theorem read {x : Except Malformed α} {f : α → SessionM β} (hf : ∀ a, Steadfast (f a)) :
    Steadfast (liftM x >>= f) :=
  fun s => .bindRead (fun a _ => hf a s) fun _ _ => rfl

theorem forM {f : α → SessionM PUnit} (hf : ∀ a, Steadfast (f a)) (xs : List α) :
    Steadfast (xs.forM f) := by
  induction xs with
  | nil => exact .pure _
  | cons x xs ih => exact .bind (hf x) fun _ => ih

theorem mapM {f : α → SessionM β} (hf : ∀ a, Steadfast (f a)) (xs : List α) :
    Steadfast (xs.mapM f) := by
  induction xs with
  | nil =>
    rw [List.mapM_nil]
    exact .pure _
  | cons x xs ih =>
    rw [List.mapM_cons]
    exact .bind (hf x) fun _ => .bind ih fun _ => .pure _

theorem filterMapM {f : α → SessionM (Option β)} (hf : ∀ a, Steadfast (f a)) (xs : List α) :
    Steadfast (xs.filterMapM f) := by
  induction xs with
  | nil => exact .pure _
  | cons x xs ih =>
    rw [List.filterMapM_cons]
    refine .bind (hf x) fun a => ?_
    cases a with
    | none => exact ih
    | some b => exact .bind ih fun _ => .pure _

end Steadfast

/-! ### What has arrived -/

theorem firm_render (ho : s.isOpen id) : (render id).Ends s (fun _ _ => True) Firm :=
  (ends_render ho).mono (fun _ _ _ => trivial) fun _ _ he => he.2.1.not_isRejection

/-- What is below a node is asked for. That the node cannot be asked for turns out at once. -/
theorem ends_asking (id : TreeId) (ref : NodeRef) : (askChildren id ref none).Ends s
    (fun _ t => ∀ other, t.isOpen other = s.isOpen other) fun e t => e.isRejection = false ∨
      t = s ∧ ((s.tree id).direction.calls? = none ∨ (s.node ref).payload.callItem? = none) := by
  unfold askChildren
  refine .bind (.get ?_)
  simp only [Option.getD_none]
  cases hd : (s.tree id).direction.calls? with
  | none => exact .throw (.inr ⟨rfl, .inl rfl⟩)
  | some direction =>
    cases hi : (s.node ref).payload.callItem? with
    | none => exact .throw (.inr ⟨rfl, .inr rfl⟩)
    | some item =>
      dsimp only
      split
      · exact .pure fun _ => rfl
      · refine .bind (ends_newToken (.bind (.modify (.bind ((ends_enter _ _).mono ?_ ?_)))))
        · rintro _ _ ⟨deadline, -, rfl⟩
          refine .bind ((ends_send _ _ _).mono ?_ fun _ _ he => .inl he.2.1.not_isRejection)
          rintro _ _ rfl
          exact .pure fun _ => Registry.isOpen_updateNode
        · rintro _ _ ⟨-, reason, rfl, -⟩
          exact .inl rfl

/-- The tree is an open tree of calls, and its root can be asked for. -/
structure Upright (s : Session) (id : TreeId) : Prop where
  isOpen : s.isOpen id
  isCalls : (s.tree id).direction.calls? ≠ none
  hasItem : (s.tree id).root.payload.callItem? ≠ none

/-- The root of such a tree is asked for, and the tree is drawn. -/
theorem Upright.asks (h : s.Upright id) {f : Option Token → α} : Action.Ends (do
    let token ← askChildren id (s.rootOf id) none
    let _ ← render id
    Pure.pure (f token)) s (fun _ _ => True) Firm := by
  refine .bind ((ends_asking id _).mono (fun token t ho => ?_) fun e t he => ?_)
  · exact .bind ((firm_render ((ho id).trans h.isOpen)).mono (fun _ _ h => .pure h) fun _ _ h => h)
  · rcases he with he | ⟨-, hd | hi⟩
    · exact he
    · exact absurd hd h.isCalls
    · exact absurd hi h.hasItem

/-! ### New trees -/

end SymbolTrees.Session
