import Mathlib.Data.List.Forall2
import SymbolTrees.Fault

/-!
# Rules for actions

How an action ends is told from how its parts end. An action that stops early keeps what it did
until then, so every rule speaks of both ends.
-/

namespace SymbolTrees

/-- A reading that succeeds has read its parts. -/
theorem Except.of_bind {ε α β : Type} {x : Except ε α} {f : α → Except ε β} {b : β}
    (h : (x >>= f) = .ok b) : ∃ a, x = .ok a ∧ f a = .ok b := by
  cases x with
  | error e => cases h
  | ok a => exact ⟨a, rfl, h⟩

/-- A reading that fails has failed to read one of its parts. -/
theorem Except.of_bind_error {ε α β : Type} {x : Except ε α} {f : α → Except ε β} {e : ε}
    (h : (x >>= f) = .error e) : x = .error e ∨ ∃ a, x = .ok a ∧ f a = .error e := by
  cases x with
  | error reason => exact .inl (congrArg _ (Except.error.inj h))
  | ok a => exact .inr ⟨a, rfl, h⟩

/-- A list that was read was read entry by entry. -/
theorem Except.of_mapM {ε α β : Type} {f : α → Except ε β} {xs : List α} {ys : List β}
    (h : xs.mapM f = .ok ys) : List.Forall₂ (fun x y => f x = .ok y) xs ys := by
  induction xs generalizing ys with
  | nil =>
    rw [List.mapM_nil] at h
    obtain rfl := Except.ok.inj h
    exact .nil
  | cons x xs ih =>
    rw [List.mapM_cons] at h
    obtain ⟨y, hy, h⟩ := Except.of_bind h
    obtain ⟨ys', hys, h⟩ := Except.of_bind h
    obtain rfl := Except.ok.inj h
    exact .cons hy (ih hys)

/-- A list is read if every entry is. -/
theorem Except.mapM_of_forall₂ {ε α β : Type} {f : α → Except ε β} {xs : List α} {ys : List β}
    (h : List.Forall₂ (fun x y => f x = .ok y) xs ys) : xs.mapM f = .ok ys := by
  induction h with
  | nil => rfl
  | cons hx _ ih =>
    rw [List.mapM_cons, hx, ih]
    rfl

theorem Except.mem_of_mapM {ε α β : Type} {f : α → Except ε β} {xs : List α} {ys : List β}
    (h : xs.mapM f = .ok ys) {y : β} (hy : y ∈ ys) : ∃ x ∈ xs, f x = .ok y := by
  have hf := Except.of_mapM h
  clear h
  induction hf with
  | nil => cases hy
  | cons hx _ ih =>
    rcases List.mem_cons.1 hy with rfl | hy
    · exact ⟨_, List.mem_cons_self, hx⟩
    · obtain ⟨x, hm, he⟩ := ih hy
      exact ⟨x, List.mem_cons_of_mem _ hm, he⟩

theorem Except.exists_of_mapM {ε α β : Type} {f : α → Except ε β} {xs : List α} {ys : List β}
    (h : xs.mapM f = .ok ys) {x : α} (hx : x ∈ xs) : ∃ y ∈ ys, f x = .ok y := by
  have hf := Except.of_mapM h
  clear h
  induction hf with
  | nil => cases hx
  | cons hhead _ ih =>
    rcases List.mem_cons.1 hx with rfl | hx
    · exact ⟨_, List.mem_cons_self, hhead⟩
    · obtain ⟨y, hm, he⟩ := ih hx
      exact ⟨y, List.mem_cons_of_mem _ hm, he⟩

/-- A list that was not read has an entry that was not. -/
theorem Except.of_mapM_error {ε α β : Type} {f : α → Except ε β} {xs : List α} {e : ε}
    (h : xs.mapM f = .error e) : ∃ x ∈ xs, f x = .error e := by
  induction xs with
  | nil =>
    rw [List.mapM_nil] at h
    cases h
  | cons x xs ih =>
    rw [List.mapM_cons] at h
    rcases Except.of_bind_error h with h | ⟨y, -, h⟩
    · exact ⟨x, List.mem_cons_self, h⟩
    · rcases Except.of_bind_error h with h | ⟨ys, -, h⟩
      · obtain ⟨x', hm, he⟩ := ih h
        exact ⟨x', List.mem_cons_of_mem _ hm, he⟩
      · cases h

/-- A reading as part of an operation. -/
theorem Except.of_mapError {ε δ α : Type} {g : ε → δ} {x : Except ε α} {a : α}
    (h : x.mapError g = .ok a) : x = .ok a := by
  cases x with
  | error e => cases h
  | ok b => exact congrArg _ (Except.ok.inj h)

namespace Action

variable {σ α β : Type}

/-- From `s` the action ends in `Q`, or stops early in `E`. -/
def Ends (x : Action σ α) (s : σ) (Q : α → σ → Prop) (E : Fault → σ → Prop) : Prop :=
  match x s with
  | .ok a t => Q a t
  | .error e t => E e t

variable {s : σ} {E : Fault → σ → Prop}

theorem bind_of_ok {x : Action σ α} {f : α → Action σ β} {a : α} {t : σ} (h : x s = .ok a t) :
    (x >>= f) s = f a t := by
  change EStateM.bind x f s = _
  rw [EStateM.bind, h]

theorem bind_of_error {x : Action σ α} {f : α → Action σ β} {e : Fault} {t : σ}
    (h : x s = .error e t) : (x >>= f) s = .error e t := by
  change EStateM.bind x f s = _
  rw [EStateM.bind, h]

theorem Ends.mono {x : Action σ α} {Q R : α → σ → Prop} {F : Fault → σ → Prop}
    (h : x.Ends s Q E) (hQ : ∀ a t, Q a t → R a t) (hE : ∀ e t, E e t → F e t) : x.Ends s R F := by
  unfold Ends at h ⊢
  cases hx : x s with
  | ok a t =>
    rw [hx] at h
    exact hQ a t h
  | error e t =>
    rw [hx] at h
    exact hE e t h

/-- All that is said of one run holds of it. -/
theorem Ends.and {x : Action σ α} {Q R : α → σ → Prop} {F : Fault → σ → Prop} (h : x.Ends s Q E)
    (h' : x.Ends s R F) : x.Ends s (fun a t => Q a t ∧ R a t) fun e t => E e t ∧ F e t := by
  unfold Ends at h h' ⊢
  cases hx : x s with
  | ok a t =>
    rw [hx] at h h'
    exact ⟨h, h'⟩
  | error e t =>
    rw [hx] at h h'
    exact ⟨h, h'⟩

theorem Ends.forall {ι : Type} {x : Action σ α} {Q : ι → α → σ → Prop} {F : ι → Fault → σ → Prop}
    (h : ∀ i, x.Ends s (Q i) (F i)) :
    x.Ends s (fun a t => ∀ i, Q i a t) fun e t => ∀ i, F i e t := by
  unfold Ends at h ⊢
  cases hx : x s <;> rw [hx] at h <;> exact h

theorem Ends.bind {x : Action σ α} {f : α → Action σ β} {Q : β → σ → Prop}
    (h : x.Ends s (fun a t => (f a).Ends t Q E) E) : (x >>= f).Ends s Q E := by
  unfold Ends at h ⊢
  cases hx : x s with
  | ok a t =>
    rw [hx] at h
    rw [bind_of_ok hx]
    exact h
  | error e t =>
    rw [hx] at h
    rw [bind_of_error hx]
    exact h

theorem Ends.pure {a : α} {Q : α → σ → Prop} (h : Q a s) :
    (Pure.pure a : Action σ α).Ends s Q E := h

theorem Ends.throw {e : Fault} {Q : α → σ → Prop} (h : E e s) :
    (MonadExcept.throw e : Action σ α).Ends s Q E := h

theorem Ends.get {Q : σ → σ → Prop} (h : Q s s) : (MonadState.get : Action σ σ).Ends s Q E := h

theorem Ends.modify {g : σ → σ} {Q : Unit → σ → Prop} (h : Q () (g s)) :
    (modify g : Action σ Unit).Ends s Q E := h

theorem Ends.lift {a : α} {Q : α → σ → Prop} (h : Q a s) :
    (liftM (.ok a : Except Fault α) : Action σ α).Ends s Q E := h

/-- One after another: `I` tells what holds while the rest is still to come. -/
theorem Ends.forM {f : α → Action σ PUnit} {I : List α → σ → Prop} {xs : List α}
    (h : ∀ x rest t, I (x :: rest) t → (f x).Ends t (fun _ u => I rest u) E) (hs : I xs s) :
    (xs.forM f).Ends s (fun _ t => I [] t) E := by
  induction xs generalizing s with
  | nil => exact .pure hs
  | cons x xs ih => exact .bind ((h x xs s hs).mono (fun _ _ ht => ih ht) fun _ _ he => he)

/-- A reading either goes on with what it has read or stops where it is. -/
theorem Ends.bindRead {x : Except Malformed α} {f : α → Action σ β} {Q : β → σ → Prop}
    (hok : ∀ a, x = .ok a → (f a).Ends s Q E) (herr : ∀ e, x = .error e → E (.malformed e) s) :
    (liftM x >>= f).Ends s Q E := by
  cases x with
  | ok a => exact hok a rfl
  | error e => exact herr e rfl

theorem Ends.bindFault {x : Except Fault α} {f : α → Action σ β} {Q : β → σ → Prop}
    (hok : ∀ a, x = .ok a → (f a).Ends s Q E) (herr : ∀ e, x = .error e → E e s) :
    (liftM x >>= f).Ends s Q E := by
  cases x with
  | ok a => exact hok a rfl
  | error e => exact herr e rfl

/-- What is said of the end holds where the action ended. -/
theorem Ends.of_ok {x : Action σ α} {a : α} {t : σ} {Q : α → σ → Prop} (h : x.Ends s Q E)
    (hx : x s = .ok a t) : Q a t := by
  unfold Ends at h
  rw [hx] at h
  exact h

/-- What cannot stop early comes to its end. -/
theorem Ends.exists_ok {x : Action σ α} {Q : α → σ → Prop} (h : x.Ends s Q fun _ _ => False) :
    ∃ a t, x s = .ok a t ∧ Q a t := by
  unfold Ends at h
  split at h
  · rename_i a t hx
    exact ⟨a, t, hx, h⟩
  · exact h.elim

/-- What is said of the end determines the end. -/
theorem Ends.eq_ok {x : Action σ α} {a : α} {t : σ}
    (h : x.Ends s (fun b u => b = a ∧ u = t) fun _ _ => False) : x s = .ok a t := by
  unfold Ends at h
  split at h
  · rename_i hx
    obtain ⟨rfl, rfl⟩ := h
    exact hx
  · exact h.elim

theorem Ends.eq_error {x : Action σ α} {e : Fault} {t : σ}
    (h : x.Ends s (fun _ _ => False) fun f u => f = e ∧ u = t) : x s = .error e t := by
  unfold Ends at h
  split at h
  · exact h.elim
  · rename_i hx
    obtain ⟨rfl, rfl⟩ := h
    exact hx

/-! ### Two runs -/

/-- From `s` and `t` the two actions end alike: with one answer in `Q`, or stopped by one fault in
`E`. -/
def Pair (x y : Action σ α) (s t : σ) (Q : α → σ → σ → Prop) (E : σ → σ → Prop) : Prop :=
  match x s, y t with
  | .ok a s', .ok b t' => a = b ∧ Q a s' t'
  | .error e s', .error f t' => e = f ∧ E s' t'
  | _, _ => False

variable {t : σ} {F : σ → σ → Prop}

theorem Pair.mono {x y : Action σ α} {Q R : α → σ → σ → Prop} {G : σ → σ → Prop}
    (h : Pair x y s t Q F) (hQ : ∀ a s' t', Q a s' t' → R a s' t')
    (hF : ∀ s' t', F s' t' → G s' t') : Pair x y s t R G := by
  unfold Pair at h ⊢
  cases hx : x s <;> cases hy : y t <;> rw [hx, hy] at h
  · exact ⟨h.1, hQ _ _ _ h.2⟩
  · exact h
  · exact h
  · exact ⟨h.1, hF _ _ h.2⟩

theorem Pair.bind {x y : Action σ α} {f g : α → Action σ β} {Q : α → σ → σ → Prop}
    {R : β → σ → σ → Prop} (h : Pair x y s t Q F)
    (hf : ∀ a s' t', Q a s' t' → Pair (f a) (g a) s' t' R F) :
    Pair (x >>= f) (y >>= g) s t R F := by
  have hb (z : Action σ α) (k : α → Action σ β) (u : σ) : (z >>= k) u = EStateM.bind z k u := rfl
  unfold Pair at h ⊢
  rw [hb, hb, EStateM.bind, EStateM.bind]
  cases hx : x s <;> cases hy : y t <;> rw [hx, hy] at h
  · obtain ⟨rfl, h⟩ := h
    exact hf _ _ _ h
  · exact h.elim
  · exact h.elim
  · exact h

/-- The first action may stop early in a way of its own. -/
theorem Pair.seq {x y : Action σ α} {f g : α → Action σ β} {Q : α → σ → σ → Prop}
    {R : β → σ → σ → Prop} {G : σ → σ → Prop} (h : Pair x y s t Q G)
    (hG : ∀ s' t', G s' t' → F s' t') (hf : ∀ a s' t', Q a s' t' → Pair (f a) (g a) s' t' R F) :
    Pair (x >>= f) (y >>= g) s t R F :=
  (h.mono (fun _ _ _ h => h) hG).bind hf

theorem Pair.pure {a : α} {Q : α → σ → σ → Prop} (h : Q a s t) :
    Pair (Pure.pure a) (Pure.pure a) s t Q F := ⟨rfl, h⟩

/-- Two runs that are known. -/
theorem Pair.ok {x y : Action σ α} {a : α} {s' t' : σ} {Q : α → σ → σ → Prop}
    (hx : x s = .ok a s') (hy : y t = .ok a t') (h : Q a s' t') : Pair x y s t Q F := by
  unfold Pair
  rw [hx, hy]
  exact ⟨rfl, h⟩

theorem Pair.get {f g : σ → Action σ β} {R : β → σ → σ → Prop} (h : Pair (f s) (g t) s t R F) :
    Pair (MonadState.get >>= f) (MonadState.get >>= g) s t R F := h

theorem Pair.modify {f g : σ → σ} {Q : Unit → σ → σ → Prop} (h : Q () (f s) (g t)) :
    Pair (modify f) (modify g) s t Q F := ⟨rfl, h⟩

/-- What the first run does before the second one goes on. -/
theorem Pair.left {γ : Type} {x : Action σ γ} {f : γ → Action σ α} {y : Action σ α}
    {P : γ → σ → Prop} {Q : α → σ → σ → Prop} (hx : x.Ends s P fun _ _ => False)
    (hf : ∀ a s', P a s' → Pair (f a) y s' t Q F) : Pair (x >>= f) y s t Q F := by
  have hb : (x >>= f) s = EStateM.bind x f s := rfl
  unfold Ends at hx
  unfold Pair at hf ⊢
  rw [hb, EStateM.bind]
  cases hxs : x s with
  | ok a s' =>
    rw [hxs] at hx
    exact hf a s' hx
  | error e s' =>
    rw [hxs] at hx
    exact hx.elim

theorem Pair.getLeft {f : σ → Action σ α} {y : Action σ α} {Q : α → σ → σ → Prop}
    (h : Pair (f s) y s t Q F) : Pair (MonadState.get >>= f) y s t Q F := h

theorem Pair.modifyLeft {g : σ → σ} {f : Unit → Action σ α} {y : Action σ α}
    {Q : α → σ → σ → Prop} (h : Pair (f ()) y (g s) t Q F) :
    Pair (MonadStateOf.modifyGet (fun u => ((), g u)) >>= f) y s t Q F := h

theorem Pair.symm {x y : Action σ α} {Q : α → σ → σ → Prop} (h : Pair x y s t Q F) :
    Pair y x t s (fun a t' s' => Q a s' t') fun t' s' => F s' t' := by
  unfold Pair at h ⊢
  cases hx : x s <;> cases hy : y t <;> rw [hx, hy] at h
  · exact ⟨h.1.symm, h.1 ▸ h.2⟩
  · exact h
  · exact h
  · exact ⟨h.1.symm, h.2⟩

/-- Two actions that cannot stop early and have one answer. -/
theorem Pair.of_ends {x y : Action σ α} {Q R : α → σ → Prop}
    (hx : x.Ends s Q fun _ _ => False) (hy : y.Ends t R fun _ _ => False)
    (he : ∀ a b s' t', Q a s' → R b t' → a = b) :
    Pair x y s t (fun a s' t' => Q a s' ∧ R a t') F := by
  unfold Ends at hx hy
  unfold Pair
  cases hxs : x s <;> cases hyt : y t <;> rw [hxs] at hx <;> rw [hyt] at hy
  · obtain rfl := he _ _ _ _ hx hy
    exact ⟨rfl, hx, hy⟩
  · exact hy.elim
  · exact hx.elim
  · exact hx.elim

/-- What follows a change starts from the changed states. -/
theorem Pair.modifyBind {f g : σ → σ} {k l : Unit → Action σ β} {R : β → σ → σ → Prop}
    (h : Pair (k ()) (l ()) (f s) (g t) R F) :
    Pair (MonadStateOf.modifyGet (fun u => ((), f u)) >>= k)
      (MonadStateOf.modifyGet (fun u => ((), g u)) >>= l) s t R F := h

/-- A reading does not touch the state. -/
theorem Pair.lift {x : Except Malformed α} {Q : α → σ → σ → Prop} (hok : ∀ a, x = .ok a → Q a s t)
    (herr : ∀ e, x = .error e → F s t) : Pair (liftM x) (liftM x) s t Q F := by
  cases x with
  | ok a => exact ⟨rfl, hok a rfl⟩
  | error e => exact ⟨rfl, herr e rfl⟩

theorem Pair.bindLift {x : Except Malformed α} {f g : α → Action σ β} {R : β → σ → σ → Prop}
    (hok : ∀ a, x = .ok a → Pair (f a) (g a) s t R F) (herr : ∀ e, x = .error e → F s t) :
    Pair (liftM x >>= f) (liftM x >>= g) s t R F := by
  cases x with
  | ok a => exact hok a rfl
  | error e => exact ⟨rfl, herr e rfl⟩

theorem Pair.liftFault {x : Except Fault α} {Q : α → σ → σ → Prop} (hok : ∀ a, x = .ok a → Q a s t)
    (herr : ∀ e, x = .error e → F s t) : Pair (liftM x) (liftM x) s t Q F := by
  cases x with
  | ok a => exact ⟨rfl, hok a rfl⟩
  | error e => exact ⟨rfl, herr e rfl⟩

end Action

end SymbolTrees
