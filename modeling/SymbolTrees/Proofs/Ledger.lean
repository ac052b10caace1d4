import SymbolTrees.Proofs.Session.Run
import SymbolTrees.Proofs.Slots

/-!
# Operations on a registry, on record

What is asked of a registry and what it answers goes on record. Every tree on record has a handle of
its own: one that was given out, and to no other tree.
-/

namespace SymbolTrees

theorem Direction.eq_of_flip {d e : Direction} (h : d.flip = .ok e) :
    ∃ c, d = .calls c ∧ e = .calls c.flip := by
  cases d with
  | calls c => exact ⟨c, rfl, (Except.ok.inj h).symm⟩
  | outline => cases h
  | unknown name => cases h

namespace Registry

/-- What is asked of a registry, and what happens meanwhile to the trees that it may hold. -/
inductive Operation where
  | newHandle
  /-- A tree is made. It is not open yet. -/
  | build (handle : Int) (root : Node) (direction : Direction) (uri : Option Text)
  /-- A tree of calls is turned to the other direction. -/
  | turn (id : TreeId)
  | put (id : TreeId)
  | close (handle : Int)
  | setHidden (handle : Int) (hidden : Bool)
  | lookup (handle : Int)

inductive Answer where
  | handle (handle : Int)
  | tree (id : TreeId)
  /-- A tree of this kind was put. -/
  | kind (kind : TreeKind)

def Operation.act : Operation → RegistryM Answer
  | .newHandle => return .handle (← Registry.newHandle)
  | .build handle root direction uri => do
    let t ← (Tree.make handle root direction uri : Except Fault _)
    return .tree (← plant t)
  | .turn id => do
    let direction ← ((← get).tree id).direction.flip
    modify fun r => r.update id fun t => { t with direction := direction }
    return .tree id
  | .put id => return .kind (← Registry.put id)
  | .close handle => return .tree (← Registry.close handle).1
  | .setHidden handle hidden => return .tree (← Registry.setHidden handle hidden)
  | .lookup handle => return .tree (← Registry.lookup handle)

/-- An operation on record, with what was answered. -/
structure Entry where
  operation : Operation
  answer : Except Fault Answer

/-- A tree is made with a handle of its own: one that was given out and that no other tree got. -/
def Operation.Proper (past : List Entry) : Operation → Prop
  | .build handle .. => ⟨.newHandle, .ok (.handle handle)⟩ ∈ past ∧
    ∀ root direction uri id, ⟨.build handle root direction uri, .ok (.tree id)⟩ ∉ past
  | _ => True

/-- What became of the empty registry by the operations on record. -/
inductive History : List Entry → Registry → Prop
  | start : History [] empty
  | next {past : List Entry} {r : Registry} (h : History past r) (operation : Operation)
      (proper : operation.Proper past) :
      History (past ++ [⟨operation, operation.act.answer r⟩]) (operation.act.after r)

/-! ### What an operation comes to -/

/-- The answer to an operation, and the registry after it. An operation that fails does nothing. -/
inductive Comes (r : Registry) : Operation → Except Fault Answer → Registry → Prop
  | issued : Comes r .newHandle (.ok (.handle r.nextHandle))
      { r with nextHandle := r.nextHandle + 1 }
  | built {handle : Int} {root : Node} {direction : Direction} {uri : Option Text} {t : Tree}
      (made : Tree.make handle root direction uri = .ok t) :
      Comes r (.build handle root direction uri) (.ok (.tree r.trees.length))
        { r with trees := r.trees ++ [t] }
  | turned {id : TreeId} {direction : CallDirection}
      (was : (r.tree id).direction = .calls direction) :
      Comes r (.turn id) (.ok (.tree id))
        (r.update id fun t => { t with direction := .calls direction.flip })
  | opened {id : TreeId} {kind : TreeKind} (fresh : (r.tree id).closed = false)
      (known : (r.tree id).direction.kind? = some kind) :
      Comes r (.put id) (.ok (.kind kind)) (r.opening id kind)
  | closed {handle : Int} {id : TreeId} {kind : TreeKind} (slot : r.slots.get? handle = some id)
      (known : (r.tree id).direction.kind? = some kind) :
      Comes r (.close handle) (.ok (.tree id)) (r.without handle id kind)
  | hid {handle : Int} {id : TreeId} (hidden : Bool) (slot : r.slots.get? handle = some id) :
      Comes r (.setHidden handle hidden) (.ok (.tree id))
        (r.update id fun t => { t with hidden := hidden })
  | found {handle : Int} {id : TreeId} (slot : r.slots.get? handle = some id) :
      Comes r (.lookup handle) (.ok (.tree id)) r
  | failed {operation : Operation} (e : Fault) (refusable : operation ≠ .newHandle) :
      Comes r operation (.error e) r

section Operations

variable {r : Registry} {E : Fault → Registry → Prop} {handle : Int}

theorem ends_lookup {Q : TreeId → Registry → Prop}
    (hok : ∀ id, r.slots.get? handle = some id → Q id r)
    (herr : r.slots.get? handle = none → E (Missing.openTree handle).fault r) :
    (lookup handle).Ends r Q E := by
  unfold lookup
  refine .bind (.get ?_)
  cases hs : r.slots.get? handle with
  | none => exact .throw (herr hs)
  | some id => exact .pure (hok id hs)

theorem ends_opening {id : TreeId} (hd : (r.tree id).direction.kind?.isSome) :
    (put id).Ends r (fun kind q => (r.tree id).closed = false ∧
      (r.tree id).direction.kind? = some kind ∧ q = r.opening id kind) fun _ q => q = r := by
  obtain ⟨kind, hk⟩ := Option.isSome_iff_exists.1 hd
  cases hc : (r.tree id).closed with
  | true =>
    unfold put
    refine .bind (.get ?_)
    dsimp only
    rw [hc]
    exact .bind (.throw rfl)
  | false =>
    refine (ends_put hc hk).mono ?_ fun _ _ h => h.elim
    rintro _ _ ⟨rfl, rfl⟩
    exact ⟨rfl, hk, rfl⟩

theorem ends_closing (hd : ∀ id, (r.tree id).direction.kind?.isSome) :
    (close handle).Ends r (fun p q => r.slots.get? handle = some p.1 ∧
      (r.tree p.1).direction.kind? = some p.2 ∧ q = r.without handle p.1 p.2) fun _ q => q = r := by
  cases hs : r.slots.get? handle with
  | none =>
    unfold close
    exact .bind (ends_lookup (fun id h => by cases hs.symm.trans h) fun _ => rfl)
  | some id =>
    obtain ⟨kind, hk⟩ := Option.isSome_iff_exists.1 (hd id)
    refine (ends_close hs hk).mono ?_ fun _ _ h => h.elim
    rintro _ _ ⟨rfl, rfl⟩
    exact ⟨rfl, hk, rfl⟩

/-- **What an operation comes to**, where the direction of every tree is known. -/
theorem comes (hd : ∀ id, (r.tree id).direction.kind?.isSome) (operation : Operation) :
    Comes r operation (operation.act.answer r) (operation.act.after r) := by
  apply Action.Ends.told
  cases operation with
  | newHandle => exact .issued
  | build handle root direction uri =>
    exact .bindFault (fun t ht => .built ht) fun e _ => .failed e nofun
  | turn id =>
    refine .bind (.get (.bindFault ?_ fun e _ => .failed e nofun))
    intro direction hdirection
    obtain ⟨c, hc, rfl⟩ := Direction.eq_of_flip hdirection
    exact .bind (.modify (.pure (.turned hc)))
  | put id =>
    refine .bind ((ends_opening (hd id)).mono ?_ ?_)
    · rintro kind _ ⟨hc, hk, rfl⟩
      exact .pure (.opened hc hk)
    · rintro e _ rfl
      exact .failed e nofun
  | close handle =>
    refine .bind ((ends_closing hd).mono ?_ ?_)
    · rintro ⟨id, kind⟩ _ ⟨hs, hk, rfl⟩
      exact .pure (.closed hs hk)
    · rintro e _ rfl
      exact .failed e nofun
  | setHidden handle hidden =>
    refine .bind (.bind (ends_lookup (fun id hs => ?_) fun _ => .failed _ nofun))
    exact .bind (.modify (.pure (.pure (.hid hidden hs))))
  | lookup handle =>
    exact .bind (ends_lookup (fun id hs => .pure (.found hs)) fun _ => .failed _ nofun)

end Operations

/-! ### What is on record -/

/-- The handle that was given out. -/
def Entry.handle? : Entry → Option Int
  | ⟨.newHandle, .ok (.handle handle)⟩ => some handle
  | _ => none

def Entry.Puts (id : TreeId) (entry : Entry) : Prop := ∃ kind, entry = ⟨.put id, .ok (.kind kind)⟩

def Entry.PutsOf (kind : TreeKind) (entry : Entry) : Prop :=
  ∃ id, entry = ⟨.put id, .ok (.kind kind)⟩

def Entry.Closes (id : TreeId) (entry : Entry) : Prop :=
  ∃ handle, entry = ⟨.close handle, .ok (.tree id)⟩

/-- Something of `P` was done, and nothing of `Q` since. -/
def Since (P Q : Entry → Prop) (past : List Entry) : Prop :=
  ∃ before entry after, past = before ++ entry :: after ∧ P entry ∧ ∀ later ∈ after, ¬Q later

/-- The tree was put and not closed since. -/
def Held (past : List Entry) (id : TreeId) : Prop := Since (Entry.Puts id) (Entry.Closes id) past

/-- Of all trees of the kind this one was put last. -/
def Latest (past : List Entry) (kind : TreeKind) (id : TreeId) : Prop :=
  Since (· = ⟨.put id, .ok (.kind kind)⟩) (Entry.PutsOf kind) past

section Record

variable {P Q : Entry → Prop} {past : List Entry} {entry : Entry}

theorem not_since_nil : ¬Since P Q [] := by
  rintro ⟨before, entry, after, he, -⟩
  exact absurd he.symm (by simp)

theorem since_concat : Since P Q (past ++ [entry]) ↔ P entry ∨ Since P Q past ∧ ¬Q entry := by
  constructor
  · rintro ⟨before, first, after, he, hp, hq⟩
    rcases List.eq_nil_or_concat after with rfl | ⟨after, last, rfl⟩
    · obtain ⟨-, rfl⟩ := List.append_singleton_inj.1 he
      exact .inl hp
    · have he' : past ++ [entry] = (before ++ first :: after) ++ [last] := by simpa using he
      obtain ⟨rfl, rfl⟩ := List.append_singleton_inj.1 he'
      exact .inr ⟨⟨before, first, after, rfl, hp, fun e h => hq e (by simp [h])⟩, hq _ (by simp)⟩
  · rintro (hp | ⟨⟨before, first, after, rfl, hp, hq⟩, hn⟩)
    · exact ⟨past, entry, [], rfl, hp, nofun⟩
    · refine ⟨before, first, after ++ [entry], by simp, hp, ?_⟩
      intro e he
      rcases List.mem_append.1 he with he | he
      · exact hq e he
      · obtain rfl := List.mem_singleton.1 he
        exact hn

theorem Since.exists_mem (h : Since P Q past) : ∃ entry ∈ past, P entry := by
  obtain ⟨before, entry, after, rfl, hp, -⟩ := h
  exact ⟨entry, by simp, hp⟩

end Record

end Registry

end SymbolTrees
