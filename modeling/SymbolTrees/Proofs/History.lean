import SymbolTrees.Proofs.Ledger
import SymbolTrees.Proofs.Session.Operations

/-!
# The history of a registry

What is in a registry follows from its record: the trees that were put and not closed since are open
under their handles, and the most recent tree of a kind is the one that was put last.
-/

namespace SymbolTrees.Registry

/-! ### Step by step -/

/-- Neither puts nor closes a tree. -/
def Entry.Idle (entry : Entry) : Prop := ∀ id, ¬entry.Puts id ∧ ¬entry.Closes id

/-- The registry is what the record says. -/
structure Kept (past : List Entry) (r : Registry) : Prop where
  sound : r.Sound
  known : ∀ id, (r.tree id).direction.kind?.isSome
  oneEach : r.OneEach
  slotted : r.Slotted
  built : ∀ id < r.trees.length, ∃ root direction uri,
    ⟨.build (r.tree id).handle root direction uri, .ok (.tree id)⟩ ∈ past
  puts : ∀ id kind, ⟨.put id, .ok (.kind kind)⟩ ∈ past →
    id < r.trees.length ∧ (r.tree id).direction.kind? = some kind
  closed : ∀ id, (∃ entry ∈ past, entry.Closes id) → id < r.trees.length ∧ (r.tree id).closed
  held : ∀ id, Held past id ↔ r.isOpen id
  latest : ∀ kind id, r.get? kind = some id ↔ Latest past kind id ∧ r.isOpen id

section Steps

variable {past : List Entry} {entry : Entry} {r q : Registry} {id : TreeId} {kind : TreeKind}
  {handle : Int}

theorem kept_start : Kept [] empty where
  sound := sound_empty
  known _ := rfl
  oneEach _ h := absurd h (Nat.not_lt_zero _)
  slotted kind _ h := by cases kind <;> cases h
  built _ h := absurd h (Nat.not_lt_zero _)
  puts _ _ h := by cases h
  closed _ h := by
    obtain ⟨_, h, -⟩ := h
    cases h
  held _ := by
    constructor
    · exact fun h => absurd h not_since_nil
    · exact fun h => by cases h
  latest kind _ := by
    constructor
    · intro h
      cases kind <;> cases h
    · exact fun h => absurd h.1 not_since_nil

theorem Entry.Idle.not_putsOf (hi : entry.Idle) : ¬entry.PutsOf kind := by
  rintro ⟨id, rfl⟩
  exact (hi id).1 ⟨kind, rfl⟩

theorem Entry.Idle.held (hi : entry.Idle) : Held (past ++ [entry]) id ↔ Held past id := by
  rw [Held, since_concat, ← Held]
  simp [(hi id).1, (hi id).2]

theorem Entry.Idle.latest (hi : entry.Idle) :
    Latest (past ++ [entry]) kind id ↔ Latest past kind id := by
  have hn : entry ≠ ⟨.put id, .ok (.kind kind)⟩ := fun h => (hi id).1 ⟨kind, h⟩
  rw [Latest, since_concat, ← Latest]
  simp [hn, hi.not_putsOf]

section Record

variable {other : TreeId} {k : TreeKind}

theorem held_put : Held (past ++ [⟨.put id, .ok (.kind kind)⟩]) other ↔
    other = id ∨ Held past other := by
  rw [Held, since_concat, ← Held]
  refine or_congr ⟨?_, ?_⟩ ⟨And.left, fun ho => ⟨ho, nofun⟩⟩
  · rintro ⟨k, he⟩
    cases he
    rfl
  · rintro rfl
    exact ⟨kind, rfl⟩

theorem held_close : Held (past ++ [⟨.close handle, .ok (.tree id)⟩]) other ↔
    Held past other ∧ other ≠ id := by
  rw [Held, since_concat, ← Held]
  constructor
  · rintro (⟨k, he⟩ | ⟨ho, hn⟩)
    · cases he
    · exact ⟨ho, fun he => hn ⟨handle, he ▸ rfl⟩⟩
  · rintro ⟨ho, hne⟩
    refine .inr ⟨ho, ?_⟩
    rintro ⟨x, hx⟩
    cases hx
    exact hne rfl

theorem latest_put_self : Latest (past ++ [⟨.put id, .ok (.kind kind)⟩]) kind other ↔
    other = id := by
  rw [Latest, since_concat, ← Latest]
  constructor
  · rintro (he | ⟨-, hn⟩)
    · cases he
      rfl
    · exact absurd ⟨id, rfl⟩ hn
  · rintro rfl
    exact .inl rfl

theorem latest_put_of_ne (hne : k ≠ kind) :
    Latest (past ++ [⟨.put id, .ok (.kind kind)⟩]) k other ↔ Latest past k other := by
  rw [Latest, since_concat, ← Latest]
  constructor
  · rintro (he | ⟨hl, -⟩)
    · cases he
      exact absurd rfl hne
    · exact hl
  · intro hl
    refine .inr ⟨hl, ?_⟩
    rintro ⟨x, hx⟩
    cases hx
    exact hne rfl

theorem latest_close :
    Latest (past ++ [⟨.close handle, .ok (.tree id)⟩]) k other ↔ Latest past k other := by
  rw [Latest, since_concat, ← Latest]
  constructor
  · rintro (he | ⟨hl, -⟩)
    · cases he
    · exact hl
  · exact fun hl => .inr ⟨hl, nofun⟩

end Record

theorem Kept.puts_of_ne (h : Kept past r) (hi : ∀ id, ¬entry.Puts id)
    (hm : ⟨.put id, .ok (.kind kind)⟩ ∈ past ++ [entry]) :
    id < r.trees.length ∧ (r.tree id).direction.kind? = some kind := by
  rcases List.mem_append.1 hm with hm | hm
  · exact h.puts id kind hm
  · exact absurd ⟨kind, (List.mem_singleton.1 hm).symm⟩ (hi id)

theorem Kept.closed_of_ne (h : Kept past r) (hi : ¬entry.Closes id)
    (hm : ∃ e ∈ past ++ [entry], e.Closes id) : id < r.trees.length ∧ (r.tree id).closed := by
  obtain ⟨e, hm, hc⟩ := hm
  rcases List.mem_append.1 hm with hm | hm
  · exact h.closed id ⟨e, hm, hc⟩
  · obtain rfl := List.mem_singleton.1 hm
    exact absurd hc hi

/-- Nothing happens to the trees. -/
theorem Kept.idle (h : Kept past r) (hq : r.Akin q) (hi : entry.Idle) :
    Kept (past ++ [entry]) q where
  sound := hq.sound h.sound
  known id := hq.kind id ▸ h.known id
  oneEach id hid other hother he := by
    rw [hq.handle, hq.handle] at he
    exact h.oneEach id (hq.length ▸ hid) other (hq.length ▸ hother) he
  slotted kind handle hrecent := by
    obtain ⟨id, hid, hk⟩ := h.slotted kind handle (hq.recent kind ▸ hrecent)
    exact ⟨id, hq.get?.trans hid, (hq.kind id).trans hk⟩
  built id hid := by
    obtain ⟨root, direction, uri, hb⟩ := h.built id (hq.length ▸ hid)
    rw [hq.handle]
    exact ⟨root, direction, uri, List.mem_append_left _ hb⟩
  puts id kind hm := by
    rw [hq.length, hq.kind]
    exact h.puts_of_ne (fun id => (hi id).1) hm
  closed id hm := by
    rw [hq.length, hq.closed]
    exact h.closed_of_ne (hi id).2 hm
  held id := by rw [hi.held, hq.isOpen, h.held]
  latest kind id := by rw [hi.latest, hq.isOpen, hq.get?, h.latest]

/-- A tree is made with a handle that no other tree has. -/
theorem Kept.made (h : Kept past r) {t : Tree} (hk : t.direction.kind?.isSome)
    (hlt : t.handle < r.nextHandle) (hnew : ∀ id < r.trees.length, (r.tree id).handle ≠ t.handle)
    (hi : entry.Idle)
    (hb : ∃ root direction uri,
      entry = ⟨.build t.handle root direction uri, .ok (.tree r.trees.length)⟩) :
    Kept (past ++ [entry]) { r with trees := r.trees ++ [t] } where
  sound := h.sound.made hlt
  known id := by
    rcases tree_made r id t with he | ⟨-, he⟩ <;> rw [he]
    · exact h.known id
    · exact hk
  oneEach id hid other hother he := by
    rw [List.length_append, List.length_singleton, Nat.lt_succ_iff_lt_or_eq] at hid hother
    rcases hid with hid | rfl <;> rcases hother with hother | rfl
    · rw [tree_made_of_lt t hid, tree_made_of_lt t hother] at he
      exact h.oneEach id hid other hother he
    · rw [tree_made_of_lt t hid, tree_made_length] at he
      exact absurd he (hnew id hid)
    · rw [tree_made_of_lt t hother, tree_made_length] at he
      exact absurd he.symm (hnew other hother)
    · rfl
  slotted kind handle hrecent := by
    obtain ⟨id, hid, hkind⟩ := h.slotted kind handle (by cases kind <;> exact hrecent)
    obtain ⟨slot, -, hslot⟩ := of_get? hid
    refine ⟨id, ?_, ?_⟩
    · cases kind <;> exact hid
    · rw [tree_made_of_lt t (h.sound.slots slot id hslot).1, hkind]
  built id hid := by
    rw [List.length_append, List.length_singleton, Nat.lt_succ_iff_lt_or_eq] at hid
    rcases hid with hid | rfl
    · obtain ⟨root, direction, uri, hm⟩ := h.built id hid
      rw [tree_made_of_lt t hid]
      exact ⟨root, direction, uri, List.mem_append_left _ hm⟩
    · obtain ⟨root, direction, uri, rfl⟩ := hb
      rw [tree_made_length]
      exact ⟨root, direction, uri, by simp⟩
  puts id kind hm := by
    obtain ⟨hid, hkind⟩ := h.puts_of_ne (fun id => (hi id).1) hm
    rw [tree_made_of_lt t hid, List.length_append, List.length_singleton]
    exact ⟨Nat.lt_succ_of_lt hid, hkind⟩
  closed id hm := by
    obtain ⟨hid, hc⟩ := h.closed_of_ne (hi id).2 hm
    rw [tree_made_of_lt t hid, List.length_append, List.length_singleton]
    exact ⟨Nat.lt_succ_of_lt hid, hc⟩
  held id := by rw [hi.held, isOpen_made h.sound, h.held]
  latest kind id := by
    rw [hi.latest, isOpen_made h.sound, ← h.latest]
    cases kind <;> rfl

/-- A tree is put. -/
theorem Kept.opened (h : Kept past r) (hc : (r.tree id).closed = false)
    (hk : (r.tree id).direction.kind? = some kind) :
    Kept (past ++ [⟨.put id, .ok (.kind kind)⟩]) (r.opening id kind) where
  sound := h.sound.opening (lt_of_closed_eq_false hc) hc
  known other := by
    rw [tree_opening]
    exact h.known other
  oneEach := by
    unfold OneEach
    simp only [trees_opening, tree_opening]
    exact h.oneEach
  slotted := h.slotted.opening h.sound h.oneEach hc hk
  built other ho := by
    rw [trees_opening] at ho
    rw [tree_opening]
    obtain ⟨root, direction, uri, hm⟩ := h.built other ho
    exact ⟨root, direction, uri, List.mem_append_left _ hm⟩
  puts other k hm := by
    rw [trees_opening, tree_opening]
    rcases List.mem_append.1 hm with hm | hm
    · exact h.puts other k hm
    · cases List.mem_singleton.1 hm
      exact ⟨lt_of_closed_eq_false hc, hk⟩
  closed other hm := by
    rw [trees_opening, tree_opening]
    refine h.closed_of_ne ?_ hm
    rintro ⟨_, he⟩
    cases he
  held other := by rw [isOpen_opening h.oneEach hc, held_put, h.held]
  latest k other := by
    rw [isOpen_opening h.oneEach hc, get?_opening h.sound h.oneEach h.slotted hc hk]
    by_cases he : k = kind
    · subst he
      rw [if_pos rfl, latest_put_self, Option.some_inj]
      exact ⟨fun hid => ⟨hid.symm, .inl hid.symm⟩, fun hid => hid.1.symm⟩
    · rw [if_neg he, h.latest, latest_put_of_ne he]
      refine and_congr_right fun hl => ⟨.inr, fun ho => ho.resolve_left ?_⟩
      -- the tree that is put is not of this kind
      rintro rfl
      obtain ⟨e, hm, rfl⟩ := hl.exists_mem
      exact he (Option.some.inj ((h.puts _ _ hm).2.symm.trans hk))

/-- A tree is closed. -/
theorem Kept.shut (h : Kept past r) (hslot : r.slots.get? handle = some id)
    (hk : (r.tree id).direction.kind? = some kind) :
    Kept (past ++ [⟨.close handle, .ok (.tree id)⟩]) (r.without handle id kind) := by
  have htree {α : Type} (g : Tree → α) (hg : ∀ t, g t.close = g t) (other : TreeId) :
      g ((r.without handle id kind).tree other) = g (r.tree other) := by
    rw [tree_without]
    exact tree_update_of_keeps g (hg _)
  have hhandle := htree Tree.handle fun _ => rfl
  have hkind := htree (fun t => t.direction.kind?) fun _ => rfl
  have hidle (other : TreeId) : ¬(Entry.mk (.close handle) (.ok (.tree id))).Puts other := by
    rintro ⟨_, he⟩
    cases he
  exact {
    sound := h.sound.without hslot kind
    known other := by
      rw [hkind]
      exact h.known other
    oneEach x hx y hy he := by
      rw [length_trees_without] at hx hy
      rw [hhandle, hhandle] at he
      exact h.oneEach x hx y hy he
    slotted := h.slotted.without h.sound hslot hk
    built other ho := by
      rw [length_trees_without] at ho
      rw [hhandle]
      obtain ⟨root, direction, uri, hm⟩ := h.built other ho
      exact ⟨root, direction, uri, List.mem_append_left _ hm⟩
    puts other k hm := by
      rw [length_trees_without, hkind]
      exact h.puts_of_ne hidle hm
    closed other hm := by
      rw [length_trees_without, tree_without]
      by_cases he : other = id
      · subst he
        have hlt := (h.sound.slots handle other hslot).1
        rw [tree_update_self hlt]
        exact ⟨hlt, rfl⟩
      · rw [tree_update_of_ne he]
        refine h.closed_of_ne ?_ hm
        rintro ⟨x, hx⟩
        cases hx
        exact he rfl
    held other := by rw [h.sound.isOpen_without hslot, held_close, h.held]
    latest k other := by
      rw [h.sound.isOpen_without hslot, get?_without h.sound h.slotted hslot hk, latest_close]
      by_cases hget : r.get? k = some id
      · rw [if_pos hget]
        refine ⟨nofun, ?_⟩
        rintro ⟨hl, ho, hne⟩
        exact absurd (Option.some.inj (((h.latest k other).2 ⟨hl, ho⟩).symm.trans hget)) hne
      · rw [if_neg hget, h.latest]
        refine and_congr_right fun hl => ⟨fun ho => ⟨ho, ?_⟩, And.left⟩
        rintro rfl
        exact hget ((h.latest k other).2 ⟨hl, ho⟩) }

/-- A handle is given out only once, so that no tree has a handle that is used for the first time. -/
theorem Kept.handle_ne {root : Node} {direction : Direction} {uri : Option Text}
    (h : Kept past r) (hp : (Operation.build handle root direction uri).Proper past) :
    ∀ id < r.trees.length, (r.tree id).handle ≠ handle := by
  rintro id hid rfl
  obtain ⟨root', direction', uri', hm⟩ := h.built id hid
  exact hp.2 root' direction' uri' id hm

end Steps

/-- The handles that were given out ascend, and the next one is above them all. -/
structure Numbered (past : List Entry) (r : Registry) : Prop where
  ascending : (past.filterMap Entry.handle?).Pairwise (· < ·)
  below : ∀ handle ∈ past.filterMap Entry.handle?, handle < r.nextHandle
  granted : ∀ entry ∈ past, entry.operation = .newHandle → entry.handle?.isSome

section Numbers

variable {past : List Entry} {entry : Entry} {r q : Registry} {handle : Int}

theorem Numbered.other (h : Numbered past r) (hn : entry.operation ≠ .newHandle)
    (hq : q.nextHandle = r.nextHandle) : Numbered (past ++ [entry]) q := by
  have he : entry.handle? = none := by
    unfold Entry.handle?
    split
    · exact absurd rfl hn
    · rfl
  have hmap : (past ++ [entry]).filterMap Entry.handle? = past.filterMap Entry.handle? := by
    simp [he]
  refine ⟨hmap ▸ h.ascending, ?_, ?_⟩
  · rw [hmap, hq]
    exact h.below
  · intro e hm ho
    rcases List.mem_append.1 hm with hm | hm
    · exact h.granted e hm ho
    · exact absurd (List.mem_singleton.1 hm ▸ ho) hn

theorem Numbered.issued (h : Numbered past r) :
    Numbered (past ++ [⟨.newHandle, .ok (.handle r.nextHandle)⟩])
      { r with nextHandle := r.nextHandle + 1 } := by
  have hmap : (past ++ [Entry.mk .newHandle (.ok (.handle r.nextHandle))]).filterMap Entry.handle? =
      past.filterMap Entry.handle? ++ [r.nextHandle] := List.filterMap_append
  refine ⟨?_, ?_, ?_⟩
  · rw [hmap]
    refine List.pairwise_append.2 ⟨h.ascending, List.pairwise_singleton .., ?_⟩
    intro a ha b hb
    rw [List.mem_singleton.1 hb]
    exact h.below a ha
  · intro handle hm
    rw [hmap] at hm
    rcases List.mem_append.1 hm with hm | hm
    · exact Int.lt_trans (h.below handle hm) (Int.lt_succ _)
    · rw [List.mem_singleton.1 hm]
      exact Int.lt_succ _
  · intro e hm ho
    rcases List.mem_append.1 hm with hm | hm
    · exact h.granted e hm ho
    · rw [List.mem_singleton.1 hm]
      rfl

theorem Numbered.lt_of_mem (h : Numbered past r)
    (hm : ⟨.newHandle, .ok (.handle handle)⟩ ∈ past) : handle < r.nextHandle :=
  h.below handle (List.mem_filterMap.2 ⟨_, hm, rfl⟩)

end Numbers

/-- **A step.** A registry that keeps to its record still does after a proper operation. -/
theorem Kept.next {past : List Entry} {r q : Registry} {operation : Operation}
    {answer : Except Fault Answer} (h : Kept past r) (hn : Numbered past r)
    (hp : operation.Proper past) (hc : Comes r operation answer q) :
    Kept (past ++ [⟨operation, answer⟩]) q ∧ Numbered (past ++ [⟨operation, answer⟩]) q := by
  cases hc with
  | issued =>
    exact ⟨h.idle akin_newHandle fun id => ⟨nofun, nofun⟩, hn.issued⟩
  | built made =>
    obtain ⟨kind, hk, rfl⟩ := Session.of_make made
    exact ⟨h.made (Option.isSome_of_eq_some hk) (hn.lt_of_mem hp.1) (h.handle_ne hp)
      (fun id => ⟨nofun, nofun⟩) ⟨_, _, _, rfl⟩, hn.other nofun rfl⟩
  | turned was =>
    refine ⟨h.idle (akin_update rfl rfl ?_) fun id => ⟨nofun, nofun⟩, hn.other nofun rfl⟩
    rw [was]
    rfl
  | opened fresh known => exact ⟨h.opened fresh known, hn.other nofun nextHandle_opening⟩
  | closed slot known => exact ⟨h.shut slot known, hn.other nofun (nextHandle_without ..)⟩
  | hid hidden slot =>
    exact ⟨h.idle (akin_update rfl rfl rfl) fun id => ⟨nofun, nofun⟩, hn.other nofun rfl⟩
  | found slot => exact ⟨h.idle (.refl r) fun id => ⟨nofun, nofun⟩, hn.other nofun rfl⟩
  | failed e refusable =>
    exact ⟨h.idle (.refl r) fun id => ⟨nofun, nofun⟩, hn.other refusable rfl⟩

/-- A registry keeps to its record from the first day on. -/
theorem History.kept {past : List Entry} {r : Registry} (h : History past r) :
    Kept past r ∧ Numbered past r := by
  induction h with
  | start => exact ⟨kept_start, ⟨.nil, nofun, nofun⟩⟩
  | next _ operation proper ih => exact ih.1.next ih.2 proper (comes ih.1.known operation)

/-! ### What the record tells -/

/-- The tree that an operation puts, closes, shows or hides. -/
def Operation.target? (r : Registry) : Operation → Option TreeId
  | .put id => some id
  | .close handle | .setHidden handle _ => r.slots.get? handle
  | _ => none

/-- What the record of a registry tells of it. -/
structure Chronicle (past : List Entry) (r : Registry) : Prop where
  /-- Whoever asks for a new handle gets one. -/
  granted : ∀ entry ∈ past, entry.operation = .newHandle → entry.handle?.isSome
  /-- Every handle is above all that were given out before. -/
  ascending : (past.filterMap Entry.handle?).Pairwise (· < ·)
  /-- The trees that were put and not closed since are found by their handles, and no others. -/
  found : ∀ handle id, (lookup handle).answer r = .ok id ↔
    Held past id ∧ (r.tree id).handle = handle
  /-- A tree that was closed is never open again. -/
  closed : ∀ id, (∃ entry ∈ past, entry.Closes id) → ¬r.isOpen id
  /-- A slot that is not empty names an open tree of its kind. -/
  slot : ∀ kind handle, r.recent kind = some handle → ∃ id, (lookup handle).answer r = .ok id ∧
    r.isOpen id ∧ (r.tree id).direction.kind? = some kind
  /-- The most recent tree of a kind is the one that was put last, as long as it is open. -/
  latest : ∀ kind id, r.get? kind = some id ↔ Latest past kind id ∧ r.isOpen id
  /-- What is done to a tree is no matter to the other kind. -/
  apart : ∀ (operation : Operation) kind, (∀ id, operation.target? r = some id →
    (r.tree id).direction.kind? ≠ some kind) → (operation.act.after r).get? kind = r.get? kind
  /-- Closing a tree is no matter to its own kind either, unless it is the most recent one. -/
  older : ∀ handle kind, (∀ id, (lookup handle).answer r = .ok id → r.get? kind ≠ some id) →
    ((Operation.close handle).act.after r).get? kind = r.get? kind

section Telling

variable {past : List Entry} {r : Registry} {handle : Int} {id : TreeId}

theorem answer_lookup : (lookup handle).answer r = .ok id ↔ r.slots.get? handle = some id := by
  have h : (lookup handle).Ends r
      (fun id _ => r.slots.get? handle = some id) fun _ _ => r.slots.get? handle = none :=
    ends_lookup (fun _ hs => hs) fun hs => hs
  unfold Action.Ends at h
  unfold Action.answer
  cases hl : lookup handle r with
  | ok other q =>
    rw [hl] at h
    rw [h]
    simp
  | error e q =>
    rw [hl] at h
    rw [h]
    simp

/-- What is in a slot is open, and has the handle of the slot. -/
theorem Sound.slot_iff (hr : r.Sound) :
    r.slots.get? handle = some id ↔ r.isOpen id ∧ (r.tree id).handle = handle := by
  constructor
  · exact fun hs => ⟨hr.isOpen_of_slot hs, (hr.slots handle id hs).2.1⟩
  · rintro ⟨ho, rfl⟩
    exact (isOpen_iff.1 ho).2

theorem Kept.apart (h : Kept past r) (operation : Operation) (kind : TreeKind)
    (hn : ∀ id, operation.target? r = some id → (r.tree id).direction.kind? ≠ some kind) :
    (operation.act.after r).get? kind = r.get? kind := by
  have hc := comes h.known operation
  generalize operation.act.answer r = answer, operation.act.after r = q at hc
  cases hc with
  | issued => exact akin_newHandle.get?
  | built made => cases kind <;> rfl
  | turned was => cases kind <;> rfl
  | opened fresh known =>
    rw [get?_opening h.sound h.oneEach h.slotted fresh known, if_neg]
    rintro rfl
    exact hn _ rfl known
  | closed slot known =>
    rw [get?_without h.sound h.slotted slot known, if_neg]
    exact fun hget => hn _ slot (h.slotted.kind_of_get? hget)
  | hid hidden slot => cases kind <;> rfl
  | found slot => rfl
  | failed e refusable => rfl

theorem Kept.get?_close (h : Kept past r) (kind : TreeKind)
    (hn : ∀ id, r.slots.get? handle = some id → r.get? kind ≠ some id) :
    ((Operation.close handle).act.after r).get? kind = r.get? kind := by
  have hc := comes h.known (.close handle)
  generalize (Operation.close handle).act.answer r = answer,
    (Operation.close handle).act.after r = q at hc
  cases hc with
  | closed slot known =>
    rw [get?_without h.sound h.slotted slot known, if_neg (hn _ slot)]
  | failed e refusable => rfl

end Telling

/-- **The record of a registry tells what is in it**, as long as every tree is made with a handle
of its own. -/
theorem History.chronicle {past : List Entry} {r : Registry} (h : History past r) :
    Chronicle past r := by
  obtain ⟨hk, hn⟩ := h.kept
  refine ⟨hn.granted, hn.ascending, ?_, ?_, ?_, hk.latest, hk.apart, ?_⟩
  · intro handle id
    rw [answer_lookup, hk.sound.slot_iff, hk.held]
  · intro id hc ho
    have hclosed := (hk.closed id hc).2
    rw [(isOpen_iff.1 ho).1] at hclosed
    cases hclosed
  · intro kind handle hrecent
    obtain ⟨id, hid, hkind⟩ := hk.slotted kind handle hrecent
    have hslot : r.slots.get? handle = some id := by
      rw [← hid, get?, hrecent]
      rfl
    exact ⟨id, answer_lookup.2 hslot, hk.sound.isOpen_of_slot hslot, hkind⟩
  · intro handle kind hother
    exact hk.get?_close kind fun id hs => hother id (answer_lookup.2 hs)

/-- Two trees get their handles, are made and put, and the tree of calls is closed. -/
def closedCalls : List Operation :=
  [.newHandle, .build 1 Tree.vacant.root (.calls .incoming) none, .put 0,
    .newHandle, .build 2 Tree.vacant.root .outline none, .put 1, .turn 0, .close 1]

theorem chronicle_closedCalls : ∃ past r, past.map Entry.operation = closedCalls ∧
    History past r ∧ Chronicle past r ∧ r.get? .calls = none ∧ r.get? .outline = some 1 := by
  have first := (History.start.next .newHandle trivial).next
    (.build 1 Tree.vacant.root (.calls .incoming) none)
    ⟨List.mem_append_right _ (List.mem_singleton.2 rfl), fun _ _ _ _ h => by simp at h⟩
  have second := ((first.next (.put 0) trivial).next .newHandle trivial).next
    (.build 2 Tree.vacant.root .outline none)
    ⟨List.mem_append_right _ (List.mem_singleton.2 rfl), fun _ _ _ _ h => by simp at h⟩
  have third := ((second.next (.put 1) trivial).next (.turn 0) trivial).next (.close 1) trivial
  exact ⟨_, _, rfl, third, third.chronicle, rfl, rfl⟩

end SymbolTrees.Registry
