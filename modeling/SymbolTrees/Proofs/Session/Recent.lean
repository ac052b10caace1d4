import Mathlib.Data.Nat.Find
import SymbolTrees.Proofs.History
import SymbolTrees.Proofs.Session.Play

/-!
# The most recent tree

Of each kind of trees a registry knows the one that was put last, and only as long as that is open.
When it is closed, no older tree takes its place, though one may still be open: then commands find
no tree until another one is put. In a session every tree is put once, when it gets its handle, so
the tree that was put last is the one with the greatest handle.
-/

namespace SymbolTrees

namespace Registry

variable {past : List Entry} {r q : Registry} {id other : TreeId} {kind k : TreeKind} {t : Tree}
  {handle : Int}

/-- Where the most recent tree of a kind is the last one of some order as long as that is open,
there is none just if there is no last one, or the last one is closed. -/
theorem get?_eq_none_of_last {Last : TreeId → Prop}
    (some_iff : ∀ id, r.get? kind = some id ↔ Last id ∧ r.isOpen id)
    (unique : ∀ id other, Last id → Last other → id = other) :
    r.get? kind = none ↔ (∀ id, ¬Last id) ∨ ∃ id, Last id ∧ r.isOpen id = false := by
  constructor
  · intro hnone
    by_contra h
    push Not at h
    obtain ⟨⟨id, hlast⟩, hopen⟩ := h
    cases hnone.symm.trans ((some_iff id).2 ⟨hlast, Bool.eq_true_of_not_eq_false (hopen id hlast)⟩)
  · intro hlast
    by_contra hsome
    obtain ⟨id, hid⟩ := Option.ne_none_iff_exists'.1 hsome
    obtain ⟨hl, ho⟩ := (some_iff id).1 hid
    rcases hlast with hnone | ⟨other, hother, hclosed⟩
    · exact hnone id hl
    · obtain rfl := unique id other hl hother
      cases ho.symm.trans hclosed

/-! ### On record -/

/-- What was ever done was done a last time. -/
theorem since_of_mem {P : Entry → Prop} {entry : Entry} (hm : entry ∈ past) (hp : P entry) :
    Since P P past := by
  induction past using List.reverseRecOn with
  | nil => cases hm
  | append_singleton past last ih =>
    rw [since_concat]
    by_cases hlast : P last
    · exact .inl hlast
    · refine .inr ⟨ih ?_, hlast⟩
      rcases List.mem_append.1 hm with hm | hm
      · exact hm
      · exact absurd (List.mem_singleton.1 hm ▸ hp) hlast

/-- If a tree of a kind was ever put, one was put last. -/
theorem exists_latest {entry : Entry} (hm : entry ∈ past) (hp : entry.PutsOf kind) :
    ∃ id, Latest past kind id := by
  obtain ⟨before, last, after, he, ⟨id, hlast⟩, hafter⟩ := since_of_mem hm hp
  exact ⟨id, before, last, after, he, hlast, hafter⟩

/-- The tree that was put last is open unless it was closed. -/
theorem Kept.isOpen_of_latest (h : Kept past r) (hl : Latest past kind id)
    (hn : ∀ entry ∈ past, ¬entry.Closes id) : r.isOpen id := by
  obtain ⟨before, entry, after, rfl, rfl, -⟩ := hl
  refine (h.held id).1 ⟨before, _, after, rfl, ⟨kind, rfl⟩, fun later hm => ?_⟩
  exact hn later (List.mem_append_right _ (List.mem_cons_of_mem _ hm))

/-- Only one tree of a kind was put last. -/
theorem Latest.unique (h : Latest past kind id) (ho : Latest past kind other) : id = other := by
  induction past using List.reverseRecOn with
  | nil => exact absurd h not_since_nil
  | append_singleton past last ih =>
    rw [Latest, since_concat] at h ho
    rcases h with rfl | ⟨h, hn⟩
    · rcases ho with ho | ⟨-, hn⟩
      · cases ho
        rfl
      · exact absurd ⟨id, rfl⟩ hn
    · rcases ho with rfl | ⟨ho, -⟩
      · exact absurd ⟨other, rfl⟩ hn
      · exact ih h ho

/-- What is known of the most recent tree of a kind, by the record. -/
structure Remembers (past : List Entry) (r : Registry) (kind : TreeKind) : Prop where
  /-- It is the one that was put last, as long as that is open. -/
  some_iff : ∀ id, r.get? kind = some id ↔ Latest past kind id ∧ r.isOpen id
  /-- There is none just if none was ever put, or the one that was put last is closed. -/
  none_iff : r.get? kind = none ↔ (∀ entry ∈ past, ¬entry.PutsOf kind) ∨
    ∃ id, Latest past kind id ∧ ∃ entry ∈ past, entry.Closes id

theorem Kept.remembers (h : Kept past r) (kind : TreeKind) : r.Remembers past kind := by
  have hnone : (∀ id, ¬Latest past kind id) ↔ ∀ entry ∈ past, ¬entry.PutsOf kind := by
    refine ⟨fun hn entry hm hp => ?_, fun hn id hl => ?_⟩
    · obtain ⟨id, hl⟩ := exists_latest hm hp
      exact hn id hl
    · obtain ⟨entry, hm, rfl⟩ := hl.exists_mem
      exact hn _ hm ⟨id, rfl⟩
  have hclosed {id : TreeId} (hl : Latest past kind id) :
      r.isOpen id = false ↔ ∃ entry ∈ past, entry.Closes id := by
    refine ⟨fun hc => ?_, fun hc => Bool.eq_false_iff.2 fun ho => ?_⟩
    · by_contra hn
      push Not at hn
      cases hc.symm.trans (h.isOpen_of_latest hl hn)
    · cases (isOpen_iff.1 ho).1.symm.trans (h.closed id hc).2
  refine ⟨h.latest kind, ?_⟩
  rw [get?_eq_none_of_last (h.latest kind) fun _ _ => Latest.unique, hnone]
  exact or_congr_right (exists_congr fun id => and_congr_right hclosed)

/-! ### By handles -/

/-- Of all trees of the kind this one has the greatest handle. -/
@[mk_iff newest_iff]
structure Newest (r : Registry) (kind : TreeKind) (id : TreeId) : Prop where
  planted : id < r.trees.length
  isKind : (r.tree id).direction.kind? = some kind
  last : ∀ other < r.trees.length, (r.tree other).direction.kind? = some kind →
    (r.tree other).handle ≤ (r.tree id).handle

/-- A tree that was planted later has a greater handle. -/
def Ascending (r : Registry) : Prop := ∀ id other, id < other → other < r.trees.length →
  (r.tree id).handle < (r.tree other).handle

/-- Handles ascend, and the most recent tree of a kind is the newest one if that is open. -/
structure Seated (r : Registry) : Prop where
  ascending : r.Ascending
  slotted : r.Slotted
  newest : ∀ kind id, r.get? kind = some id ↔ r.isOpen id ∧ r.Newest kind id

/-- What a move may do to the trees of a registry and their slots. -/
inductive Reseats (r : Registry) : Registry → Prop
  | akin {q : Registry} (akin : r.Akin q) : Reseats r q
  | opened {t : Tree} {kind : TreeKind} (fresh : t.closed = false)
    (isKind : t.direction.kind? = some kind) (issued : t.handle < r.nextHandle)
    (unused : ∀ id < r.trees.length, (r.tree id).handle < t.handle) :
    Reseats r (r.including t kind)
  | closed {handle : Int} {id : TreeId} {kind : TreeKind} (slot : r.slots.get? handle = some id)
    (isKind : (r.tree id).direction.kind? = some kind) : Reseats r (r.without handle id kind)

theorem seated_empty : empty.Seated := by
  refine ⟨fun _ _ _ h => absurd h (Nat.not_lt_zero _), ?_, ?_⟩
  · intro kind handle h
    cases kind <;> cases h
  · intro kind id
    refine ⟨fun h => ?_, fun h => absurd h.2.planted (Nat.not_lt_zero _)⟩
    cases kind <;> cases h

theorem Akin.newest (h : r.Akin q) : q.Newest kind id ↔ r.Newest kind id := by
  constructor
  · rintro ⟨hlt, hk, hlast⟩
    rw [h.length] at hlt
    rw [h.kind] at hk
    refine ⟨hlt, hk, fun other ho hko => ?_⟩
    rw [← h.handle, ← h.handle]
    exact hlast other (h.length ▸ ho) (h.kind other ▸ hko)
  · rintro ⟨hlt, hk, hlast⟩
    refine ⟨h.length ▸ hlt, (h.kind id).trans hk, fun other ho hko => ?_⟩
    rw [h.handle, h.handle]
    exact hlast other (h.length ▸ ho) ((h.kind other).symm.trans hko)

theorem Seated.akin (h : r.Seated) (hq : r.Akin q) : q.Seated := by
  refine ⟨?_, ?_, fun kind id => by rw [hq.get?, hq.isOpen, hq.newest, h.newest]⟩
  · intro id other hlt ho
    rw [hq.handle, hq.handle]
    exact h.ascending id other hlt (hq.length ▸ ho)
  · intro kind handle hrecent
    obtain ⟨id, hid, hk⟩ := h.slotted kind handle (hq.recent kind ▸ hrecent)
    exact ⟨id, hq.get?.trans hid, (hq.kind id).trans hk⟩

theorem Ascending.oneEach (h : r.Ascending) : r.OneEach := by
  intro id hid other hother he
  rcases Nat.lt_trichotomy id other with hlt | heq | hlt
  · exact absurd he (Int.ne_of_lt (h id other hlt hother))
  · exact heq
  · exact absurd he.symm (Int.ne_of_lt (h other id hlt hid))

theorem Ascending.made (h : r.Ascending)
    (unused : ∀ id < r.trees.length, (r.tree id).handle < t.handle) :
    ({ r with trees := r.trees ++ [t] } : Registry).Ascending := by
  intro id other hlt ho
  rw [List.length_append, List.length_singleton] at ho
  rcases Nat.lt_succ_iff_lt_or_eq.1 ho with ho | rfl
  · rw [tree_made_of_lt t ho, tree_made_of_lt t (Nat.lt_trans hlt ho)]
    exact h id other hlt ho
  · rw [tree_made_length, tree_made_of_lt t hlt]
    exact unused id hlt

theorem Slotted.made (h : r.Slotted) (hr : r.Sound) (t : Tree) :
    ({ r with trees := r.trees ++ [t] } : Registry).Slotted := by
  intro kind handle hrecent
  obtain ⟨id, hid, hk⟩ := h kind handle (by cases kind <;> exact hrecent)
  obtain ⟨slot, -, hslot⟩ := of_get? hid
  refine ⟨id, by cases kind <;> exact hid, ?_⟩
  rw [tree_made_of_lt t (hr.slots slot id hslot).1, hk]

/-- A new tree is the newest of its kind. -/
theorem newest_made_self (hk : t.direction.kind? = some kind)
    (unused : ∀ id < r.trees.length, (r.tree id).handle < t.handle) :
    ({ r with trees := r.trees ++ [t] } : Registry).Newest kind id ↔ id = r.trees.length := by
  have hlength : (r.trees ++ [t]).length = r.trees.length + 1 := List.length_append
  constructor
  · rintro ⟨hlt, -, hlast⟩
    by_contra hne
    have hid : id < r.trees.length :=
      Nat.lt_of_le_of_ne (Nat.le_of_lt_succ (Nat.lt_of_lt_of_eq hlt hlength)) hne
    have hle := hlast r.trees.length (hlength ▸ Nat.lt_succ_self _) (by rw [tree_made_length, hk])
    rw [tree_made_length, tree_made_of_lt t hid] at hle
    exact absurd (unused id hid) (Int.not_lt.2 hle)
  · rintro rfl
    refine ⟨hlength ▸ Nat.lt_succ_self _, by rw [tree_made_length, hk], fun other ho _ => ?_⟩
    rw [hlength] at ho
    rw [tree_made_length]
    rcases Nat.lt_succ_iff_lt_or_eq.1 ho with ho | rfl
    · rw [tree_made_of_lt t ho]
      exact Int.le_of_lt (unused other ho)
    · rw [tree_made_length]

/-- A new tree of another kind is none of those that are compared. -/
theorem newest_made_of_ne (hk : t.direction.kind? = some kind) (hne : k ≠ kind) :
    ({ r with trees := r.trees ++ [t] } : Registry).Newest k id ↔ r.Newest k id := by
  have hlength : (r.trees ++ [t]).length = r.trees.length + 1 := List.length_append
  have hold {x : TreeId} (hx : x < (r.trees ++ [t]).length)
      (hkx : (({ r with trees := r.trees ++ [t] } : Registry).tree x).direction.kind? = some k) :
      x < r.trees.length := by
    rw [hlength] at hx
    rcases Nat.lt_succ_iff_lt_or_eq.1 hx with hx | rfl
    · exact hx
    · rw [tree_made_length, hk] at hkx
      exact absurd (Option.some.inj hkx).symm hne
  constructor
  · rintro ⟨hlt, hkid, hlast⟩
    have hid := hold hlt hkid
    rw [tree_made_of_lt t hid] at hkid hlast
    refine ⟨hid, hkid, fun other ho hko => ?_⟩
    have hle := hlast other (hlength ▸ Nat.lt_succ_of_lt ho) (by rw [tree_made_of_lt t ho, hko])
    rwa [tree_made_of_lt t ho] at hle
  · rintro ⟨hid, hkid, hlast⟩
    have hlt : id < (r.trees ++ [t]).length := hlength ▸ Nat.lt_succ_of_lt hid
    refine ⟨hlt, by rw [tree_made_of_lt t hid, hkid], fun other ho hko => ?_⟩
    have ho := hold ho hko
    rw [tree_made_of_lt t ho] at hko ⊢
    rw [tree_made_of_lt t hid]
    exact hlast other ho hko

/-- The newest tree of a kind is a new tree of that kind, and else the one it was. -/
theorem newest_made (hk : t.direction.kind? = some kind)
    (unused : ∀ id < r.trees.length, (r.tree id).handle < t.handle) :
    ({ r with trees := r.trees ++ [t] } : Registry).Newest k id ↔
      if k = kind then id = r.trees.length else r.Newest k id := by
  split
  · rename_i he
    subst he
    exact newest_made_self hk unused
  · rename_i hne
    exact newest_made_of_ne hk hne

theorem Seated.opened (h : r.Seated) (hr : r.Sound) (fresh : t.closed = false)
    (hk : t.direction.kind? = some kind) (issued : t.handle < r.nextHandle)
    (unused : ∀ id < r.trees.length, (r.tree id).handle < t.handle) :
    (r.including t kind).Seated := by
  obtain ⟨m, hm⟩ : ∃ m : Registry, m = { r with trees := r.trees ++ [t] } := ⟨_, rfl⟩
  have hself : m.tree r.trees.length = t := hm ▸ tree_made_length t
  have hopening : r.including t kind = m.opening r.trees.length kind := by
    rw [opening, hself, hm]
    rfl
  have hsound : m.Sound := hm ▸ hr.made issued
  have hascending : m.Ascending := hm ▸ h.ascending.made unused
  have hslotted : m.Slotted := hm ▸ h.slotted.made hr t
  have hget : m.get? = r.get? := by
    funext k
    rw [hm]
    cases k <;> rfl
  have hfresh : (m.tree r.trees.length).closed = false := by rw [hself, fresh]
  have hkind : (m.tree r.trees.length).direction.kind? = some kind := by rw [hself, hk]
  have hnewest (k : TreeKind) (id : TreeId) : (m.opening r.trees.length kind).Newest k id ↔
      if k = kind then id = r.trees.length else r.Newest k id := by
    have hsame : (m.opening r.trees.length kind).Newest k id ↔ m.Newest k id := by
      simp only [newest_iff, trees_opening, tree_opening]
    rw [hsame, hm, newest_made hk unused]
  rw [hopening]
  refine ⟨?_, hslotted.opening hsound hascending.oneEach hfresh hkind, fun k id => ?_⟩
  · unfold Ascending
    simp only [trees_opening, tree_opening]
    exact hascending
  · rw [get?_opening hsound hascending.oneEach hslotted hfresh hkind,
      isOpen_opening hascending.oneEach hfresh, hnewest, hget]
    have hmade : m.isOpen id = r.isOpen id := hm ▸ isOpen_made hr t
    split
    · simp only [Option.some.injEq]
      exact ⟨fun he => ⟨.inl he.symm, he.symm⟩, fun he => he.2.symm⟩
    · rw [hmade, h.newest]
      refine ⟨fun he => ⟨.inr he.1, he.2⟩, fun he => ⟨he.1.resolve_left ?_, he.2⟩⟩
      rintro rfl
      exact absurd he.2.planted (Nat.lt_irrefl _)

theorem Seated.closed (h : r.Seated) (hr : r.Sound) (slot : r.slots.get? handle = some id)
    (hk : (r.tree id).direction.kind? = some kind) : (r.without handle id kind).Seated := by
  have hhandle (x : TreeId) : ((r.without handle id kind).tree x).handle = (r.tree x).handle := by
    rw [tree_without]
    exact tree_update_of_keeps Tree.handle rfl
  have hdirection (x : TreeId) :
      ((r.without handle id kind).tree x).direction = (r.tree x).direction := by
    rw [tree_without]
    exact tree_update_of_keeps Tree.direction rfl
  refine ⟨?_, h.slotted.without hr slot hk, fun k x => ?_⟩
  · intro x y hlt hy
    rw [hhandle, hhandle]
    exact h.ascending x y hlt (length_trees_without handle id kind ▸ hy)
  · have hnewest : (r.without handle id kind).Newest k x ↔ r.Newest k x := by
      simp only [newest_iff, length_trees_without, hhandle, hdirection]
    rw [get?_without hr h.slotted slot hk, hr.isOpen_without slot, hnewest]
    split
    · rename_i hget
      refine ⟨nofun, fun ⟨⟨ho, hne⟩, hn⟩ => ?_⟩
      exact absurd (Option.some.inj (((h.newest k x).2 ⟨ho, hn⟩).symm.trans hget)) hne
    · rename_i hget
      rw [h.newest]
      refine ⟨fun ⟨ho, hn⟩ => ⟨⟨ho, ?_⟩, hn⟩, fun ⟨ho, hn⟩ => ⟨ho.1, hn⟩⟩
      rintro rfl
      exact hget ((h.newest k x).2 ⟨ho, hn⟩)

theorem Seated.reseats (h : r.Seated) (hr : r.Sound) (hq : r.Reseats q) : q.Seated := by
  cases hq with
  | akin akin => exact h.akin akin
  | opened fresh isKind issued unused => exact h.opened hr fresh isKind issued unused
  | closed slot isKind => exact h.closed hr slot isKind

theorem Ascending.handle_le (h : r.Ascending) (hle : id ≤ other) (ho : other < r.trees.length) :
    (r.tree id).handle ≤ (r.tree other).handle := by
  rcases Nat.lt_or_eq_of_le hle with hlt | rfl
  · exact Int.le_of_lt (h id other hlt ho)
  · exact Int.le_refl _

/-- If there are trees of a kind, one of them is the newest. -/
theorem Ascending.exists_newest (h : r.Ascending) (hid : id < r.trees.length)
    (hk : (r.tree id).direction.kind? = some kind) : ∃ id, r.Newest kind id := by
  classical
  let IsKind (id : TreeId) : Prop :=
    id < r.trees.length ∧ (r.tree id).direction.kind? = some kind
  obtain ⟨hlt, hkind⟩ : IsKind (Nat.findGreatest IsKind r.trees.length) :=
    Nat.findGreatest_spec (Nat.le_of_lt hid) ⟨hid, hk⟩
  refine ⟨_, hlt, hkind, fun other ho hother => ?_⟩
  exact h.handle_le (Nat.le_findGreatest (Nat.le_of_lt ho) ⟨ho, hother⟩) hlt

theorem Ascending.newest_unique (h : r.Ascending) (hid : r.Newest kind id)
    (ho : r.Newest kind other) : id = other :=
  h.oneEach id hid.planted other ho.planted (Int.le_antisymm
    (ho.last id hid.planted hid.isKind) (hid.last other ho.planted ho.isKind))

/-- There is no most recent tree just if there never was one, or the newest one is closed. -/
theorem Seated.get?_eq_none_iff (h : r.Seated) : r.get? kind = none ↔
    (∀ id < r.trees.length, (r.tree id).direction.kind? ≠ some kind) ∨
      ∃ id, r.Newest kind id ∧ r.isOpen id = false := by
  have hnone : (∀ id, ¬r.Newest kind id) ↔
      ∀ id < r.trees.length, (r.tree id).direction.kind? ≠ some kind := by
    refine ⟨fun hn id hid hk => ?_, fun hn id hnewest => hn id hnewest.planted hnewest.isKind⟩
    obtain ⟨newest, hnewest⟩ := h.ascending.exists_newest hid hk
    exact hn newest hnewest
  rw [get?_eq_none_of_last (fun id => (h.newest kind id).trans and_comm)
    fun _ _ => h.ascending.newest_unique, hnone]

end Registry

namespace Session

open SymbolTrees.Server (Outcome)

variable {s t : Session} {kind : TreeKind} {id : TreeId}

/-- A move changes the slots of trees only where it plants a tree or closes one. -/
theorem Move.reseats (hm : Move s t) : s.registry.Reseats t.registry := by
  have node (ref : NodeRef) (f : Node → Node) :
      s.registry.Reseats (s.registry.updateNode ref f) :=
    .akin (Registry.akin_update Tree.handle_modify Tree.closed_modify
      (congrArg Direction.kind? Tree.direction_modify))
  cases hm with
  | draw | hide => exact .akin (Registry.akin_update rfl rfl rfl)
  | close slot isKind => exact .closed slot isKind
  | issue => exact .akin Registry.akin_newHandle
  | plant issued unused _ isKind => exact .opened rfl isKind issued unused
  | ask | askInVain | unfold | graft => exact node _ _
  | giveUp =>
    rw [registry_givenUp]
    exact node _ _
  | turn isOpen turned =>
    refine .akin (Registry.akin_update rfl rfl ?_)
    change (Direction.calls _).kind? = (s.tree _).direction.kind?
    rw [turned]
    rfl
  | fail =>
    simp only [failed]
    split
    · exact node _ _
    · exact .akin (.refl _)
  | _ => exact .akin (.refl _)

/-- In whatever is played, handles ascend and the newest trees are the most recent ones. -/
theorem seated_play (client : Client) (settings : Settings) (root : Path) (now : Number)
    (turns : List Turn) : ((start client settings root now).play turns).registry.Seated :=
  (play_induction (P := fun t => t.registry.Seated) (sound_start ..) Registry.seated_empty
    (fun _ _ hs h hm => h.reseats hs.registry hm.reseats) (fun _ _ _ _ h _ _ => h)
    (fun _ _ h => h) turns).2

/-- What is known of the most recent tree of a kind, and what commands for it come to. -/
structure Recalls (s : Session) (kind : TreeKind) : Prop where
  /-- A tree that was put later has a greater handle. -/
  ascending : s.registry.Ascending
  /-- The most recent tree is the one that was put last, as long as that is open. -/
  some_iff : ∀ id, s.registry.get? kind = some id ↔ s.registry.Newest kind id ∧ s.isOpen id
  /-- There is none just if none was ever put, or the one that was put last is closed. -/
  none_iff : s.registry.get? kind = none ↔
    (∀ id < s.registry.trees.length, (s.tree id).direction.kind? ≠ some kind) ∨
      ∃ id, s.registry.Newest kind id ∧ s.isOpen id = false
  /-- Commands for the kind are carried out on the most recent tree, and if there is none, the user
  is told that no tree of the kind is open. -/
  runs : ∀ (commands : Commands) (name : Text) (binding : Binding) (row : Option Int)
    (given : Option Text), commands.bindings.get? name = some binding →
      (binding.needsRow && row.isNone) = false → kindFor commands given = .ok kind →
      run commands name row given s = match s.registry.get? kind with
        | none => .ok .nothing
          { s with journal := s.journal.notify .warning s!"no {kind.text} tree is open" }
        | some id => relay (carryOut binding.command id row) s

theorem recalls_of_seated (h : s.registry.Seated) (kind : TreeKind) : s.Recalls kind :=
  ⟨h.ascending, fun id => (h.newest kind id).trans and_comm, h.get?_eq_none_iff,
    fun _ _ _ _ _ => run_of_bound⟩

/-- **The most recent tree of a kind is the one that was put last, and there is none once that is
closed**: by the record of any registry, and in whatever is played. -/
theorem last_or_none :
    (∀ past r, Registry.History past r → ∀ kind, r.Remembers past kind) ∧
    ∀ client settings root now turns kind,
      ((start client settings root now).play turns).Recalls kind :=
  ⟨fun _ _ h kind => h.kept.1.remembers kind,
    fun client settings root now turns kind =>
      recalls_of_seated (seated_play client settings root now turns) kind⟩

/-- Two trees of calls are put, and the newer one is closed. -/
def closedNewer : List Registry.Operation :=
  [.newHandle, .build 1 Tree.vacant.root (.calls .incoming) none, .put 0,
    .newHandle, .build 2 Tree.vacant.root (.calls .incoming) none, .put 1, .close 2]

/-- The same in a session. -/
def closedNewerPlay : List Turn :=
  let item (name : Text) : CallItem := ⟨name, none, "", default, default, none, []⟩
  [.event (.openCalls (item "f") (.calls .incoming)),
    .event (.openCalls (item "g") (.calls .incoming)), .event (.close 2)]

/-- What the record comes to. -/
theorem history_closedNewer : ∃ past r, past.map Registry.Entry.operation = closedNewer ∧
    Registry.History past r ∧ r.get? .calls = none ∧ r.isOpen 0 ∧
      (r.tree 0).direction.kind? = some .calls := by
  have first := (Registry.History.start.next .newHandle trivial).next
    (.build 1 Tree.vacant.root (.calls .incoming) none)
    ⟨List.mem_append_right _ (List.mem_singleton.2 rfl), fun _ _ _ _ h => by simp at h⟩
  have second := ((first.next (.put 0) trivial).next .newHandle trivial).next
    (.build 2 Tree.vacant.root (.calls .incoming) none)
    ⟨List.mem_append_right _ (List.mem_singleton.2 rfl), fun _ _ _ _ h => by simp at h⟩
  have third := (second.next (.put 1) trivial).next (.close 2) trivial
  exact ⟨_, _, rfl, third, rfl, rfl, rfl⟩

/-- The older tree is open still, but it is not the most recent one, and a command finds none. -/
theorem forgotten_closedNewer :
    (∃ past r, past.map Registry.Entry.operation = closedNewer ∧ Registry.History past r ∧
      r.get? .calls = none ∧ r.isOpen 0 ∧ (r.tree 0).direction.kind? = some .calls) ∧
    (freshSession.play closedNewerPlay).isOpen 0 ∧
    ((freshSession.play closedNewerPlay).tree 0).direction.kind? = some .calls ∧
    run .default "expand" (some 1) none (freshSession.play closedNewerPlay) = .ok .nothing
      { freshSession.play closedNewerPlay with
        journal := (freshSession.play closedNewerPlay).journal.notify .warning
          "no calls tree is open" } := by
  have hnone : (freshSession.play closedNewerPlay).registry.get? .calls = none := by decide +kernel
  have hbound : Commands.default.bindings.get? "expand" = some ⟨.expand, true⟩ := by
    decide +kernel
  have hkind : kindFor .default none = .ok .calls := rfl
  have hrun : run .default "expand" (some 1) none (freshSession.play closedNewerPlay) = _ :=
    run_of_bound hbound rfl hkind
  rw [hnone] at hrun
  exact ⟨history_closedNewer, by decide +kernel, by decide +kernel, hrun⟩

/-- Once the newer tree is closed there is no most recent one. -/
theorem last_or_none_closedNewer :
    ∃ past r, past.map Registry.Entry.operation = closedNewer ∧ Registry.History past r ∧
      r.Remembers past .calls ∧ (freshSession.play closedNewerPlay).Recalls .calls := by
  obtain ⟨past, r, hpast, h, -⟩ := history_closedNewer
  exact ⟨past, r, hpast, h, last_or_none.1 past r h .calls,
    last_or_none.2 .server _ _ _ closedNewerPlay .calls⟩

end Session

end SymbolTrees
