import SymbolTrees.Proofs.Blocks
import SymbolTrees.Proofs.Session.Folding

/-!
# Following the cursor

The row for a line of a source file is found in the map of the lines on which symbols start. The
map keeps the last row of each of these lines, and where no symbol starts on a line the greatest
line before it stands in, if the cursor is followed.
-/

namespace SymbolTrees

/-- The line on which a symbol starts, counted from one. -/
def Location.firstLine (location : Location) : Int := location.range.start.line + 1

namespace View

variable {view : View} {line : Int} {i : Nat} {r : Row} {source : Option Path × Location}

/-! ### The map of source lines -/

/-- Row `i` is the last one whose symbol starts on the line. -/
structure LastOn (view : View) (line : Int) (i : Nat) (source : Option Path × Location) :
    Prop where
  row : ∃ r, view[i]? = some r ∧ r.source = some source
  starts : source.2.firstLine = line
  last : ∀ j r other, view[j]? = some r → r.source = some other → other.2.firstLine = line → j ≤ i

theorem lastOn_concat : LastOn (view ++ [r]) line i source ↔
    i = view.length ∧ r.source = some source ∧ source.2.firstLine = line ∨
      LastOn view line i source ∧ ∀ other, r.source = some other → other.2.firstLine ≠ line := by
  have hend : (view ++ [r])[view.length]? = some r := by simp
  constructor
  · rintro ⟨⟨x, hx, hsource⟩, hstarts, hlast⟩
    have hlt := (List.getElem?_eq_some_iff.1 hx).1
    rw [List.length_append, List.length_singleton] at hlt
    rcases Nat.lt_succ_iff_lt_or_eq.1 hlt with hi | rfl
    · right
      rw [List.getElem?_append_left hi] at hx
      refine ⟨⟨⟨x, hx, hsource⟩, hstarts, fun j y other hy => ?_⟩, fun other hr hline => ?_⟩
      · have hj := (List.getElem?_eq_some_iff.1 hy).1
        exact hlast j y other ((List.getElem?_append_left hj).trans hy)
      · have hle := hlast view.length r other hend hr hline
        omega
    · obtain rfl := Option.some.inj (hend.symm.trans hx)
      exact .inl ⟨rfl, hsource, hstarts⟩
  · rintro (⟨rfl, hsource, hstarts⟩ | ⟨⟨⟨x, hx, hsource⟩, hstarts, hlast⟩, hnone⟩)
    · refine ⟨⟨r, hend, hsource⟩, hstarts, fun j y other hy _ _ => ?_⟩
      have hj := (List.getElem?_eq_some_iff.1 hy).1
      rw [List.length_append, List.length_singleton] at hj
      omega
    · have hi := (List.getElem?_eq_some_iff.1 hx).1
      refine ⟨⟨x, (List.getElem?_append_left hi).trans hx, hsource⟩, hstarts, ?_⟩
      intro j y other hy hr hline
      have hj := (List.getElem?_eq_some_iff.1 hy).1
      rw [List.length_append, List.length_singleton] at hj
      rcases Nat.lt_succ_iff_lt_or_eq.1 hj with hj | rfl
      · rw [List.getElem?_append_left hj] at hy
        exact hlast j y other hy hr hline
      · obtain rfl := Option.some.inj (hend.symm.trans hy)
        exact absurd hline (hnone other hr)

/-- A further row takes the place of the one that its line had. -/
theorem sourceMap_concat (view : View) (r : Row) : sourceMap (view ++ [r]) =
    match r.source with
    | none => view.sourceMap
    | some (file, location) =>
      view.sourceMap.put location.firstLine ⟨file, location.uri, ((view.length + 1 : Nat) : Int)⟩ := by
  have hnumbered : numbered (view ++ [r]) = view.numbered ++ [(view.length + 1, r)] := by
    simp [numbered, List.zipIdx_append]
  rw [sourceMap, hnumbered, List.filterMap_append, Table.ofList, List.foldl_append]
  cases hr : r.source with
  | none => simp [hr, sourceMap, Table.ofList]
  | some source => simp [hr, sourceMap, Table.ofList, Location.firstLine]

/-- **The map has the last row of every line on which a symbol starts.** -/
theorem get?_sourceMap {target : SourceLine} : view.sourceMap.get? line = some target ↔
    ∃ i source, LastOn view line i source ∧
      target = ⟨source.1, source.2.uri, ((i + 1 : Nat) : Int)⟩ := by
  induction view using List.reverseRecOn with
  | nil =>
    constructor
    · intro h
      cases h
    · rintro ⟨i, source, ⟨⟨r, hr, -⟩, -, -⟩, -⟩
      cases hr
  | append_singleton view r ih =>
    simp only [lastOn_concat]
    rw [sourceMap_concat]
    cases hr : r.source with
    | none =>
      dsimp only
      rw [ih]
      simp
    | some source =>
      dsimp only
      rw [Table.get?_put]
      by_cases hline : source.2.firstLine = line
      · rw [if_pos hline]
        constructor
        · intro he
          exact ⟨view.length, source, .inl ⟨rfl, rfl, hline⟩, (Option.some.inj he).symm⟩
        · rintro ⟨i, other, ⟨rfl, hs, -⟩ | ⟨-, hne⟩, rfl⟩
          · obtain rfl := Option.some.inj hs
            rfl
          · exact absurd hline (hne source rfl)
      · rw [if_neg hline, ih]
        constructor
        · rintro ⟨i, other, hlast, rfl⟩
          refine ⟨i, other, .inr ⟨hlast, fun x hx => ?_⟩, rfl⟩
          exact Option.some.inj hx ▸ hline
        · rintro ⟨i, other, ⟨-, hs, hstarts⟩ | ⟨hlast, -⟩, rfl⟩
          · obtain rfl := Option.some.inj hs
            exact absurd hstarts hline
          · exact ⟨i, other, hlast, rfl⟩

theorem exists_get?_iff : (∃ target, view.sourceMap.get? line = some target) ↔
    ∃ r ∈ view, ∃ source, r.source = some source ∧ source.2.firstLine = line := by
  induction view using List.reverseRecOn with
  | nil =>
    constructor
    · rintro ⟨target, h⟩
      cases h
    · rintro ⟨r, hr, -⟩
      cases hr
  | append_singleton view r ih =>
    rw [sourceMap_concat]
    have hmem : r ∈ view ++ [r] := List.mem_append_right view List.mem_cons_self
    -- A line that an earlier row has stays in the map, with whatever row.
    cases hr : r.source with
    | none =>
      dsimp only
      rw [ih]
      constructor
      · rintro ⟨x, hx, h⟩
        exact ⟨x, List.mem_append_left _ hx, h⟩
      · rintro ⟨x, hx, source, hs, hline⟩
        rcases List.mem_append.1 hx with hx | hx
        · exact ⟨x, hx, source, hs, hline⟩
        · rw [List.mem_singleton.1 hx, hr] at hs
          cases hs
    | some source =>
      dsimp only
      rw [Table.get?_put]
      by_cases hline : source.2.firstLine = line
      · rw [if_pos hline]
        exact ⟨fun _ => ⟨r, hmem, source, hr, hline⟩, fun _ => ⟨_, rfl⟩⟩
      · rw [if_neg hline, ih]
        constructor
        · rintro ⟨x, hx, h⟩
          exact ⟨x, List.mem_append_left _ hx, h⟩
        · rintro ⟨x, hx, other, hs, hother⟩
          rcases List.mem_append.1 hx with hx | hx
          · exact ⟨x, hx, other, hs, hother⟩
          · rw [List.mem_singleton.1 hx, hr] at hs
            obtain rfl := Option.some.inj hs
            exact absurd hother hline

/-- The source of a row is the location of its node. -/
theorem source_of_ofTree {t : Tree} {style : Style} (hv : ofTree t style = .ok view) (hr : r ∈ view) :
    r.source.map Prod.snd = r.node.payload.location? t.uri true ∧
      ∀ file location, r.source = some (file, location) → Uri.filePath? location.uri = .ok file := by
  obtain ⟨⟨path, n⟩, -, hrow⟩ := Except.mem_of_mapM hv hr
  unfold View.row at hrow
  obtain ⟨detail, -, hrow⟩ := Except.of_bind hrow
  obtain ⟨source, hsource, hrow⟩ := Except.of_bind hrow
  obtain rfl := Except.ok.inj hrow
  dsimp only
  cases hl : n.payload.location? t.uri true with
  | none =>
    rw [hl, Option.mapM_none] at hsource
    obtain rfl := Except.ok.inj hsource
    exact ⟨rfl, nofun⟩
  | some location =>
    rw [hl, Option.mapM_some] at hsource
    obtain ⟨pair, hpair, hsource⟩ := Except.of_bind hsource
    obtain ⟨file, hfile, hpair⟩ := Except.of_bind hpair
    obtain rfl := Except.ok.inj hpair
    obtain rfl := Except.ok.inj hsource
    refine ⟨rfl, fun file' location' he => ?_⟩
    obtain ⟨rfl, rfl⟩ := Prod.mk.inj (Option.some.inj he)
    exact hfile

end View

/-! ### The greatest line before -/

namespace Tree

variable {t : Tree} {line : Int} {target : SourceLine}

theorem mem_starts {k : Int} :
    k ∈ (t.sourceMap.filterMap fun entry => if entry.1 ≤ line then some entry.1 else none) ↔
      (∃ target, t.sourceMap.get? k = some target) ∧ k ≤ line := by
  rw [List.mem_filterMap]
  constructor
  · rintro ⟨entry, hm, he⟩
    split at he
    · rename_i hle
      obtain rfl := Option.some.inj he
      refine ⟨Option.isSome_iff_exists.1 ?_, hle⟩
      rw [Table.get?, Option.isSome_map, List.find?_isSome]
      exact ⟨entry, hm, by simp⟩
    · cases he
  · rintro ⟨⟨target, hk⟩, hle⟩
    exact ⟨(k, target), Table.mem_of_get? hk, if_pos hle⟩

theorem nearestSourceLine?_eq_some : t.nearestSourceLine? line = some target ↔
    ∃ k ≤ line, t.sourceMap.get? k = some target ∧
      ∀ k' other, t.sourceMap.get? k' = some other → k' ≤ line → k' ≤ k := by
  rw [nearestSourceLine?, Option.bind_eq_some_iff]
  constructor
  · rintro ⟨k, hk, ht⟩
    obtain ⟨hm, hmax⟩ := List.max?_eq_some_iff.1 hk
    exact ⟨k, (mem_starts.1 hm).2, ht, fun k' other hother hle =>
      hmax k' (mem_starts.2 ⟨⟨other, hother⟩, hle⟩)⟩
  · rintro ⟨k, hle, ht, hmax⟩
    refine ⟨k, List.max?_eq_some_iff.2 ⟨mem_starts.2 ⟨⟨target, ht⟩, hle⟩, fun k' hk' => ?_⟩, ht⟩
    obtain ⟨⟨other, hother⟩, hle'⟩ := mem_starts.1 hk'
    exact hmax k' other hother hle'

theorem nearestSourceLine?_eq_none : t.nearestSourceLine? line = none ↔
    ∀ k target, t.sourceMap.get? k = some target → line < k := by
  constructor
  · intro hnone k target hk
    by_contra hle
    have hm := mem_starts.2 ⟨⟨target, hk⟩, Int.not_lt.1 hle⟩
    rw [nearestSourceLine?, Option.bind_eq_none_iff] at hnone
    cases hmax : (t.sourceMap.filterMap fun entry =>
        if entry.1 ≤ line then some entry.1 else none).max? with
    | none =>
      rw [List.max?_eq_none_iff] at hmax
      rw [hmax] at hm
      cases hm
    | some m =>
      obtain ⟨⟨other, hother⟩, -⟩ := mem_starts.1 (List.max?_mem hmax)
      exact absurd (hother.symm.trans (hnone m hmax)) nofun
  · intro h
    by_contra hsome
    obtain ⟨target, ht⟩ := Option.ne_none_iff_exists'.1 hsome
    obtain ⟨k, hle, hk, -⟩ := nearestSourceLine?_eq_some.1 ht
    exact absurd (h k target hk) (Int.not_lt.2 hle)

/-- A node on display has a location. -/
def Locates (t : Tree) (path : List Nat) (location : Location) : Prop :=
  t.root.Shown path ∧ ∃ n, t.root.at? path = some n ∧ n.payload.location? t.uri true = some location

end Tree

namespace View

variable {t : Tree} {style : Style} {view : View} {line : Int}

/-- The nodes on display that have a location are those of the rows that have one. -/
theorem locates_iff (hv : ofTree t style = .ok view) (hc : t.root.Counted) {path : List Nat}
    {location : Location} : t.Locates path location ↔ ∃ (i : Nat) (r : Row), view[i]? = some r ∧
      r.path = path ∧ r.node.payload.location? t.uri true = some location := by
  constructor
  · rintro ⟨hshown, n, hn, hl⟩
    have hm : path ∈ view.map Row.path := by
      rw [paths_of_ofTree hv, List.mem_map]
      exact ⟨(path, n), (Node.mem_visible_iff t.root).2 ⟨path, rfl, hn, hc.open_iff.2 hshown⟩, rfl⟩
    obtain ⟨r, hr, rfl⟩ := List.mem_map.1 hm
    obtain ⟨i, hi⟩ := List.mem_iff_getElem?.1 hr
    obtain rfl : r.node = n := Option.some.inj ((at?_of_ofTree hv hr).1.symm.trans hn)
    exact ⟨i, r, hi, rfl, hl⟩
  · rintro ⟨i, r, hi, rfl, hl⟩
    have hr := List.mem_of_getElem? hi
    have hm : r.path ∈ view.map Row.path := List.mem_map_of_mem hr
    rw [paths_of_ofTree hv, List.mem_map] at hm
    obtain ⟨⟨p, n⟩, hm, hp⟩ := hm
    obtain ⟨q, hq, -, ho⟩ := (Node.mem_visible_iff t.root).1 hm
    obtain rfl : q = r.path := hq.symm.trans hp
    exact ⟨hc.open_iff.1 ho, r.node, (at?_of_ofTree hv hr).1, hl⟩

/-- Row `i` with the node `r.node` is where the cursor on a line of a source file leads: no node on
display starts on a later line up to that one, and none that starts with it stands further down. -/
structure Leads (t : Tree) (view : View) (line : Int) (i : Nat) (r : Row) (location : Location)
    (target : SourceLine) : Prop where
  row : view[i]? = some r
  located : r.node.payload.location? t.uri true = some location
  reached : location.firstLine ≤ line
  nearest : ∀ path other, t.Locates path other → other.firstLine ≤ line →
    other.firstLine ≤ location.firstLine
  last : ∀ (j : Nat) (x : Row) (other : Location), view[j]? = some x →
    x.node.payload.location? t.uri true = some other → other.firstLine = location.firstLine → j ≤ i
  number : target.line = i + 1
  uri : target.uri = location.uri
  path : Uri.filePath? location.uri = .ok target.path

/-- A line is in the map if a node on display starts on it. -/
theorem exists_get?_sourceMap (hv : ofTree t style = .ok view) (hc : t.root.Counted) :
    (∃ target, view.sourceMap.get? line = some target) ↔
      ∃ path location, t.Locates path location ∧ location.firstLine = line := by
  rw [exists_get?_iff]
  constructor
  · rintro ⟨r, hr, source, hs, hline⟩
    obtain ⟨i, hi⟩ := List.mem_iff_getElem?.1 hr
    have hl := (source_of_ofTree hv hr).1
    rw [hs] at hl
    exact ⟨r.path, source.2, (locates_iff hv hc).2 ⟨i, r, hi, rfl, hl.symm⟩, hline⟩
  · rintro ⟨path, location, hlocates, hline⟩
    obtain ⟨i, r, hi, -, hl⟩ := (locates_iff hv hc).1 hlocates
    have hr := List.mem_of_getElem? hi
    have hsource := (source_of_ofTree hv hr).1
    rw [hl] at hsource
    obtain ⟨source, hs, rfl⟩ := Option.map_eq_some_iff.1 hsource
    exact ⟨r, hr, source, hs, hline⟩

/-- **The nearest line of the map leads to the last row of the greatest line.** -/
theorem exists_leads (hv : ofTree t style = .ok view) (hc : t.root.Counted)
    (hm : t.sourceMap = view.sourceMap) {target : SourceLine}
    (ht : t.nearestSourceLine? line = some target) :
    ∃ i r location, Leads t view line i r location target := by
  obtain ⟨k, hle, hk, hmax⟩ := Tree.nearestSourceLine?_eq_some.1 ht
  rw [hm] at hk
  obtain ⟨i, ⟨file, location⟩, ⟨⟨r, hr, hs⟩, hstarts, hlast⟩, rfl⟩ := get?_sourceMap.1 hk
  obtain ⟨hl, hfile⟩ := source_of_ofTree hv (List.mem_of_getElem? hr)
  rw [hs] at hl
  have hstarts : location.firstLine = k := hstarts
  refine ⟨i, r, location, hr, hl.symm, ?_, ?_, ?_, rfl, rfl, hfile file location hs⟩
  · omega
  · intro path other hother hreached
    obtain ⟨target', ht'⟩ := (exists_get?_sourceMap hv hc).2 ⟨path, other, hother, rfl⟩
    rw [← hm] at ht'
    have hkmax := hmax other.firstLine target' ht' hreached
    omega
  · intro j x other hx hother hsame
    have hxsource := (source_of_ofTree hv (List.mem_of_getElem? hx)).1
    rw [hother] at hxsource
    obtain ⟨source, hxs, rfl⟩ := Option.map_eq_some_iff.1 hxsource
    exact hlast j x source hx hxs (by omega)

end View

namespace Session

variable {s t : Session} {id : TreeId} {view : View} {line : Int}

/-- The session with the cursor followed. -/
def following (s : Session) : Session := { s with settings := { s.settings with autoFollow := true } }

/-- Where the cursor is followed, it leads to the nearest line before. -/
theorem follow?_of_autoFollow (ho : s.isOpen id) (ha : s.settings.autoFollow) :
    s.follow? id line = (s.tree id).nearestSourceLine? line := by
  rw [follow?, sourceLine?, if_pos ho, ha, ho]
  cases hl : (s.tree id).sourceLine? line with
  | none => rfl
  | some target =>
    symm
    exact Tree.nearestSourceLine?_eq_some.2 ⟨line, Int.le_refl line, hl, fun _ _ _ hle => hle⟩

/-- Where it is not, only a line on which a symbol starts leads anywhere. -/
theorem follow?_of_not_autoFollow (ho : s.isOpen id) (ha : s.settings.autoFollow = false) :
    s.follow? id line = (s.tree id).sourceLine? line := by
  rw [follow?, sourceLine?, if_pos ho, ha]
  cases (s.tree id).sourceLine? line <;> rfl

/-- A tree that was drawn was open, and is as it was drawn now. -/
theorem of_render (hr : render id s = .ok view t) :
    s.isOpen id ∧ View.ofTree (s.tree id) s.style = .ok view ∧ t = s.shown id view := by
  by_cases ho : s.isOpen id
  · exact ⟨ho, (ends_render ho).of_ok hr⟩
  · have hchecks : (render id).Ends s (fun _ _ => False) fun _ _ => True := by
      unfold render
      refine .bind (checks_open.mono ?_ fun _ _ _ => trivial)
      rintro _ _ ⟨rfl, hopen⟩
      exact absurd hopen ho
    exact (hchecks.of_ok hr).elim

/-- What the cursor on a line of a source file leads to in an open tree as it is on display. -/
structure FollowsCursor (s : Session) (id : TreeId) (view : View) (line : Int) : Prop where
  /-- Nothing, if no node on display starts on the line or before. -/
  nothing : s.settings.autoFollow →
    (s.follow? id line = none ↔
      ∀ path location, (s.tree id).Locates path location → line < location.firstLine)
  /-- Otherwise the last row of the greatest line up to there, which is for the node that starts
  on it. -/
  row : s.settings.autoFollow → ∀ target, s.follow? id line = some target →
    ∃ i r location, View.Leads (s.tree id) view line i r location target ∧
      ∃ ref, s.nodeAt? id target.line = some ref ∧ s.node ref = r.node
  /-- If the cursor is not followed, it leads there only from a line on which a node starts. -/
  same : s.settings.autoFollow = false →
    (∃ path location, (s.tree id).Locates path location ∧ location.firstLine = line) →
      s.follow? id line = s.following.follow? id line
  otherwise : s.settings.autoFollow = false →
    (¬∃ path location, (s.tree id).Locates path location ∧ location.firstLine = line) →
      s.follow? id line = none

/-- A tree in step with its rows. -/
theorem Depicts.followsCursor {buffer : Buffer} (hd : s.Depicts id buffer view) (hs : s.Sound)
    (ho : s.isOpen id) (line : Int) : s.FollowsCursor id view line := by
  have hc := (hs.grown id).counted
  have hmap (k : Int) : (∃ target, (s.tree id).sourceMap.get? k = some target) ↔
      ∃ path location, (s.tree id).Locates path location ∧ location.firstLine = k := by
    rw [hd.sourceMap]
    exact View.exists_get?_sourceMap hd.drawn hc
  constructor
  · intro ha
    rw [follow?_of_autoFollow ho ha, Tree.nearestSourceLine?_eq_none]
    constructor
    · intro h path location hlocates
      obtain ⟨target, ht⟩ := (hmap _).2 ⟨path, location, hlocates, rfl⟩
      exact h _ target ht
    · intro h k target ht
      obtain ⟨path, location, hlocates, rfl⟩ := (hmap k).1 ⟨target, ht⟩
      exact h path location hlocates
  · intro ha target ht
    rw [follow?_of_autoFollow ho ha] at ht
    obtain ⟨i, r, location, hleads⟩ := View.exists_leads hd.drawn hc hd.sourceMap ht
    obtain ⟨ref, hat, -, hnode, -⟩ := hd.rows ho hleads.row
    rw [← hleads.number] at hat
    exact ⟨i, r, location, hleads, ref, hat, hnode⟩
  · intro ha hstarts
    obtain ⟨target, ht⟩ := (hmap line).2 hstarts
    have hnearest : (s.tree id).nearestSourceLine? line = some target :=
      Tree.nearestSourceLine?_eq_some.2 ⟨line, Int.le_refl line, ht, fun _ _ _ hle => hle⟩
    have hfollowing : s.following.follow? id line = (s.tree id).nearestSourceLine? line :=
      follow?_of_autoFollow (s := s.following) ho rfl
    rw [follow?_of_not_autoFollow ho ha, hfollowing, hnearest]
    exact ht
  · intro ha hnone
    rw [follow?_of_not_autoFollow ho ha]
    by_contra hsome
    obtain ⟨target, ht⟩ := Option.ne_none_iff_exists'.1 hsome
    exact hnone ((hmap line).1 ⟨target, ht⟩)

/-- **The cursor leads to the right row**: once a tree is drawn, in any session that a run leads to,
every line of a source file leads to the last of the rows on display that start on the greatest line
up to it. -/
theorem followsCursor_steps (client : Client) (settings : Settings) (root : Path) (now : Number)
    (events : List Event)
    (rendered : render id ((start client settings root now).steps events) = .ok view t)
    (line : Int) : t.FollowsCursor id view line := by
  obtain ⟨ho, hv, rfl⟩ := of_render rendered
  have hd := drawn_steps client settings root now events
  have hot : (((start client settings root now).steps events).shown id view).isOpen id :=
    (isOpen_shown _ _ _).trans ho
  obtain ⟨buffer, hshows⟩ := hd.shows_shown ho hv
  exact hshows.depicts.followsCursor (hd.shown ho hv).sound hot line

/-- All symbols of the outline start on the first line, and the last of them is on row five. -/
theorem followsCursor_outlinedRun : ∃ view t,
    render 0 (freshSession.steps outlinedRun) = .ok view t ∧ t.FollowsCursor 0 view 1 ∧
      (t.follow? 0 1).map SourceLine.line = some 5 := by
  have hok : (match render 0 (freshSession.steps outlinedRun) with
    | .ok _ t => (t.follow? 0 1).map SourceLine.line == some 5
    | .error .. => false) = true := by decide +kernel
  cases hr : render 0 (freshSession.steps outlinedRun) with
  | error e t =>
    rw [hr] at hok
    cases hok
  | ok view t =>
    rw [hr] at hok
    exact ⟨view, t, rfl, followsCursor_steps .server _ _ _ outlinedRun hr 1, beq_iff_eq.1 hok⟩

end Session

end SymbolTrees
