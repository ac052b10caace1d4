import SymbolTrees.Proofs.Action
import SymbolTrees.Session.Resolution

/-!
# Recordings

What a recording says about calls and symbols, read from its tables as they stand, and which
recordings are well-formed. A well-formed recording has an answer to everything that a tree of calls
asks, and the answer says the same.
-/

namespace SymbolTrees

/-- A list can be read if all its entries can. -/
theorem Except.mapM_of_forall {ε α β : Type} {f : α → Except ε β} (xs : List α)
    (h : ∀ x ∈ xs, ∃ y, f x = .ok y) :
    xs.mapM f = .ok (xs.filterMap fun x => (f x).toOption) := by
  induction xs with
  | nil => rfl
  | cons x xs ih =>
    obtain ⟨⟨y, hy⟩, hxs⟩ := List.forall_mem_cons.1 h
    rw [List.mapM_cons, ih hxs, hy, List.filterMap_cons, hy]
    rfl

namespace Server.Recording

variable {recording : Json.Fields} {table name : Text} {direction : CallDirection}
  {item : CallItem} {isEntry : Json → Bool}

/-! ### What is recorded -/

/-- What a table of a recording lists under a name. -/
def listed (recording : Json.Fields) (table name : Text) : List Json :=
  match recording.get? table with
  | some (.obj lists) =>
    match Table.get? lists name with
    | some (.arr entries) => entries
    | _ => []
  | _ => []

/-- The table of the calls in a direction. -/
def callTable (direction : CallDirection) : Text := direction.text ++ "Calls"

/-- The calls that are recorded under a name: the entries that are objects, in their order. -/
def calls (recording : Json.Fields) (direction : CallDirection) (name : Text) : List Call :=
  ((listed recording (callTable direction) name).filter Json.isObject).filterMap fun entry =>
    (Call.ofJson entry direction.peer).toOption

/-- The symbol for an item among those that are recorded under its name. -/
def symbol? (recording : Json.Fields) (item : CallItem) : Option LocatedSymbol :=
  match LocatedSymbol.find? item (.arr (listed recording "workspaceSymbols" item.name)) with
  | .ok symbol => symbol
  | .error _ => none

/-! ### Well-formed recordings -/

/-- A URI that can be taken apart. -/
def isUri (s : Text) : Bool :=
  match Uri.ofText s with
  | .ok _ => true
  | .error _ => false

/-- An object that a call item can be read from, with a text for its name. -/
def isItem : Json → Bool
  | .obj fields =>
    match Table.get? fields "name", CallItem.ofFields fields with
    | some (.str _), .ok item => isUri item.uri
    | _, _ => false
  | _ => false

/-- A call with an item at its other end; what is no object is not read. -/
def isCall (direction : CallDirection) : Json → Bool
  | .obj fields =>
    match Table.get? fields direction.peer, Call.ofJson (.obj fields) direction.peer with
    | some peer, .ok _ => isItem peer
    | _, _ => false
  | _ => true

/-- A symbol with a location; what is no object is not read. -/
def isSymbol : Json → Bool
  | .obj fields =>
    match LocatedSymbol.ofJson (.obj fields) with
    | .ok symbol => isUri symbol.location.uri
    | .error _ => false
  | _ => true

/-- Lists by names, with entries of one sort; the table may be missing. -/
def isTable (isEntry : Json → Bool) : Option Json → Bool
  | none => true
  | some (.obj lists) => lists.all fun list =>
    match list.2 with
    | .arr entries => entries.all isEntry
    | _ => false
  | _ => false

/-- A recording with an item, and with tables in which everything can be read. -/
def isWellFormed (recording : Json.Fields) : Bool :=
  (recording.get? "item").any isItem &&
    isTable (isCall .incoming) (recording.get? (callTable .incoming)) &&
    isTable (isCall .outgoing) (recording.get? (callTable .outgoing)) &&
    isTable isSymbol (recording.get? "workspaceSymbols")

/-! ### Tables -/

theorem isEntry_of_mem_listed (h : isTable isEntry (recording.get? table)) {entry : Json}
    (hm : entry ∈ listed recording table name) : isEntry entry := by
  unfold listed at hm
  cases ht : recording.get? table with
  | none =>
    rw [ht] at hm
    cases hm
  | some value =>
    rw [ht] at h hm
    cases value with
    | obj lists =>
      dsimp only at hm
      cases hl : Table.get? lists name with
      | none =>
        rw [hl] at hm
        cases hm
      | some list =>
        rw [hl] at hm
        have hlist := List.all_eq_true.1 h _ (Table.mem_of_get? hl)
        cases list with
        | arr entries => exact List.all_eq_true.1 hlist entry hm
        | _ => cases hm
    | _ => cases h

/-- A table is read as it stands. -/
theorem entriesFor_eq (h : isTable isEntry (recording.get? table)) (name : Text) :
    entriesFor (.obj recording) table (.str name) = .ok (.arr (listed recording table name)) := by
  have hpart : (Json.obj recording).part table =
      .ok ((Json.present? (recording.get? table)).getD (.obj [])) := rfl
  unfold entriesFor listed
  rw [hpart]
  cases ht : recording.get? table with
  | none => rfl
  | some value =>
    rw [ht] at h
    cases value with
    | obj lists =>
      have hfields : (Json.present? (some (.obj lists))).getD (.obj []) = .obj lists := by
        cases lists <;> rfl
      rw [hfields]
      dsimp only
      change (do return Json.arr (← ((Table.get? lists name).getD (.arr [])).entries)) = _
      cases hl : Table.get? lists name with
      | none => rfl
      | some list =>
        have hlist := List.all_eq_true.1 h _ (Table.mem_of_get? hl)
        cases list with
        | arr entries => rfl
        | _ => cases hlist
    | _ => cases h

/-! ### Items -/

/-- An item that a server gets back under its name, with a URI that can be taken apart. -/
structure IsRecorded (item : CallItem) : Prop where
  name : Table.get? item.source "name" = some (.str item.name)
  uri : isUri item.uri

theorem isRecorded_of_isItem {data : Json} (h : isItem data) (hread : CallItem.ofJson data = .ok item) :
    IsRecorded item := by
  cases data with
  | obj fields =>
    have hread : CallItem.ofFields fields = .ok item := hread
    unfold isItem at h
    dsimp only at h
    rw [hread] at h
    cases hn : Table.get? fields "name" with
    | none =>
      rw [hn] at h
      cases h
    | some value =>
      rw [hn] at h
      cases value with
      | str name =>
        have hlabel : (Json.obj fields).labelField "name" = .ok name := by
          change Except.ok (((Table.get? fields "name").map Json.label).getD []) = _
          rw [hn]
          rfl
        unfold CallItem.ofFields at hread
        obtain ⟨range, -, hread⟩ := Except.of_bind hread
        obtain ⟨name', hname, hread⟩ := Except.of_bind hread
        obtain rfl := Except.ok.inj (hlabel.symm.trans hname)
        obtain ⟨kind, -, hread⟩ := Except.of_bind hread
        obtain ⟨uri, -, hread⟩ := Except.of_bind hread
        obtain ⟨selection, -, hread⟩ := Except.of_bind hread
        obtain ⟨detail, -, hread⟩ := Except.of_bind hread
        obtain rfl := Except.ok.inj hread
        exact ⟨hn, h⟩
      | _ => cases h
  | _ => cases h

section WellFormed

variable (h : isWellFormed recording)
include h

theorem isTable_calls (direction : CallDirection) :
    isTable (isCall direction) (recording.get? (callTable direction)) := by
  simp only [isWellFormed, Bool.and_eq_true] at h
  cases direction with
  | incoming => exact h.1.1.2
  | outgoing => exact h.1.2

theorem isTable_symbols : isTable isSymbol (recording.get? "workspaceSymbols") := by
  simp only [isWellFormed, Bool.and_eq_true] at h
  exact h.2

/-- The item of the recording can be read. -/
theorem exists_item : ∃ fields item, recording.get? "item" = some (.obj fields) ∧
    CallItem.ofFields fields = .ok item ∧ IsRecorded item := by
  simp only [isWellFormed, Bool.and_eq_true] at h
  obtain ⟨data, hd, hitem⟩ := (Option.any_eq_true ..).1 h.1.1.1
  cases data with
  | obj fields =>
    cases hread : CallItem.ofFields fields with
    | ok item => exact ⟨fields, item, hd, hread, isRecorded_of_isItem hitem hread⟩
    | error e =>
      unfold isItem at hitem
      dsimp only at hitem
      rw [hread] at hitem
      cases hn : Table.get? fields "name" with
      | none =>
        rw [hn] at hitem
        cases hitem
      | some value =>
        rw [hn] at hitem
        cases value <;> cases hitem
  | _ => cases hitem

/-- What is recorded as calls is read as calls. -/
theorem callsOf_listed (direction : CallDirection) (name : Text) :
    Session.callsOf direction (.arr (listed recording (callTable direction) name)) =
      .ok (calls recording direction name) := by
  have hobjects (entries : List Json) :
      Session.objects (.arr entries) = .ok (entries.filter Json.isObject) := by
    cases entries <;> rfl
  unfold Session.callsOf calls
  rw [hobjects]
  refine Except.mapM_of_forall _ fun entry hm => ?_
  obtain ⟨hm, hobject⟩ := List.mem_filter.1 hm
  have hcall := isEntry_of_mem_listed (isTable_calls h direction) hm
  cases entry with
  | obj fields =>
    unfold isCall at hcall
    dsimp only at hcall
    cases hread : Call.ofJson (.obj fields) direction.peer with
    | ok call => exact ⟨call, rfl⟩
    | error e =>
      rw [hread] at hcall
      cases hp : Table.get? fields direction.peer <;> rw [hp] at hcall <;> cases hcall
  | _ => cases hobject

/-- At the other end of a recorded call is a recorded item. -/
theorem isRecorded_of_mem_calls {call : Call} (hm : call ∈ calls recording direction name) :
    IsRecorded call.item := by
  obtain ⟨entry, hm, hread⟩ := List.mem_filterMap.1 hm
  obtain ⟨hm, hobject⟩ := List.mem_filter.1 hm
  have hcall := isEntry_of_mem_listed (isTable_calls h direction) hm
  cases hx : Call.ofJson entry direction.peer with
  | error e =>
    rw [hx] at hread
    cases hread
  | ok call' =>
    rw [hx] at hread
    obtain rfl := Option.some.inj hread
    cases entry with
    | obj fields =>
      unfold isCall at hcall
      dsimp only at hcall
      rw [hx] at hcall
      cases hp : Table.get? fields direction.peer with
      | none =>
        rw [hp] at hcall
        cases hcall
      | some peer =>
        rw [hp] at hcall
        have hpart : (Json.obj fields).part direction.peer = .ok peer := by
          change Except.ok ((Json.present? (Table.get? fields direction.peer)).getD (.obj [])) = _
          rw [hp]
          cases peer with
          | obj peer => cases peer <;> rfl
          | _ => cases hcall
        unfold Call.ofJson at hx
        obtain ⟨peer', hpeer, hx⟩ := Except.of_bind hx
        obtain rfl := Except.ok.inj (hpart.symm.trans hpeer)
        obtain ⟨item, hitem, hx⟩ := Except.of_bind hx
        obtain ⟨field, -, hx⟩ := Except.of_bind hx
        obtain ⟨entries, -, hx⟩ := Except.of_bind hx
        obtain ⟨ranges, -, hx⟩ := Except.of_bind hx
        obtain rfl := Except.ok.inj hx
        exact isRecorded_of_isItem hcall hitem
    | _ => cases hobject

/-- Recorded symbols can be read, whatever item they are compared with. -/
theorem find?_listed (item : CallItem) (name : Text) : ∃ symbol,
    LocatedSymbol.find? item (.arr (listed recording "workspaceSymbols" name)) = .ok symbol ∧
      ∀ found, symbol = some found → isUri found.location.uri := by
  have hsymbols {entry : Json} (hm : entry ∈ listed recording "workspaceSymbols" name) :=
    isEntry_of_mem_listed (isTable_symbols h) hm
  unfold LocatedSymbol.find?
  dsimp only
  generalize listed recording "workspaceSymbols" name = entries at hsymbols
  induction entries with
  | nil => exact ⟨none, rfl, fun _ he => by cases he⟩
  | cons entry rest ih =>
    have ih := ih fun hm => hsymbols (List.mem_cons_of_mem _ hm)
    have hentry := hsymbols List.mem_cons_self
    unfold LocatedSymbol.firstFor
    cases entry with
    | obj fields =>
      unfold isSymbol at hentry
      dsimp only at hentry
      change ∃ found, (LocatedSymbol.ofJson (.obj fields) >>= fun symbol =>
        if symbol.describes item then pure (some symbol) else _) = _ ∧ _
      cases hread : LocatedSymbol.ofJson (.obj fields) with
      | error e =>
        rw [hread] at hentry
        cases hentry
      | ok symbol =>
        rw [hread] at hentry
        change ∃ found, (if symbol.describes item then pure (some symbol) else _) = _ ∧ _
        split
        · exact ⟨some symbol, rfl, fun found he => Option.some.inj he ▸ hentry⟩
        · exact ih
    | _ => exact ih

/-! ### Answers -/

/-- The calls of a recorded item are answered with the list under its name. -/
theorem answer_calls (hi : IsRecorded item) (direction : CallDirection) :
    answer (.obj recording) (Request.calls direction item).method
      (Request.calls direction item).params =
        .ok (.arr (listed recording (callTable direction) item.name)) := by
  have hsource : item.toJson = .obj item.source := by
    unfold CallItem.toJson
    cases hs : item.source with
    | nil =>
      have hn := hi.name
      rw [hs] at hn
      cases hn
    | cons field rest => rfl
  have hname : nameIn (.obj item.source) "name" = .ok (.str item.name) := by
    change Except.ok ((Table.get? item.source "name").getD (.str "")) = _
    rw [hi.name]
    rfl
  have hpart : (Request.calls direction item).params.part "item" = .ok (.obj item.source) := by
    change Except.ok ((Json.present? (some item.toJson)).getD (.obj [])) = _
    rw [hsource]
    cases item.source <;> rfl
  change ((Request.calls direction item).params.part "item" >>= fun part =>
    nameIn part "name" >>= entriesFor (.obj recording) (callTable direction)) = _
  rw [hpart]
  change (nameIn (.obj item.source) "name" >>= entriesFor (.obj recording) (callTable direction)) = _
  rw [hname]
  exact entriesFor_eq (isTable_calls h direction) item.name

/-- A search for a name is answered with the list under it. -/
theorem answer_symbols (name : Text) :
    answer (.obj recording) (Request.workspaceSymbols name).method
      (Request.workspaceSymbols name).params =
        .ok (.arr (listed recording "workspaceSymbols" name)) :=
  entriesFor_eq (isTable_symbols h) name

end WellFormed

end Server.Recording

end SymbolTrees
