import SymbolTrees.Proofs.Action
import SymbolTrees.Symbol.CallItem

/-!
# Call items written and read back

A server gets back the object that it sent. For an item that came with no object, one is written of
its parsed fields, and it reads as the same item (`CallItem.ofFields_parsedFields`): an unknown kind
is written as a code that no kind has, and the range of the name is written even where it is the
range of the whole.
-/

namespace SymbolTrees

/-! ### The parts of an item -/

theorem Range.ofJson_toJson (r : Range) : ofJson r.toJson = .ok r := rfl

theorem Range.ofPart_of_get? {fields : Json.Fields} {name : Text} {r : Range}
    (h : Table.get? fields name = some r.toJson) : ofPart (.obj fields) name = .ok r := by
  have part : (Json.obj fields).part name = .ok r.toJson := by
    show Except.ok ((Json.present? (Table.get? fields name)).getD (.obj [])) = _
    rw [h]
    rfl
  rw [ofPart, part]
  exact ofJson_toJson r

/-- A range that is written is no empty object, so it is not taken for a missing one. -/
theorem Range.selectionOf_of_get? {fields : Json.Fields} {r : Range} (whole : Range)
    (h : Table.get? fields "selectionRange" = some r.toJson) :
    selectionOf (.obj fields) whole = .ok r := by
  have written : Json.present? (Table.get? fields "selectionRange") = some r.toJson := by
    rw [h]
    rfl
  have field : (Json.obj fields).field? "selectionRange" =
      .ok (Table.get? fields "selectionRange") := rfl
  rw [selectionOf, field]
  simp only [bind, Except.bind, written]
  exact ofJson_toJson r

/-- A kind is read from its code, and none from the code that stands for none. -/
theorem SymbolKind.ofJson?_code (kind : Option SymbolKind) :
    ofJson? (some (.ofInt ((kind.map code).getD 0))) = kind := by
  cases kind with
  | none => rfl
  | some k => exact ofCode?_code k

namespace CallItem

/-- A detail that is not written is missing, and an empty one is written. -/
theorem textField?_parsedFields (item : CallItem) :
    (Json.obj item.parsedFields).textField? "detail" = .ok item.detail := by
  unfold parsedFields
  cases item.detail with
  | none => rfl
  | some detail => rfl

/-! ### The whole -/

/-- **The object of the parsed fields** is read as the item that it was written of. -/
theorem ofFields_parsedFields (item : CallItem) :
    ofFields item.parsedFields = .ok { item with source := item.parsedFields } := by
  have range : Range.ofPart (.obj item.parsedFields) "range" = .ok item.range :=
    Range.ofPart_of_get? rfl
  have name : (Json.obj item.parsedFields).labelField "name" = .ok item.name := rfl
  have kind : (Json.obj item.parsedFields).field? "kind" =
      .ok (some (.ofInt ((item.kind.map SymbolKind.code).getD 0))) := rfl
  have uri : (Json.obj item.parsedFields).labelField "uri" = .ok item.uri := rfl
  have selection : Range.selectionOf (.obj item.parsedFields) item.range = .ok item.selection :=
    Range.selectionOf_of_get? item.range rfl
  simp only [ofFields, bind, Except.bind, range, name, kind, uri, selection,
    textField?_parsedFields, SymbolKind.ofJson?_code]
  rfl

/-- An item keeps the object that it was read of. -/
theorem of_ofJson {data : Json} {item : CallItem} (h : ofJson data = .ok item) :
    ∃ o, data = .obj o ∧ item.source = o := by
  obtain ⟨o, ho, h⟩ := Except.of_bind h
  have hdata : data = .obj o := by
    cases data with
    | obj fields => exact congrArg _ (Except.ok.inj ho)
    | _ => cases ho
  obtain ⟨range, -, h⟩ := Except.of_bind h
  obtain ⟨name, -, h⟩ := Except.of_bind h
  obtain ⟨kind, -, h⟩ := Except.of_bind h
  obtain ⟨uri, -, h⟩ := Except.of_bind h
  obtain ⟨selection, -, h⟩ := Except.of_bind h
  obtain ⟨detail, -, h⟩ := Except.of_bind h
  exact ⟨o, hdata, (congrArg CallItem.source (Except.ok.inj h)).symm⟩

theorem toJson_of_source {item : CallItem} {o : Json.Fields} (kept : item.source = o)
    (full : o ≠ []) : item.toJson = .obj o := by
  rw [toJson, kept, if_neg (by simpa using full)]

/-- **Writing and reading undo each other.** An item without an object comes back with the same
fields, whatever they are, and an item that was read of an object is written as that object and read
as itself. -/
theorem written_read :
    (∀ item : CallItem, item.source = [] →
      ∃ back, ofJson item.toJson = .ok back ∧ { back with source := [] } = item) ∧
    ∀ o : Json.Fields, o ≠ [] → ∀ item, ofJson (.obj o) = .ok item →
      item.toJson = .obj o ∧ ofJson item.toJson = .ok item := by
  constructor
  · intro item bare
    have written : item.toJson = .obj item.parsedFields := by
      rw [toJson, bare]
      rfl
    refine ⟨{ item with source := item.parsedFields }, ?_, by rw [← bare]⟩
    rw [written]
    exact ofFields_parsedFields item
  · intro o full item read
    obtain ⟨o', same, kept⟩ := of_ofJson read
    obtain rfl := Json.obj.inj same
    have written := toJson_of_source kept full
    exact ⟨written, written ▸ read⟩

/-- An item of an unknown kind with an empty detail, without an object. -/
def anonymous : CallItem where
  name := []
  kind := none
  uri := "file:///ws/a.py"
  range := ⟨⟨-1, 2⟩, ⟨3, 4⟩⟩
  selection := ⟨⟨0, 0⟩, ⟨0, 0⟩⟩
  detail := some []
  source := []

/-- An object with a field that no item has, without a range for the name. -/
def tagged : Json.Fields :=
  [("data", .arr [.null]), ("name", .ofInt 5), ("kind", .ofInt 12),
    ("range", .obj [("start", .obj [("line", .str " 7 ")])])]

theorem written_read_anonymous_tagged :
    (∃ back, ofJson anonymous.toJson = .ok back ∧ { back with source := [] } = anonymous) ∧
    ∃ item, ofJson (.obj tagged) = .ok item ∧ item.toJson = .obj tagged ∧
      ofJson item.toJson = .ok item := by
  have read : ∃ item, ofJson (.obj tagged) = .ok item := ⟨_, rfl⟩
  obtain ⟨item, read⟩ := read
  exact ⟨written_read.1 anonymous rfl, item, read,
    written_read.2 tagged (List.cons_ne_nil _ _) item read⟩

end CallItem

end SymbolTrees
