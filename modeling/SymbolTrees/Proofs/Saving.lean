import SymbolTrees.Proofs.Folder
import SymbolTrees.Proofs.Json.RoundTrip
import SymbolTrees.Proofs.Settings

/-!
# Saving settings

Settings are written over the fields of the file, whatever these are: the fields of the settings
keep their places and all others stay as they are. What was saved is loaded again, and to save it
once more makes no difference to the bytes of the file. Where the file lies behind another file it
cannot be written, and nothing changes.

Main statement: `SettingsFile.keeps_or_refuses`.
-/

namespace SymbolTrees

open Json Json.Reader Text

namespace IconSet

/-- The name of a set stands for that set. -/
theorem normalName_normalName (name : Option Text) :
    normalName (some (normalName name)) = normalName name := by
  have known : ∀ icons ∈ all, ofName (some icons.name) = icons := by decide
  rw [normalName, normalName, known _ (ofName_mem_all name)]

end IconSet

namespace Settings

variable {settings : Settings} {x : Float} {fields : Fields}

/-- The settings under the name of a set of icons that exists. -/
def normal (settings : Settings) : Settings :=
  { settings with icons := IconSet.normalName (some settings.icons) }

/-! ### The fields of the settings -/

/-- The fields that settings with this timeout are stored in. -/
def entries (settings : Settings) (x : Float) : Fields :=
  [("icons", .str (IconSet.normalName (some settings.icons))),
   ("indent_guides", .bool settings.guides),
   ("resolve_symbols", .bool settings.resolveSymbols),
   ("request_timeout", .num (.float x)),
   ("auto_follow", .bool settings.autoFollow)]

/-- The fields of a file with those of the settings written over them; fields of the settings that
the file does not have come after all others. -/
def overwritten (settings : Settings) (x : Float) (fields : Fields) : Fields :=
  fields.map (fun field => (field.1, ((settings.entries x).get? field.1).getD field.2)) ++
    (settings.entries x).filter fun entry => entry.1 ∉ fields.map Prod.fst

theorem nodup_entries : ((settings.entries x).map Prod.fst).Nodup := by
  have names : (["icons", "indent_guides", "resolve_symbols", "request_timeout",
      "auto_follow"].map Text.ofString).Nodup :=
    List.Nodup.map (fun _ _ => Text.ofString_inj.1) (by decide)
  exact names

theorem putInto_eq_foldl (timeout : settings.timeout = .float x) (fields : Fields) :
    settings.putInto fields =
      .ok ((settings.entries x).foldl (fun table entry => table.put entry.1 entry.2) fields) := by
  rw [putInto, timeout]
  rfl

theorem overwritten_eq_foldl (distinct : (fields.map Prod.fst).Nodup) :
    settings.overwritten x fields =
      (settings.entries x).foldl (fun table entry => table.put entry.1 entry.2) fields := by
  rw [overwritten, Table.foldl_put distinct nodup_entries]
  exact congrArg _ (List.filter_congr fun _ _ => decide_eq_decide.2 Iff.rfl)

theorem putInto_eq (timeout : settings.timeout = .float x)
    (distinct : (fields.map Prod.fst).Nodup) :
    settings.putInto fields = .ok (settings.overwritten x fields) := by
  rw [putInto_eq_foldl timeout, overwritten_eq_foldl distinct]

theorem get?_overwritten (distinct : (fields.map Prod.fst).Nodup) {entry : Text × Json}
    (mem : entry ∈ settings.entries x) :
    (settings.overwritten x fields).get? entry.1 = some entry.2 := by
  rw [overwritten_eq_foldl distinct, Table.get?_foldl_put nodup_entries,
    Table.get?_of_mem nodup_entries mem]
  rfl

theorem putInto_overwritten (timeout : settings.timeout = .float x)
    (distinct : (fields.map Prod.fst).Nodup) :
    settings.putInto (settings.overwritten x fields) = .ok (settings.overwritten x fields) := by
  rw [putInto_eq_foldl timeout, Table.foldl_put_of_get? fun _ => get?_overwritten distinct]

/-- The settings are read back from the fields that they were written over. -/
theorem ofFields_overwritten (timeout : settings.timeout = .float x) (positive : 0 < x)
    (distinct : (fields.map Prod.fst).Nodup) :
    ofFields (settings.overwritten x fields) = .ok settings.normal := by
  have there := @get?_overwritten settings x fields distinct
  simp only [entries, List.forall_mem_cons] at there
  obtain ⟨icons, guides, resolveSymbols, seconds, autoFollow, -⟩ := there
  have wait : timeoutOf (settings.overwritten x fields) = .ok settings.timeout := by
    rw [timeoutOf, seconds, timeout]
    simp only [if_neg (Rounding.not_le_zero_of_pos positive)]
    rfl
  simp only [ofFields, icons, toggle, guides, resolveSymbols, autoFollow, wait, Option.bind_some,
    Json.text?, IconSet.normalName_normalName]
  rfl

/-! ### The fields of a file -/

/-- Whatever the bytes of a file are, the fields that are read from it can be written. -/
theorem writable_stored (content : Option (List Nat)) : Writable (.obj (stored content)) := by
  unfold stored
  split
  next fields read =>
    obtain ⟨text, -, value⟩ := Option.bind_eq_some_iff.1 read
    exact writable_of_ofText? value
  next => exact .noFields

/-- The bytes of a file with these fields. -/
def bytes (fields : Fields) : List Nat :=
  ((Json.obj fields).toText ++ "\n").toList.flatMap Utf8.encode

/-- The fields that are written are read back. -/
theorem stored_bytes (writable : Writable (.obj fields)) :
    stored (some (bytes fields)) = fields := by
  unfold stored bytes
  rw [Option.bind_some, Utf8.decode?_encode, Option.bind_some]
  have back := ofText?_toText writable
  rw [ofString] at back
  rw [back]

theorem writable_overwritten (settings : Settings) (x : Float) (writable : Writable (.obj fields)) :
    Writable (.obj (settings.overwritten x fields)) := by
  have plain (s : String) : Parted (ofString s) := (plain_ofChars s.toList).parted
  rw [overwritten_eq_foldl writable.distinct]
  refine writable.foldl_put ?_
  simp only [entries, List.forall_mem_cons]
  exact ⟨⟨plain _, .str (plain _)⟩, ⟨plain _, .bool _⟩, ⟨plain _, .bool _⟩, ⟨plain _, .float x⟩,
    ⟨plain _, .bool _⟩, fun _ h => absurd h List.not_mem_nil⟩

end Settings

namespace SettingsFile

open SymbolTrees.CommandLine (Folder bytesOf)

/-- What a file holds after settings were saved in it. -/
structure Holds (saved : SettingsFile) (settings : Settings) (x : Float) (before : Fields) :
    Prop where
  written : ∃ bytes, saved = ⟨some bytes, true⟩
  /-- The settings are loaded again. -/
  load : Settings.load saved.content = .ok settings.normal
  /-- The fields of the settings are written over those that were there before. -/
  stored : Settings.stored saved.content = settings.overwritten x before
  /-- The same settings saved once more make no difference. -/
  again : saved.saveSettings settings = .ok (true, saved)

theorem saveSettings_of_putInto (file : SettingsFile) {settings : Settings} {fields : Fields}
    (put : settings.putInto (Settings.stored file.content) = .ok fields) :
    file.saveSettings settings = .ok (file.save (.obj fields)) := by
  rw [saveSettings, put]
  rfl

theorem save_of_writable (file : SettingsFile) (writable : file.writable = true)
    (fields : Fields) : file.save (.obj fields) = (true, ⟨some (Settings.bytes fields), true⟩) := by
  rw [save, if_pos writable, writable]
  rfl

/-- A file is left as it is if the settings are those it was written with. -/
theorem saveSettings_bytes {settings : Settings} {fields : Fields}
    (writable : Writable (.obj fields)) (same : settings.putInto fields = .ok fields) :
    saveSettings ⟨some (Settings.bytes fields), true⟩ settings =
      .ok (true, ⟨some (Settings.bytes fields), true⟩) := by
  have put : settings.putInto (Settings.stored (some (Settings.bytes fields))) = .ok fields := by
    rw [Settings.stored_bytes writable, same]
  rw [saveSettings_of_putInto ⟨some (Settings.bytes fields), true⟩ put, save_of_writable _ rfl]

/-- **Saving settings** with a positive timeout writes them over the fields of a file, if the file
can be written, and otherwise leaves the file as it is. -/
theorem saveSettings_cases (file : SettingsFile) {settings : Settings} {x : Float}
    (timeout : settings.timeout = .float x) (positive : 0 < x) :
    (file.writable = true ∧ ∃ saved, file.saveSettings settings = .ok (true, saved) ∧
        saved.Holds settings x (Settings.stored file.content)) ∨
      file.writable = false ∧ file.saveSettings settings = .ok (false, file) := by
  have before := Settings.writable_stored file.content
  have saves := saveSettings_of_putInto file (Settings.putInto_eq timeout before.distinct)
  cases writable : file.writable with
  | false =>
    refine .inr ⟨rfl, saves.trans ?_⟩
    rw [save, writable]
    rfl
  | true =>
    have after := Settings.writable_overwritten settings x before
    have back := Settings.stored_bytes after
    rw [save_of_writable file writable] at saves
    refine .inl ⟨rfl, _, saves, ⟨_, rfl⟩, ?_, back, ?_⟩
    · rw [Settings.load, back]
      exact Settings.ofFields_overwritten timeout positive before.distinct
    · exact saveSettings_bytes after (Settings.putInto_overwritten timeout before.distinct)

/-! ### Folders -/

section Within

variable {folder : Folder} {spot : Folder.Spot} {allowed : Bool} {settings : Settings} {x : Float}

/-- What a folder holds after settings were saved in the file at a spot. -/
structure Keeps (folder after : Folder) (spot : Folder.Spot) (allowed : Bool) (settings : Settings)
    (x : Float) : Prop where
  /-- The settings are loaded again. -/
  load : Settings.load (after.read spot) = .ok settings.normal
  /-- The fields of the settings are written over those that were there before. -/
  stored : Settings.stored (after.read spot) =
    settings.overwritten x (Settings.stored (folder.read spot))
  /-- The same settings saved once more make no difference. -/
  again : saveWithin after spot allowed settings = .ok (true, after)
  /-- All other files are as they were. -/
  others : ∀ names, names.map bytesOf ≠ folder.key spot →
    (after.entry names).bytes? = (folder.entry names).bytes?

theorem saveWithin_of_saveSettings {done : Bool} {saved : SettingsFile}
    (h : (within folder spot allowed).saveSettings settings = .ok (done, saved)) :
    saveWithin folder spot allowed settings = .ok (done, keepIn folder spot (done, saved)) := by
  rw [saveWithin, h]
  rfl

/-- Where a file can be written, the settings are kept. -/
theorem keeps_of_admits (timeout : settings.timeout = .float x) (positive : 0 < x)
    (system : allowed = true) (admits : folder.admits folder.here.names spot.names) :
    ∃ after, saveWithin folder spot allowed settings = .ok (true, after) ∧
      Keeps folder after spot allowed settings x := by
  have writable : (within folder spot allowed).writable = true :=
    Bool.and_eq_true_iff.2 ⟨system, admits⟩
  obtain ⟨-, saved, saves, holds⟩ | ⟨blocked, -⟩ :=
    saveSettings_cases (within folder spot allowed) timeout positive
  · obtain ⟨bytes, rfl⟩ := holds.written
    obtain ⟨read, again⟩ := Folder.read_put bytes admits
    have same : within (folder.put spot bytes) spot allowed = ⟨some bytes, true⟩ := by
      rw [within, read, system]
      exact congrArg _ again
    refine ⟨folder.put spot bytes, saveWithin_of_saveSettings saves, ?_, ?_, ?_, fun names hne => ?_⟩
    · rw [read]
      exact holds.load
    · rw [read]
      exact holds.stored
    · have kept := holds.again
      rw [← same] at kept
      rw [saveWithin_of_saveSettings kept, same]
      exact congrArg (fun after => Except.ok (true, after)) Folder.put_put
    · rw [Folder.bytes?_entry_put, if_neg hne]
  · rw [blocked] at writable
    cases writable

/-- Where no file can be written, nothing changes. -/
theorem saveWithin_of_not_admits (timeout : settings.timeout = .float x) (positive : 0 < x)
    (blocked : ¬(allowed = true ∧ folder.admits folder.here.names spot.names)) :
    saveWithin folder spot allowed settings = .ok (false, folder) := by
  obtain ⟨writable, -⟩ | ⟨-, fails⟩ :=
    saveSettings_cases (within folder spot allowed) timeout positive
  · exact absurd (Bool.and_eq_true_iff.1 writable) blocked
  · exact saveWithin_of_saveSettings fails

/-- **Saving settings** with a positive timeout writes them over the fields of the file at a spot, if
that can be written, and otherwise changes nothing. It cannot be written if what leads to it is a
file. -/
theorem keeps_or_refuses (folder : Folder) (spot : Folder.Spot) (allowed : Bool)
    {settings : Settings} {x : Float} (timeout : settings.timeout = .float x) (positive : 0 < x) :
    ((allowed = true ∧ folder.admits folder.here.names spot.names ∧
          ∃ after, saveWithin folder spot allowed settings = .ok (true, after) ∧
            Keeps folder after spot allowed settings x) ∨
        ¬(allowed = true ∧ folder.admits folder.here.names spot.names) ∧
          saveWithin folder spot allowed settings = .ok (false, folder)) ∧
      ∀ front rest bytes, spot.names = front ++ rest → rest ≠ [] →
        folder.follow folder.here.names front = .file bytes →
          saveWithin folder spot allowed settings = .ok (false, folder) := by
  constructor
  · by_cases can : allowed = true ∧ folder.admits folder.here.names spot.names
    · exact .inl ⟨can.1, can.2, keeps_of_admits timeout positive can.1 can.2⟩
    · exact .inr ⟨can, saveWithin_of_not_admits timeout positive can⟩
  · intro front rest bytes split more file
    refine saveWithin_of_not_admits timeout positive fun can => ?_
    have admits := can.2
    rw [split] at admits
    exact Folder.not_admits_of_follow file more admits

end Within

/-- A file with fields of other programs between fields of the settings, which are of wrong types
and of which one stands there twice. -/
def sharedBytes : List Nat :=
  ("\x7b\"theme\": [\"dark\"], \"request_timeout\": true, \"icons\": 3, ".toList ++
    "\"size\": 12, \"icons\": null\x7d".toList).map Char.toNat

/-- The settings lie in a directory of their own. -/
def ownSpot : Folder.Spot := ⟨["calltree", "config.json"], by decide +kernel⟩

/-- Settings that name a set of icons in another way. -/
def looseSettings : Settings := ⟨" Codicon", false, true, .float 2.5, true⟩

/-- They are saved beside the fields that were there, but not behind a file. -/
theorem keeps_sharedBytes :
    (∃ after, saveWithin ⟨⟨.root, []⟩, [(ownSpot.names, sharedBytes)]⟩ ownSpot true looseSettings =
        .ok (true, after) ∧
      Settings.load (after.read ownSpot) = .ok ⟨"codicons", false, true, .float 2.5, true⟩ ∧
      (Settings.stored (after.read ownSpot)).map Prod.fst = (["theme", "request_timeout", "icons",
        "size", "indent_guides", "resolve_symbols", "auto_follow"].map Text.ofString) ∧
      saveWithin after ownSpot true looseSettings = .ok (true, after)) ∧
    saveWithin ⟨⟨.root, []⟩, [(["calltree"], sharedBytes)]⟩ ownSpot true looseSettings =
      .ok (false, ⟨⟨.root, []⟩, [(["calltree"], sharedBytes)]⟩) := by
  have positive : 0 < (2.5 : Float) := by decide +kernel
  have timeout : looseSettings.timeout = .float 2.5 := rfl
  constructor
  · obtain ⟨-, -, after, saves, keeps⟩ | ⟨blocked, -⟩ :=
      (keeps_or_refuses ⟨⟨.root, []⟩, [(ownSpot.names, sharedBytes)]⟩ ownSpot true timeout positive).1
    · refine ⟨after, saves, keeps.load.trans ?_, ?_, keeps.again⟩
      · have named : IconSet.normalName (some " Codicon") = "codicons" := by decide +kernel
        rw [Settings.normal, looseSettings, named]
      · rw [keeps.stored]
        decide +kernel
    · exact absurd (by decide +kernel) blocked
  · exact (keeps_or_refuses _ ownSpot true timeout positive).2 ["calltree"] ["config.json"] sharedBytes
      rfl nofun (by decide +kernel)

end SettingsFile

end SymbolTrees
