import SymbolTrees.Proofs.Rounding
import SymbolTrees.Settings.File

/-!
# Loading settings

Every field of the file stands for itself: what is wrong with one leaves the others as they are.
Only a timeout can be stored so that no settings come of the file, or none in which requests have
time.
-/

namespace SymbolTrees.Settings

/-! ### Truth values -/

/-- A truth value is the one that is stored, and the one that holds without a file if none is. -/
structure Kept (fields : Json.Fields) (name : Text) (otherwise value : Bool) : Prop where
  stored : ∀ b, fields.get? name = some (.bool b) → value = b
  missing : (∀ b, fields.get? name ≠ some (.bool b)) → value = otherwise

theorem kept_toggle (fields : Json.Fields) (name : Text) (otherwise : Bool) :
    Kept fields name otherwise (toggle fields name otherwise) where
  stored b h := by rw [toggle, h]
  missing h := by
    unfold toggle
    split
    next b stored => exact absurd stored (h b)
    next => rfl

/-! ### The timeout -/

/-- A time to wait: a positive one, or the undefined one if that is stored. -/
inductive Waits (fields : Json.Fields) : Number → Prop
  | positive {x : Float} (h : 0 < x) : Waits fields (.float x)
  | undefined {x : Float} (h : x.isNaN = true)
    (stored : fields.get? "request_timeout" = some (.num (.float x))) : Waits fields (.float x)

theorem waits_default (fields : Json.Fields) : Waits fields defaultTimeout :=
  .positive (by decide +kernel)

/-- An integer as the timeout that no double is next to. -/
def Overlong (fields : Json.Fields) : Prop :=
  ∃ n : Int, fields.get? "request_timeout" = some (.num (.int n)) ∧ Rounding.bound ≤ n

/-- Reading the timeout fails on an overlong one and only there. -/
theorem timeoutOf_cases (fields : Json.Fields) :
    (Overlong fields ∧ timeoutOf fields = .error .tooLarge) ∨
      ¬ Overlong fields ∧ ∃ timeout, timeoutOf fields = .ok timeout ∧ Waits fields timeout := by
  unfold timeoutOf Overlong
  split
  next k stored =>
    have overlong_iff : (∃ n : Int, fields.get? "request_timeout" = some (.num (.int n)) ∧
        Rounding.bound ≤ n) ↔ Rounding.bound ≤ k := by
      simp [stored]
    rw [overlong_iff]
    split
    next low =>
      have positive := Rounding.bound_pos
      exact .inr ⟨by omega, _, rfl, waits_default fields⟩
    next high =>
      obtain ⟨n, rfl⟩ := Int.eq_ofNat_of_zero_le (Int.le_of_lt (Int.not_le.1 high))
      have positive : 0 < n := by omega
      rw [Number.floatOfInt_natCast positive, Int.ofNat_le]
      by_cases large : Rounding.bound ≤ n
      · rw [if_pos large]
        exact .inl ⟨large, rfl⟩
      · rw [if_neg large]
        exact .inr ⟨large, _, rfl, .positive (Rounding.ofNat_pos positive)⟩
  next x stored =>
    refine .inr ⟨by simp [stored], _, rfl, ?_⟩
    split
    · exact waits_default fields
    next above =>
      cases number : x.isNaN with
      | false => exact .positive (Rounding.pos_of_not_le_zero above number)
      | true => exact .undefined number stored
  next none_int none_float =>
    refine .inr ⟨?_, _, rfl, waits_default fields⟩
    rintro ⟨n, stored, -⟩
    exact none_int n stored

/-! ### All settings -/

/-- The settings that a file with these fields stands for. -/
structure Loaded (fields : Json.Fields) (settings : Settings) : Prop where
  icons : ∃ icons ∈ IconSet.all, settings.icons = (icons.name : Text)
  guides : Kept fields "indent_guides" true settings.guides
  resolveSymbols : Kept fields "resolve_symbols" false settings.resolveSymbols
  timeout : Waits fields settings.timeout
  autoFollow : Kept fields "auto_follow" true settings.autoFollow

/-- **Loading settings** fails on a file with an overlong timeout and on no other. All other files
stand for settings with a set of icons that exists, with the truth values that are stored, and with
a positive timeout unless an undefined one is stored. That reading a file can also stop at an
interpreter's limit for nested values is left out, as it is of the reader. -/
theorem load_cases (content : Option (List Nat)) :
    (Overlong (stored content) ∧ load content = .error .tooLarge) ∨
      ¬ Overlong (stored content) ∧
        ∃ settings, load content = .ok settings ∧ Loaded (stored content) settings := by
  unfold load ofFields
  rcases timeoutOf_cases (stored content) with ⟨overlong, fails⟩ | ⟨fits, timeout, value, waits⟩
  · rw [fails]
    exact .inl ⟨overlong, rfl⟩
  · rw [value]
    exact .inr ⟨fits, _, rfl, ⟨_, IconSet.ofName_mem_all _, rfl⟩, kept_toggle .., kept_toggle .., waits,
      kept_toggle ..⟩

/-- A file whose timeout is ten to the power of 309. -/
def overlongFile : List Nat :=
  ("\x7b\"request_timeout\": 1".toList ++ List.replicate 309 '0' ++ ['\x7d']).map Char.toNat

/-- A file whose timeout is stored as undefined. -/
def undefinedFile : List Nat := "\x7b\"request_timeout\": NaN\x7d".toList.map Char.toNat

/-- No settings come of the one file, and none with a positive timeout of the other. -/
theorem load_overlong_undefined :
    (¬ ∃ settings, load (some overlongFile) = .ok settings) ∧
      ¬ ∃ settings, load (some undefinedFile) = .ok settings ∧
        ∃ x, settings.timeout = .float x ∧ 0 < x := by
  constructor
  · rintro ⟨settings, loads⟩
    have fails : (load (some overlongFile)).isOk = false := by decide +kernel
    rw [loads] at fails
    cases fails
  · rintro ⟨settings, loads, x, timeout, positive⟩
    have not_positive : ((load (some undefinedFile)).toOption.all fun settings =>
        match settings.timeout with
        | .float x => !decide (0 < x)
        | .int _ => true) = true := by decide +kernel
    rw [loads] at not_positive
    simp [Except.toOption, timeout, positive] at not_positive

end SymbolTrees.Settings
