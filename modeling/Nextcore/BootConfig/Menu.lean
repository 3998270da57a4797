import Nextcore.BootConfig.Agree
import Nextcore.BootConfig.Paths

/-!
What a parsed menu offers.

Every entry of a menu has been checked field by field, and there are no more of them than the
array may have elements. `menu_offers` says both, for either kind of menu.
-/

namespace Nextcore.BootConfig

open Checked Checked.Outcome

/-- The fields of a target as the parsers let them through. -/
structure BootTarget.WellFormed (target : BootTarget) : Prop where
  canonical : Canonical target.path
  short : utf16Units target.path ≤ maxPathUtf16Units
  efi : hasEfiExtension target.path = true
  arguments : target.arguments.toList.any isControl = false
  arguments_short : utf16Units target.arguments ≤ maxArgumentsUtf16Units
  volume : ∀ volume, target.apfsVolume = some volume →
    volume ≠ "" ∧ trim volume = volume ∧
      volume.toList.any (fun c => isControl c ∨ c = '/' ∨ c = '\\') = false ∧
      utf16Units volume ≤ maxApfsVolumeUtf16Units

/-- A name that is shown: the default one of an index, or one that has been checked. -/
def GoodName (name : String) : Prop :=
  (∃ index, name = defaultName index) ∨
    trim name ≠ "" ∧ name.toList.any isControl = false ∧ utf16Units name ≤ 64

/-- What a menu offers: entries that have been checked, and not too many of them. -/
structure BootMenu.Offers (menu : BootMenu) : Prop where
  few : menu.entries.length ≤ maxEntries
  entries : ∀ entry ∈ menu.entries, GoodName entry.name ∧ entry.target.WellFormed

/-! ### Fields -/

theorem pathValue_eq_some {value : Option Node} {path : String}
    (read : pathValue value = .ok (some path)) :
    Canonical path ∧ utf16Units path ≤ maxPathUtf16Units ∧ hasEfiExtension path = true := by
  cases value with
  | none => cases read
  | some value =>
      obtain ⟨_, read⟩ := seq_eq_ok.mp read
      obtain ⟨text, _, read⟩ := bind_eq_ok.mp read
      obtain ⟨normal, normalized, read⟩ := bind_eq_ok.mp read
      cases read
      obtain ⟨absolute, slashes, rest⟩ := bind_eq_ok.mp normalized
      obtain ⟨extension, rest⟩ := seq_eq_ok.mp rest
      cases rest
      obtain ⟨short, rfl, canonical⟩ := normalizeAbsolutePath_eq_ok.mp slashes
      rw [rejectIf_eq_ok, not_not] at extension
      exact ⟨canonical, by rwa [utf16Units_backslashes], extension⟩

theorem argumentsValue_eq_ok {value : Option Node} {arguments : String}
    (read : argumentsValue value = .ok arguments) :
    arguments.toList.any isControl = false ∧ utf16Units arguments ≤ maxArgumentsUtf16Units := by
  cases value with
  | none =>
      cases read
      decide +kernel
  | some value =>
      obtain ⟨_, read⟩ := seq_eq_ok.mp read
      obtain ⟨text, _, read⟩ := bind_eq_ok.mp read
      obtain ⟨control, read⟩ := seq_eq_ok.mp read
      obtain ⟨short, read⟩ := seq_eq_ok.mp read
      cases read
      rw [rejectIf_eq_ok] at control short
      exact ⟨Bool.not_eq_true _ ▸ control, Nat.not_lt.mp short⟩

theorem apfsVolumeValue_eq_some {value : Option Node} {volume : String}
    (read : apfsVolumeValue value = .ok (some volume)) :
    volume ≠ "" ∧ trim volume = volume ∧
      volume.toList.any (fun c => isControl c ∨ c = '/' ∨ c = '\\') = false ∧
      utf16Units volume ≤ maxApfsVolumeUtf16Units := by
  cases value with
  | none => cases read
  | some value =>
      obtain ⟨_, read⟩ := seq_eq_ok.mp read
      obtain ⟨text, _, read⟩ := bind_eq_ok.mp read
      obtain ⟨checked, read⟩ := seq_eq_ok.mp read
      cases read
      rw [rejectIf_eq_ok, not_or, not_or, not_or, not_not, Bool.not_eq_true, Nat.not_lt] at checked
      exact checked

theorem nameValue_eq_ok {index : Nat} {value : Option Node} {name : String}
    (read : nameValue index value = .ok name) : GoodName name := by
  cases value with
  | none =>
      cases read
      exact .inl ⟨index, rfl⟩
  | some value =>
      obtain ⟨_, read⟩ := seq_eq_ok.mp read
      obtain ⟨text, _, read⟩ := bind_eq_ok.mp read
      obtain ⟨checked, read⟩ := seq_eq_ok.mp read
      cases read
      rw [rejectIf_eq_ok, not_or, not_or, Bool.not_eq_true, Nat.not_lt] at checked
      exact .inr checked

theorem entryName_eq_ok {showPicker : Bool} {index : Nat} {entry : Node} {name : String}
    (read : entryName showPicker index entry = .ok name) : GoodName name := by
  rw [entryName] at read
  split at read
  · cases read
    exact .inl ⟨index, rfl⟩
  · obtain ⟨value, _, read⟩ := bind_eq_ok.mp read
    exact nameValue_eq_ok read

theorem entryFields_wellFormed {entry : Node × Nat} {fields : Fields} {path : String}
    (read : entryFields entry = .ok fields) (given : fields.path = some path) :
    entry.2 < maxEntries ∧
      BootTarget.WellFormed ⟨path, fields.arguments, fields.apfsVolume⟩ := by
  obtain ⟨index, read⟩ := seq_eq_ok.mp read
  obtain ⟨_, read⟩ := seq_eq_ok.mp read
  obtain ⟨_, _, read⟩ := bind_eq_ok.mp read
  obtain ⟨_, _, read⟩ := bind_eq_ok.mp read
  obtain ⟨_, _, read⟩ := bind_eq_ok.mp read
  obtain ⟨_, path_read, read⟩ := bind_eq_ok.mp read
  obtain ⟨_, _, read⟩ := bind_eq_ok.mp read
  obtain ⟨_, arguments_read, read⟩ := bind_eq_ok.mp read
  obtain ⟨_, volume_read, read⟩ := bind_eq_ok.mp read
  cases read
  subst given
  obtain ⟨canonical, short, efi⟩ := pathValue_eq_some path_read
  obtain ⟨arguments, arguments_short⟩ := argumentsValue_eq_ok arguments_read
  obtain ⟨_, _, volume_read⟩ := bind_eq_ok.mp volume_read
  refine ⟨Nat.not_le.mp (rejectIf_eq_ok.mp index), canonical, short, efi, arguments,
    arguments_short, fun volume some_volume => ?_⟩
  subst some_volume
  exact apfsVolumeValue_eq_some volume_read

/-! ### Menus -/

/-- The entries behind so many elements of the array. -/
structure Taken (seen : Nat) (entries : List BootMenuEntry) : Prop where
  few : entries.length ≤ seen
  limit : seen ≤ maxEntries
  good : ∀ entry ∈ entries, GoodName entry.name ∧ entry.target.WellFormed

theorem taken_menuEntry {showPicker : Bool} {node : Node} {index : Nat}
    {entries : List BootMenuEntry} (taken : Taken index entries) :
    Ensures (Taken (index + 1)) (menuEntry showPicker entries (node, index)) := by
  intro entries' done
  have in_limit : index < maxEntries := by
    rw [menuEntry] at done
    exact Nat.not_le.mp (rejectIf_eq_ok.mp (seq_eq_ok.mp done).1)
  rw [menuEntry_eq] at done
  obtain ⟨fields, read, done⟩ := bind_eq_ok.mp done
  obtain ⟨name, named, done⟩ := bind_eq_ok.mp done
  rw [pushEntry] at done
  split at done
  · obtain ⟨_, done⟩ := seq_eq_ok.mp done
    obtain ⟨path, given, done⟩ := bind_eq_ok.mp done
    cases done
    obtain ⟨_, formed⟩ := entryFields_wellFormed read (ofOption_eq_ok.mp given)
    refine ⟨?_, in_limit, ?_⟩
    · rw [List.length_append]
      exact Nat.succ_le_succ taken.few
    · intro entry mem
      rcases List.mem_append.mp mem with earlier | new
      · exact taken.good entry earlier
      · rw [List.mem_singleton.mp new]
        exact ⟨entryName_eq_ok named, formed⟩
  · cases done
    exact ⟨Nat.le_succ_of_le taken.few, in_limit, taken.good⟩

theorem menu_offers {document : Document} {menu : BootMenu}
    (parsed : parseBootMenu document = .ok menu) : menu.Offers := by
  obtain ⟨_, parsed⟩ := seq_eq_ok.mp parsed
  obtain ⟨dictionary, _, parsed⟩ := bind_eq_ok.mp parsed
  obtain ⟨misc, _, parsed⟩ := bind_eq_ok.mp parsed
  have none_offered : ∀ {showPicker}, BootMenu.Offers ⟨showPicker, []⟩ :=
    ⟨Nat.zero_le _, List.forall_mem_nil _⟩
  cases misc with
  | none =>
      cases parsed
      exact none_offered
  | some misc =>
      obtain ⟨_, _, entries, _, read⟩ := menuOf_eq_ok parsed
      cases entries with
      | none =>
          obtain ⟨showPicker, offered⟩ := menu
          cases read
          exact none_offered
      | some array =>
          obtain ⟨_, read⟩ := seq_eq_ok.mp read
          have start : Taken 0 [] := ⟨Nat.le_refl 0, Nat.zero_le _, List.forall_mem_nil _⟩
          have taken := ensures_foldlM_zipIdx start
            (fun _ _ _ _ taken => taken_menuEntry taken) _ read
          exact ⟨Nat.le_trans taken.few taken.limit, taken.good⟩

end Nextcore.BootConfig
