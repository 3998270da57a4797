import Nextcore.BootConfig.Targets

/-!
The boot menu and the boot target agree.

Both loops read the same fields of an entry (`menuEntry_eq`, `selectEntry_eq`). Without the
picker they go in lockstep (`tracks_entries`); with it the menu keeps every enabled entry, and
the boot target is what `verdict` makes of them (`selectEntries_of_menu`).
-/

namespace Nextcore.BootConfig

open Checked Checked.Outcome

/-! ### The fields of an entry -/

structure Fields where
  enabled : Bool
  path : Option String
  arguments : String
  apfsVolume : Option String

/-- What both loops read of an entry. -/
def entryFields (entry : Node × Nat) : Result Fields := do
  rejectIf (entry.2 ≥ maxEntries) .entryLimit
  requireTag entry.1 "dict"
  let enabled ← dictionaryValue entry.1 "Enabled"
  let enabled ← flagValue enabled
  let path ← dictionaryValue entry.1 "Path"
  let path ← pathValue path
  let arguments ← dictionaryValue entry.1 "Arguments"
  let arguments ← argumentsValue arguments
  let apfsVolume ← parseApfsVolume entry.1
  pure ⟨enabled, path, arguments, apfsVolume⟩

theorem menuEntry_eq (showPicker : Bool) (entries : List BootMenuEntry) (entry : Node × Nat) :
    menuEntry showPicker entries entry =
      entryFields entry >>= fun fields =>
        entryName showPicker entry.2 entry.1 >>= fun name =>
          pushEntry showPicker entries name fields.enabled fields.path fields.arguments
            fields.apfsVolume := by
  simp only [menuEntry, entryFields, bind_assoc, pure_eq, bind_ok]

theorem selectEntry_eq (selected : Option BootTarget) (entry : Node × Nat) :
    selectEntry selected entry =
      entryFields entry >>= fun fields =>
        selectTarget selected fields.enabled fields.path fields.arguments fields.apfsVolume := by
  simp only [selectEntry, entryFields, bind_assoc, pure_eq, bind_ok]

/-! ### Without the picker -/

/-- The menu has the target that is selected, and no other. -/
def Selects (entries : List BootMenuEntry) (selected : Option BootTarget) : Prop :=
  entries.map (·.target) = selected.toList

theorem Selects.isEmpty {entries : List BootMenuEntry} {selected : Option BootTarget}
    (selects : Selects entries selected) : ¬ entries.isEmpty ↔ selected.isSome := by
  rw [Selects] at selects
  cases selected with
  | none =>
      obtain rfl := List.map_eq_nil_iff.mp selects
      simp
  | some target =>
      cases entries with
      | nil => cases selects
      | cons entry rest => simp

theorem tracks_pushEntry {entries : List BootMenuEntry} {selected : Option BootTarget}
    (selects : Selects entries selected) (name : String) (fields : Fields) :
    Tracks Selects
      (pushEntry false entries name fields.enabled fields.path fields.arguments fields.apfsVolume)
      (selectTarget selected fields.enabled fields.path fields.arguments fields.apfsVolume) := by
  rw [pushEntry, selectTarget]
  by_cases enabled : fields.enabled = true
  · rw [if_pos enabled, if_pos enabled]
    cases selected with
    | some target =>
        have full : ¬ entries.isEmpty := selects.isEmpty.mpr rfl
        have taken : (some target).isSome = true := rfl
        rw [rejectIf_of _ ⟨rfl, full⟩, rejectIf_of _ taken]
        exact .err _
    | none =>
        obtain rfl := List.map_eq_nil_iff.mp selects
        have free : ¬ (none : Option BootTarget).isSome = true := Bool.false_ne_true
        rw [rejectIf_of_not _ (by simp), rejectIf_of_not _ free, bind_ok, bind_ok]
        refine tracks_bind fun path _ => ?_
        exact Tracks.ok (show Selects [_] (some _) from rfl)
  · rw [if_neg enabled, if_neg enabled]
    exact .ok selects

/-- The two loops go in lockstep. -/
theorem tracks_entries (entries : Option Node) :
    Tracks Selects (menuEntries false entries) (targetEntries entries) := by
  cases entries with
  | none => exact .ok rfl
  | some array =>
      refine tracks_bind fun _ _ => tracks_foldlM rfl fun menu selected selects entry _ => ?_
      rw [menuEntry_eq, selectEntry_eq]
      exact tracks_bind fun fields _ => tracks_pushEntry selects _ fields

/-- `Misc.Boot` is absent or a dictionary, and its `ShowPicker` is absent or false. -/
def PickerOff (misc : Node) : Prop :=
  dictionaryValue misc "Boot" = .ok none ∨
    ∃ boot, dictionaryValue misc "Boot" = .ok (some boot) ∧ boot.hasTagName "dict" = true ∧
      (dictionaryValue boot "ShowPicker" = .ok none ∨
        ∃ value, dictionaryValue boot "ShowPicker" = .ok (some value) ∧
          value.hasTagName "false" = true)

theorem hasTagName_inj {node : Node} {tag tag' : String} (has : node.hasTagName tag = true)
    (has' : node.hasTagName tag' = true) : tag = tag' := by
  cases node with
  | element name namespaceUri attributes children =>
      rw [Node.hasTagName, decide_eq_true_eq] at has has'
      rw [← has, ← has']
  | text value => cases has
  | comment => cases has
  | pi => cases has

theorem flagValue_eq_false {value : Option Node} :
    flagValue value = .ok false ↔
      value = none ∨ ∃ node, value = some node ∧ node.hasTagName "false" = true := by
  cases value with
  | none => simp [flagValue]
  | some node =>
      by_cases yes : node.hasTagName "true" = true
      · have not_false : node.hasTagName "false" ≠ true := fun no =>
          absurd (hasTagName_inj yes no) (by decide)
        simp [flagValue, yes, not_false]
      · by_cases no : node.hasTagName "false" = true
        · simp [flagValue, yes, no]
        · simp [flagValue, yes, no]

theorem showPickerValue_eq_false {misc : Node} :
    showPickerValue misc = .ok false ↔ PickerOff misc := by
  rw [showPickerValue, PickerOff]
  constructor
  · intro done
    obtain ⟨boot, found, done⟩ := bind_eq_ok.mp done
    cases boot with
    | none => exact .inl found
    | some boot =>
        obtain ⟨_, tagged, done⟩ := bind_eq_ok.mp done
        obtain ⟨value, looked, done⟩ := bind_eq_ok.mp done
        rw [requireTag, rejectIf_eq_ok, not_not] at tagged
        refine .inr ⟨boot, found, tagged, ?_⟩
        rcases flagValue_eq_false.mp done with rfl | ⟨node, rfl, no⟩
        · exact .inl looked
        · exact .inr ⟨node, looked, no⟩
  · rintro (absent | ⟨boot, found, tagged, flag⟩)
    · rw [absent]
      rfl
    · have is_dict : requireTag boot "dict" = .ok () := rejectIf_of_not _ (not_not.mpr tagged)
      rw [found, bind_ok]
      dsimp only
      rw [is_dict, bind_ok]
      rcases flag with absent | ⟨value, looked, no⟩
      · rw [absent]
        rfl
      · rw [looked, bind_ok, flagValue_eq_false]
        exact .inr ⟨value, rfl, no⟩

/-! ### With the picker -/

/-- What the boot target makes of the targets of the enabled entries. -/
def verdict : List BootTarget → Result (Option BootTarget)
  | [] => .ok none
  | [target] => .ok (some target)
  | _ :: _ :: _ => .err .ambiguousTarget

/-- What one entry does to a menu. -/
theorem menuEntry_eq_ok {showPicker : Bool} {entries entries' : List BootMenuEntry}
    {entry : Node × Nat} (done : menuEntry showPicker entries entry = .ok entries') :
    ∃ fields, entryFields entry = .ok fields ∧
      (fields.enabled = false ∧ entries' = entries ∨
        fields.enabled = true ∧ ∃ name path, fields.path = some path ∧
          entries' = entries ++ [⟨name, ⟨path, fields.arguments, fields.apfsVolume⟩⟩]) := by
  rw [menuEntry_eq] at done
  obtain ⟨fields, read, done⟩ := bind_eq_ok.mp done
  obtain ⟨name, _, done⟩ := bind_eq_ok.mp done
  refine ⟨fields, read, ?_⟩
  rw [pushEntry] at done
  rcases ite_eq_iff.mp done with ⟨enabled, done⟩ | ⟨disabled, done⟩
  · obtain ⟨_, _, done⟩ := bind_eq_ok.mp done
    obtain ⟨path, given, done⟩ := bind_eq_ok.mp done
    cases done
    exact .inr ⟨enabled, name, path, ofOption_eq_ok.mp given, rfl⟩
  · cases done
    exact .inl ⟨Bool.eq_false_iff.mpr disabled, rfl⟩

/-- The loop only adds to a menu. -/
theorem prefix_of_menu {showPicker : Bool} {list : List (Node × Nat)}
    {entries final : List BootMenuEntry}
    (done : list.foldlM (menuEntry showPicker) entries = .ok final) : entries <+: final := by
  induction list generalizing entries with
  | nil =>
      cases done
      exact List.prefix_rfl
  | cons entry rest ih =>
      rw [List.foldlM_cons] at done
      obtain ⟨next, first, others⟩ := bind_eq_ok.mp done
      obtain ⟨fields, _, ⟨_, rfl⟩ | ⟨_, name, path, _, rfl⟩⟩ := menuEntry_eq_ok first
      · exact ih others
      · exact (List.prefix_append _ _).trans (ih others)

/-- Where the loop of the menu ends, the loop of the boot target ends in the verdict. -/
theorem selectEntries_of_menu {showPicker : Bool} {list : List (Node × Nat)}
    {entries final : List BootMenuEntry} {selected : Option BootTarget}
    (selects : Selects entries selected)
    (done : list.foldlM (menuEntry showPicker) entries = .ok final) :
    list.foldlM selectEntry selected = verdict (final.map (·.target)) := by
  induction list generalizing entries selected with
  | nil =>
      cases done
      rw [selects]
      cases selected <;> rfl
  | cons entry rest ih =>
      rw [List.foldlM_cons] at done ⊢
      obtain ⟨next, first, others⟩ := bind_eq_ok.mp done
      obtain ⟨fields, read, step⟩ := menuEntry_eq_ok first
      rw [selectEntry_eq, read, bind_ok, selectTarget]
      rcases step with ⟨disabled, rfl⟩ | ⟨enabled, name, path, given, rfl⟩
      · rw [if_neg (Bool.eq_false_iff.mp disabled), pure_eq, bind_ok]
        exact ih selects others
      · rw [if_pos enabled, given]
        cases selected with
        | none =>
            obtain rfl := List.map_eq_nil_iff.mp selects
            have first_target :
              Selects ([] ++ [⟨name, ⟨path, fields.arguments, fields.apfsVolume⟩⟩])
                (some ⟨path, fields.arguments, fields.apfsVolume⟩) := rfl
            exact ih first_target others
        | some target =>
            -- A second enabled entry: the menu goes on, and the boot target stops here.
            obtain ⟨more, rfl⟩ := prefix_of_menu others
            rw [List.append_assoc, List.map_append, selects]
            rfl

/-! ### The two parsers -/

/-- Without the picker the two parsers go in lockstep behind `Misc`. -/
theorem tracks_menuOf {misc : Node} (off : showPickerValue misc = .ok false) :
    Tracks (fun menu selected => menu.showPicker = false ∧ Selects menu.entries selected)
      (menuOf (some misc)) (targetOf (some misc)) := by
  refine tracks_bind fun _ _ => ?_
  rw [off, bind_ok]
  refine tracks_bind fun entries _ => ?_
  rw [← bind_pure (targetEntries entries)]
  exact (tracks_entries entries).bind fun menu selected selects => .ok ⟨rfl, selects⟩

/-- What a menu was read from, behind `Misc`. -/
theorem menuOf_eq_ok {misc : Node} {menu : BootMenu} (done : menuOf (some misc) = .ok menu) :
    requireTag misc "dict" = .ok () ∧ showPickerValue misc = .ok menu.showPicker ∧
      ∃ entries, dictionaryValue misc "Entries" = .ok entries ∧
        menuEntries menu.showPicker entries = .ok menu.entries := by
  obtain ⟨tagged, done⟩ := seq_eq_ok.mp done
  obtain ⟨showPicker, shown, done⟩ := bind_eq_ok.mp done
  obtain ⟨entries, found, done⟩ := bind_eq_ok.mp done
  obtain ⟨list, read, done⟩ := bind_eq_ok.mp done
  cases done
  exact ⟨tagged, shown, entries, found, read⟩

/-- Where the entries make a menu, the boot target is the verdict on its targets. -/
theorem targetEntries_of_menu {showPicker : Bool} {entries : Option Node}
    {menu : List BootMenuEntry} (done : menuEntries showPicker entries = .ok menu) :
    targetEntries entries = verdict (menu.map (·.target)) := by
  cases entries with
  | none =>
      cases done
      rfl
  | some array =>
      obtain ⟨tagged, done⟩ := seq_eq_ok.mp done
      have none_yet : Selects [] none := rfl
      rw [targetEntries, tagged, bind_ok]
      exact selectEntries_of_menu none_yet done

theorem targetOf_of_menu {misc : Option Node} {menu : BootMenu} (done : menuOf misc = .ok menu) :
    targetOf misc = verdict (menu.entries.map (·.target)) := by
  cases misc with
  | none =>
      cases done
      rfl
  | some misc =>
      obtain ⟨tagged, _, entries, found, read⟩ := menuOf_eq_ok done
      rw [targetOf, tagged, bind_ok, found, bind_ok]
      exact targetEntries_of_menu read

theorem parseBootTarget_of_menu {document : Document} {menu : BootMenu}
    (done : parseBootMenu document = .ok menu) :
    parseBootTarget document = verdict (menu.entries.map (·.target)) := by
  obtain ⟨valid, done⟩ := seq_eq_ok.mp done
  obtain ⟨dictionary, top, done⟩ := bind_eq_ok.mp done
  obtain ⟨misc, found, done⟩ := bind_eq_ok.mp done
  rw [parseBootTarget, valid, bind_ok, selectBootTarget, top, bind_ok, found, bind_ok]
  exact targetOf_of_menu done

/-- A document that does not ask for the picker. -/
def Automatic (document : Document) : Prop :=
  ∀ dictionary misc, topDictionary document = .ok dictionary →
    dictionaryValue dictionary "Misc" = .ok (some misc) → PickerOff misc

/-- What the two parsers make of a document that does not ask for the picker. -/
theorem tracks_parse {document : Document} (automatic : Automatic document) :
    Tracks (fun menu selected => menu.showPicker = false ∧ Selects menu.entries selected)
      (parseBootMenu document) (parseBootTarget document) := by
  refine tracks_bind fun _ _ => tracks_bind fun dictionary top => tracks_bind fun misc found => ?_
  cases misc with
  | none => exact .ok ⟨rfl, rfl⟩
  | some misc =>
      exact tracks_menuOf (showPickerValue_eq_false.mpr (automatic dictionary misc top found))

/-- A menu without the picker comes from a document that does not ask for it. -/
theorem automatic_of_menu {document : Document} {menu : BootMenu}
    (done : parseBootMenu document = .ok menu) (off : menu.showPicker = false) :
    Automatic document := by
  intro dictionary misc top found
  obtain ⟨_, done⟩ := seq_eq_ok.mp done
  rw [top, bind_ok, found, bind_ok] at done
  obtain ⟨_, shown, _⟩ := menuOf_eq_ok done
  rw [off] at shown
  exact showPickerValue_eq_false.mp shown

/-- The boot menu and the boot target agree. Without the picker the menu has the target that is
selected, and no other; with it the boot target is the verdict on the menu; and a target that is
selected is the menu of a document that does not ask for the picker. -/
theorem bootMenu_agrees (document : Document) :
    (∀ menu, parseBootMenu document = .ok menu → menu.showPicker = false →
      ∃ t, parseBootTarget document = .ok t ∧ menu.entries.map (·.target) = t.toList) ∧
    (∀ menu, parseBootMenu document = .ok menu → menu.showPicker = true →
      parseBootTarget document = verdict (menu.entries.map (·.target))) ∧
    (∀ t, parseBootTarget document = .ok t → Automatic document →
      ∃ menu, parseBootMenu document = .ok menu ∧ menu.showPicker = false ∧
        menu.entries.map (·.target) = t.toList) := by
  refine ⟨?_, ?_, ?_⟩
  · intro menu done off
    obtain ⟨t, selected, _, selects⟩ := (tracks_parse (automatic_of_menu done off)).of_ok done
    exact ⟨t, selected, selects⟩
  · intro menu done _
    exact parseBootTarget_of_menu done
  · intro t selected automatic
    obtain ⟨menu, done, off, selects⟩ := (tracks_parse automatic).of_ok' selected
    exact ⟨menu, done, off, selects⟩

end Nextcore.BootConfig
