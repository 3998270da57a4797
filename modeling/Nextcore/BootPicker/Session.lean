import Nextcore.BootConfig.Menu
import Nextcore.BootPicker.Rendered
import Nextcore.Lib.Machine
import Mathlib.Data.ZMod.Basic

/-!
Sessions of the boot picker.

The selection is a place on a ring of the entries: `Action.move` says on the ring what the keys do,
and `navigate` follows it along every sequence of keys. With a menu that `parse_boot_menu` has
returned, every entry can be reached, is shown with its mark, and is the one that is booted.
-/

namespace Nextcore.BootPicker

open Checked Checked.Outcome Nextcore.BootConfig

/-- What a key does on the ring. -/
def Action.move {count : Nat} (place : ZMod count) : Action → ZMod count
  | .previous => place - 1
  | .next => place + 1
  | .first => 0
  | .last => -1
  | .boot => place
  | .cancel => place
  | .none => place

/-- The place of an entry. -/
abbrev placeOf (count selected : Nat) : ZMod count := (selected : ZMod count)

/-- `navigate` as a machine: the keys are its calls. -/
def keyStep (count : Nat) (action : Action) (selected : Nat) : Update × Nat :=
  navigate selected count action

/-- The answer to a key says what has happened: an entry is booted that is selected, and the frame
is drawn again when the place has changed. -/
structure Answers (count selected : Nat) (action : Action) (update : Update) : Prop where
  boots : ∀ entry, update = .boot entry ↔ action = .boot ∧ entry = selected
  cancels : update = .cancel ↔ action = .cancel
  redraws : update = .redraw ↔
    Action.move (placeOf count selected) action ≠ placeOf count selected

section Navigation

variable {count selected : Nat}

/-- Places below the number of entries are different on the ring. -/
theorem placeOf_inj {a b : Nat} (a_lt : a < count) (b_lt : b < count) :
    placeOf count a = placeOf count b ↔ a = b := by
  rw [ZMod.natCast_eq_natCast_iff', Nat.mod_eq_of_lt a_lt, Nat.mod_eq_of_lt b_lt]

theorem answers_moved {action : Action} {place : Nat} (valid : selected < count)
    (place_lt : place < count)
    (moves : placeOf count place = Action.move (placeOf count selected) action)
    (no_boot : action ≠ .boot) (no_cancel : action ≠ .cancel) :
    Answers count selected action (moved selected place).1 := by
  have changed : Action.move (placeOf count selected) action ≠ placeOf count selected ↔
      place ≠ selected := by
    rw [← moves, Ne, placeOf_inj place_lt valid]
  rw [moved]
  by_cases still : place = selected
  · rw [if_pos still]
    exact ⟨by simp [no_boot], by simp [no_cancel], by simp [changed, still]⟩
  · rw [if_neg still]
    exact ⟨by simp [no_boot], by simp [no_cancel], by simp [changed, still]⟩

/-- One key: the selection stays valid, moves as on the ring, and the answer says so. -/
theorem navigate_follows (action : Action) (valid : selected < count) :
    (navigate selected count action).2 < count ∧
      placeOf count (navigate selected count action).2 =
        Action.move (placeOf count selected) action ∧
      Answers count selected action (navigate selected count action).1 := by
  have entries : ¬ (count = 0 ∨ selected ≥ count) := by omega
  have one_le : 1 ≤ count := by omega
  have follows : ∀ place, action ≠ .boot → action ≠ .cancel →
      navigate selected count action = moved selected place → place < count →
      placeOf count place = Action.move (placeOf count selected) action →
      (navigate selected count action).2 < count ∧
        placeOf count (navigate selected count action).2 =
          Action.move (placeOf count selected) action ∧
        Answers count selected action (navigate selected count action).1 := by
    intro place no_boot no_cancel moved_to place_lt moves
    rw [moved_to]
    exact ⟨place_lt, moves, answers_moved valid place_lt moves no_boot no_cancel⟩
  cases action with
  | previous =>
      refine follows _ (by decide) (by decide) (if_neg entries) (by split <;> omega) ?_
      split
      · rename_i zero
        rw [placeOf, placeOf, Nat.cast_sub one_le, ZMod.natCast_self, zero, Nat.cast_zero,
          Nat.cast_one]
        rfl
      · rw [placeOf, placeOf, Nat.cast_sub (by omega), Nat.cast_one]
        rfl
  | next =>
      refine follows _ (by decide) (by decide) (if_neg entries) (Nat.mod_lt _ one_le) ?_
      rw [placeOf, placeOf, ZMod.natCast_mod, Nat.cast_add, Nat.cast_one]
      rfl
  | first => exact follows 0 (by decide) (by decide) (if_neg entries) one_le Nat.cast_zero
  | last =>
      refine follows _ (by decide) (by decide) (if_neg entries) (by omega) ?_
      rw [placeOf, placeOf, Nat.cast_sub one_le, ZMod.natCast_self, Nat.cast_one, zero_sub]
      rfl
  | boot =>
      rw [navigate, if_neg entries]
      exact ⟨valid, rfl, by simp [eq_comm], by simp, by simp [Action.move]⟩
  | cancel =>
      rw [navigate, if_neg entries]
      exact ⟨valid, rfl, by simp, by simp, by simp [Action.move]⟩
  | none => exact follows selected (by decide) (by decide) (if_neg entries) valid rfl

theorem after_lt (valid : selected < count) (actions : List Action) :
    Machine.after (keyStep count) selected actions < count :=
  Machine.invariant (P := (· < count)) (fun action _ valid => (navigate_follows action valid).1)
    valid actions

theorem placeOf_after (valid : selected < count) (actions : List Action) :
    placeOf count (Machine.after (keyStep count) selected actions) =
      actions.foldl Action.move (placeOf count selected) :=
  Machine.simulates (fun action _ valid => (navigate_follows action valid).1)
    (fun action _ valid => (navigate_follows action valid).2.1) valid actions

theorem foldl_next (place : ZMod count) (n : Nat) :
    (List.replicate n Action.next).foldl Action.move place = place + n := by
  induction n generalizing place with
  | zero => rw [List.replicate_zero, List.foldl_nil, Nat.cast_zero, add_zero]
  | succ n ih =>
      rw [List.replicate_succ, List.foldl_cons, ih, Nat.cast_succ, Action.move, add_assoc,
        add_comm 1]

/-- Every entry is some presses of one key away. -/
theorem next_reaches {target : Nat} (valid : selected < count) (wanted : target < count) :
    Machine.after (keyStep count) selected
      (List.replicate (target + count - selected) Action.next) = target := by
  rw [← placeOf_inj (after_lt valid _) wanted, placeOf_after valid, foldl_next,
    Nat.cast_sub (by omega), Nat.cast_add, ZMod.natCast_self, add_zero, add_sub_cancel]

/-- Whatever keys were pressed: the selection is an entry, it is where the keys lead on the ring,
and the answer to the next key says what that key does. -/
theorem keys_follow_ring (valid : selected < count) (actions : List Action) :
    Machine.after (keyStep count) selected actions < count ∧
      placeOf count (Machine.after (keyStep count) selected actions) =
        actions.foldl Action.move (placeOf count selected) ∧
      ∀ action, Answers count (Machine.after (keyStep count) selected actions) action
        (navigate (Machine.after (keyStep count) selected actions) count action).1 :=
  ⟨after_lt valid actions, placeOf_after valid actions,
    fun action => (navigate_follows action (after_lt valid actions)).2.2⟩

end Navigation

theorem keys_follow_ring_sample :
    Machine.after (keyStep 3) 0 [.previous, .next, .last, .none] < 3 ∧
      placeOf 3 (Machine.after (keyStep 3) 0 [.previous, .next, .last, .none]) =
        [Action.previous, .next, .last, .none].foldl Action.move (placeOf 3 0) ∧
      ∀ action, Answers 3 (Machine.after (keyStep 3) 0 [.previous, .next, .last, .none]) action
        (navigate (Machine.after (keyStep 3) 0 [.previous, .next, .last, .none]) 3 action).1 :=
  keys_follow_ring (by decide) _

/-! ### A session with a parsed menu -/

/-- The names that the picker is given. -/
def namesOf (menu : BootMenu) : List String := menu.entries.map BootMenuEntry.name

/-- With a menu that has been parsed and is not empty, and whatever keys were pressed since the
first entry was selected: the frame can be drawn on every screen, the key that boots gives an entry
that has been checked, and every other entry can still be reached. -/
theorem menu_session {P : Type} [Pixel P] {document : Document} {menu : BootMenu}
    {reserves : Nat → Bool} {width height : Nat} {volume : String} {starting : Bool}
    (parsed : parseBootMenu document = .ok menu) (offered : menu.entries ≠ [])
    (screen : Screen width height) (reserved : reserves (width * height) = true)
    (actions : List Action) :
    ∃ place entry, Machine.after (keyStep menu.entries.length) 0 actions = place ∧
      menu.entries[place]? = some entry ∧ entry.target.WellFormed ∧
      navigate place menu.entries.length .boot = (.boot place, place) ∧
      (∃ pixels : List P,
        render reserves width height (namesOf menu) volume place starting = .ok pixels) ∧
      ∀ target < menu.entries.length, ∃ more,
        Machine.after (keyStep menu.entries.length) 0 (actions ++ more) = target := by
  have offers := menu_offers parsed
  have some_entry : 0 < menu.entries.length := List.length_pos_iff.mpr offered
  have valid := after_lt some_entry actions
  have found := List.getElem?_eq_getElem valid
  have names : (namesOf menu).length = menu.entries.length := List.length_map _
  have choice : Selectable (namesOf menu).length
      (Machine.after (keyStep menu.entries.length) 0 actions) := by
    rw [names]
    exact ⟨offers.few, valid⟩
  obtain ⟨pixels, done, _⟩ :=
    render_of (P := P) reserves volume starting screen choice reserved
  refine ⟨_, _, rfl, found, (offers.entries _ (List.getElem_mem valid)).2, ?_, ⟨pixels, done⟩, ?_⟩
  · rw [navigate, if_neg (by omega)]
  · intro target wanted
    exact ⟨_, (Machine.after_append _ _ _).trans (next_reaches valid wanted)⟩

theorem no_other_nodes : ∀ node ∈ ([] : List Node) ++ [], node.isElement = false :=
  List.forall_mem_nil _

def sampleEntry (path : String) : Node :=
  .element "dict" none [] [.element "key" none [] [.text "Enabled"], .element "true" none [] [],
    .element "key" none [] [.text "Path"], .element "string" none [] [.text path]]

/-- A configuration with two entries and automatic boot turned off. -/
def sampleMenuDocument : Document where
  before := []
  root := .element "plist" none [⟨"version", none, "1.0"⟩] [.element "dict" none []
    [.element "key" none [] [.text "Misc"], .element "dict" none []
      [.element "key" none [] [.text "Boot"], .element "dict" none []
        [.element "key" none [] [.text "ShowPicker"], .element "true" none [] []],
      .element "key" none [] [.text "Entries"], .element "array" none []
        [sampleEntry "/EFI/a.efi", sampleEntry "/EFI/b.efi"]]]]
  behind := []
  root_element := rfl
  others := no_other_nodes

def sampleMenu : BootMenu where
  showPicker := true
  entries := [⟨"EFI entry 1", ⟨"\\EFI\\a.efi", "", none⟩⟩,
    ⟨"EFI entry 2", ⟨"\\EFI\\b.efi", "", none⟩⟩]

theorem menu_session_sample :
    ∃ place entry, Machine.after (keyStep 2) 0 [.next] = place ∧
      sampleMenu.entries[place]? = some entry ∧ entry.target.WellFormed ∧
      navigate place 2 .boot = (.boot place, place) ∧
      (∃ pixels : List Rgb,
        render (fun _ => true) 800 600 (namesOf sampleMenu) "" place false = .ok pixels) ∧
      ∀ target < 2, ∃ more, Machine.after (keyStep 2) 0 ([.next] ++ more) = target :=
  have parsed : parseBootMenu sampleMenuDocument = .ok sampleMenu := by decide +kernel
  menu_session parsed (List.cons_ne_nil _ _) screen_800_600 rfl [.next]

end Nextcore.BootPicker
