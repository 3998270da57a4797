import Nextcore.BootPicker.Frame

/-!
What `render` guarantees.

It returns the frame on every screen and for every selection that it accepts, and says why where
it does not (`render_ends`). The frame marks the selected entry and no other, keeps the texts of
the configuration in their labels, and differs for any two selections.
-/

namespace Nextcore.BootPicker

open Checked Checked.Outcome

section Render

variable {P : Type} [Pixel P] {reserves : Nat → Bool} {width height : Nat} {names : List String}
  {volume : String} {selected : Nat} {starting : Bool}

theorem accepts_size : ¬ (width < 640 ∨ height < 480 ∨ width > 4096 ∨ height > 2160 ∨
    width * height > maxPixels) ↔ Screen width height := by
  constructor
  · intro accepted
    exact ⟨by omega, by omega, by omega, by omega⟩
  · intro screen
    have size := screen.size_le
    obtain ⟨wide, high, narrow, low⟩ := screen
    omega

theorem accepts_selection : ¬ (names.isEmpty ∨ names.length > 64 ∨ selected ≥ names.length) ↔
    Selectable names.length selected := by
  rw [List.isEmpty_iff_length_eq_zero]
  constructor
  · intro accepted
    exact ⟨by omega, by omega⟩
  · rintro ⟨few, listed⟩
    omega

/-- A call of `render` ends in one of four ways, and each says what was asked of it. -/
theorem render_ends (reserves : Nat → Bool) (width height : Nat) (names : List String)
    (volume : String) (selected : Nat) (starting : Bool) :
    Ends
      (fun pixels : List P => Screen width height ∧ Selectable names.length selected ∧
        reserves (width * height) = true ∧
        Displays pixels width height fun x y =>
          colorOf (frame width height names volume selected starting x y))
      (fun e => match e with
        | .dimensions => ¬ Screen width height
        | .selection => Screen width height ∧ ¬ Selectable names.length selected
        | .allocation => Screen width height ∧ Selectable names.length selected ∧
            reserves (width * height) = false)
      (render reserves width height names volume selected starting) := by
  by_cases screen : Screen width height
  · by_cases choice : Selectable names.length selected
    · cases reserved : reserves (width * height) with
      | true =>
          obtain ⟨pixels, done, shown⟩ :=
            render_of (P := P) reserves volume starting screen choice reserved
          rw [done]
          exact ⟨screen, choice, rfl, shown⟩
      | false =>
          rw [render, checkedMul, if_pos screen.size_lt, ofOption_some, bind_ok,
            rejectIf_of_not _ (accepts_size.mpr screen), bind_ok,
            rejectIf_of_not _ (accepts_selection.mpr choice), bind_ok, rejectIf_of _ reserved]
          exact ⟨screen, choice, rfl⟩
    · rw [render, checkedMul, if_pos screen.size_lt, ofOption_some, bind_ok,
        rejectIf_of_not _ (accepts_size.mpr screen), bind_ok,
        rejectIf_of _ (not_not.mp (mt accepts_selection.mp choice))]
      exact ⟨screen, choice⟩
  · rw [render]
    cases product : checkedMul width height with
    | none => exact screen
    | some size =>
        obtain ⟨_, rfl⟩ := checkedMul_eq_some.mp product
        rw [ofOption_some, bind_ok, rejectIf_of _ (not_not.mp (mt accepts_size.mp screen))]
        exact screen

theorem rendered {pixels : List P}
    (done : render reserves width height names volume selected starting = .ok pixels) :
    Screen width height ∧ Selectable names.length selected ∧
      Displays pixels width height fun x y =>
        colorOf (frame width height names volume selected starting x y) := by
  have ends := render_ends (P := P) reserves width height names volume selected starting
  rw [done] at ends
  exact ⟨ends.1, ends.2.1, ends.2.2.2⟩

theorem screen_800_600 : Screen 800 600 := ⟨by decide, by decide, by decide, by decide⟩

theorem rendered_sample (names : List String) (volume : String) (two : names.length = 2)
    (selected : Nat) (listed : selected < 2) :
    ∃ pixels : List Rgb,
      render (fun _ => true) 800 600 names volume selected false = .ok pixels := by
  have choice : Selectable names.length selected := ⟨by omega, by omega⟩
  obtain ⟨pixels, done, _⟩ :=
    render_of (P := Rgb) (fun _ => true) volume false screen_800_600 choice rfl
  exact ⟨pixels, done⟩

/-! ### The selection -/

/-- The middle of a tile's left edge is an edge cell. -/
theorem edge_left {t : Tiles} {count : Nat} (fits : t.Fits width height count selected)
    (slot : Nat) :
    t.Edge slot (t.leftOf slot) (t.tileY + 82) := by
  have tileH := fits.tileH_eq
  constructor
  · have depth : cornerDepth t.tileH 14 (t.tileY + 82 - t.tileY) = 0 := by
      rw [cornerDepth, if_neg (by omega)]
      omega
    have near : ∀ k, (14 - k) * (14 - k) + 0 * 0 ≤ 14 * 14 := fun k =>
      Nat.mul_le_mul (Nat.sub_le 14 k) (Nat.sub_le 14 k)
    rw [roundedShape, depth, decide_eq_true (near _), decide_eq_true (near _), Bool.and_true,
      Bool.and_true, decide_eq_true_iff]
    simp only [Area.Has, fits.tileW_eq]
    omega
  · intro face
    have area := area_of_rounded face
    simp only [Area.Has] at area
    omega

/-- The selected entry is among the tiles, and exactly its tile has the edge of a selected one:
along the whole edge of every tile, the ink says whether the entry is the selected one. -/
theorem render_marks_selection {pixels : List P}
    (done : render reserves width height names volume selected starting = .ok pixels) :
    ∃ t, tilesOn width height names.length selected = t ∧
      (∃ slot < t.visible, t.first + slot = selected) ∧
      ∀ slot < t.visible, t.first + slot < names.length ∧ (∃ x y, t.Edge slot x y) ∧
        ∀ x y, t.Edge slot x y → x < width ∧ y < height ∧
          pixels[y * width + x]? =
            some (colorOf (if t.first + slot = selected then accent else lineInk)) := by
  obtain ⟨screen, choice, shown⟩ := rendered done
  have fits := tilesOn_fits screen choice.listed
  obtain ⟨from_first, to_last⟩ := fits.shown
  refine ⟨_, rfl, ⟨selected - (tilesOn width height names.length selected).first, ?_, ?_⟩, ?_⟩
  · omega
  · omega
  intro slot slot_lt
  have entries := fits.entries
  refine ⟨by omega, ⟨_, _, edge_left fits slot⟩, fun x y edge => ?_⟩
  obtain ⟨x_lt, _, y_lt⟩ := tile_on_screen fits slot_lt (area_of_rounded edge.1)
  refine ⟨x_lt, by omega, ?_⟩
  rw [shown.cell x x_lt y (by omega),
    frame_of_edge screen choice.listed rfl slot_lt volume starting edge]

theorem render_marks_selection_sample :
    ∃ pixels : List Rgb,
      render (fun _ => true) 800 600 ["macOS", "EFI"] "Disk" 1 false = .ok pixels ∧
      ∃ t, tilesOn 800 600 2 1 = t ∧ (∃ slot < t.visible, t.first + slot = 1) ∧
        ∀ slot < t.visible, t.first + slot < 2 ∧ (∃ x y, t.Edge slot x y) ∧
          ∀ x y, t.Edge slot x y → x < 800 ∧ y < 600 ∧
            pixels[y * 800 + x]? =
              some (colorOf (if t.first + slot = 1 then accent else lineInk)) := by
  obtain ⟨pixels, done⟩ := rendered_sample ["macOS", "EFI"] "Disk" rfl 1 (by decide)
  exact ⟨pixels, done, render_marks_selection done⟩

/-! ### Texts of the configuration -/

/-- Away from the labels a frame does not depend on the names and the volume. -/
theorem frame_outside_labels {names' : List String} {volume' : String} {x y : Nat}
    (screen : Screen width height) (listed : selected < names.length)
    (same_count : names.length = names'.length)
    (outside : ∀ slot < (tilesOn width height names.length selected).visible,
      ¬ ((tilesOn width height names.length selected).labelArea slot).Has x y) :
    frame width height names volume selected starting x y =
      frame width height names' volume' selected starting x y := by
  have fits := tilesOn_fits screen listed
  rw [frame, frame, scene, scene, ← same_count]
  simp only [shade_append]
  congr 1
  refine shade_flatMap_congr fun slot mem ground => ?_
  have away := outside slot (List.mem_range.mp mem)
  simp only [tileScene, contentScene, shade_append]
  rw [shade_label_of_not_has fits away, shade_label_of_not_has fits away, same_count]

/-- The names and the volume reach no pixel outside the labels of the tiles: two frames of the
same size, number of entries and selection agree everywhere else. -/
theorem render_confines_texts {names' : List String} {volume' : String}
    {reserves' : Nat → Bool} {pixels pixels' : List P}
    (done : render reserves width height names volume selected starting = .ok pixels)
    (done' : render reserves' width height names' volume' selected starting = .ok pixels')
    (same_count : names.length = names'.length) :
    ∀ x < width, ∀ y < height,
      (∀ slot < (tilesOn width height names.length selected).visible,
        ¬ ((tilesOn width height names.length selected).labelArea slot).Has x y) →
      pixels[y * width + x]? = pixels'[y * width + x]? := by
  obtain ⟨screen, choice, shown⟩ := rendered done
  obtain ⟨_, _, shown'⟩ := rendered done'
  intro x x_lt y y_lt outside
  rw [shown.cell x x_lt y y_lt, shown'.cell x x_lt y y_lt,
    frame_outside_labels screen choice.listed same_count outside]

theorem render_confines_texts_sample :
    ∃ pixels pixels' : List Rgb,
      render (fun _ => true) 800 600 ["macOS", "EFI"] "Disk" 1 false = .ok pixels ∧
      render (fun _ => true) 800 600 ["\x1b[2J", ""] "" 1 false = .ok pixels' ∧
      ∀ x < 800, ∀ y < 600,
        (∀ slot < (tilesOn 800 600 2 1).visible,
          ¬ ((tilesOn 800 600 2 1).labelArea slot).Has x y) →
        pixels[y * 800 + x]? = pixels'[y * 800 + x]? := by
  obtain ⟨pixels, done⟩ := rendered_sample ["macOS", "EFI"] "Disk" rfl 1 (by decide)
  obtain ⟨pixels', done'⟩ := rendered_sample ["\x1b[2J", ""] "" rfl 1 (by decide)
  exact ⟨pixels, pixels', done, done', render_confines_texts done done' rfl⟩

end Render

/-! ### A frame determines the selection -/

/-- A text that is not too long is drawn as it is. -/
theorem shownChars_of_le {text : String} {maxChars : Nat} (short : text.toList.length ≤ maxChars) :
    shownChars text maxChars = text.toList := by
  refine List.ext_getElem? fun place => ?_
  rw [getElem?_shownChars, List.take_of_length_le short]
  have whole : shownChar (decide (text.toList.length > maxChars)) maxChars place = id := by
    funext ch
    rw [shownChar, if_neg]
    · rfl
    · rintro ⟨cut, _⟩
      exact absurd (of_decide_eq_true cut) (by omega)
  rw [whole, Option.map_id, id]

theorem textShape_at {scale col : Nat} (x y place row : Nat) (chars : List Char)
    (positive : 0 < scale) (col_lt : col < 6) :
    textShape x y chars scale (x + (place * 6 + col) * scale) (y + row * scale) =
      chars[place]?.any fun ch => litBit ch row col := by
  rw [textShape, Nat.add_sub_cancel_left, Nat.add_sub_cancel_left, Nat.mul_div_cancel _ positive,
    Nat.mul_div_cancel _ positive, decide_eq_true (by omega), Bool.true_and,
    show (place * 6 + col) / 6 = place by omega, show (place * 6 + col) % 6 = col by omega]

theorem twoDigits_toList : ∀ n < 100,
    (twoDigits n).toList = [Nat.digitChar (n / 10), Nat.digitChar (n % 10)] := by
  decide +kernel

/-- No two digits have one bitmap. -/
theorem digits_differ : ∀ d < 10, ∀ d' < 10, d ≠ d' →
    ∃ row < 7, ∃ col < 5,
      litBit (Nat.digitChar d) row col ≠ litBit (Nat.digitChar d') row col := by
  decide +kernel

theorem numberText_toList {number count : Nat} (small : number < 100) (few : count < 100) :
    (numberText number count).toList =
      [Nat.digitChar (number / 10), Nat.digitChar (number % 10), ' ', '/', ' ',
        Nat.digitChar (count / 10), Nat.digitChar (count % 10)] := by
  rw [numberText, String.toList_append, String.toList_append, twoDigits_toList _ small,
    twoDigits_toList _ few]
  rfl

/-- Two numbers differ in a cell that the one's text has and the other's has not. -/
theorem numbers_differ {number number' count : Nat} (small : number < 100) (small' : number' < 100)
    (few : count < 100) (other : number ≠ number') :
    ∃ place < 2, ∃ row < 7, ∃ col < 5,
      ((numberText number count).toList[place]?.any fun ch => litBit ch row col) ≠
        ((numberText number' count).toList[place]?.any fun ch => litBit ch row col) := by
  rw [numberText_toList small few, numberText_toList small' few]
  by_cases tens : number / 10 = number' / 10
  · obtain ⟨row, row_lt, col, col_lt, differ⟩ :=
      digits_differ (number % 10) (by omega) (number' % 10) (by omega) (by omega)
    exact ⟨1, by omega, row, row_lt, col, col_lt, differ⟩
  · obtain ⟨row, row_lt, col, col_lt, differ⟩ :=
      digits_differ (number / 10) (by omega) (number' / 10) (by omega) tens
    exact ⟨0, by omega, row, row_lt, col, col_lt, differ⟩

section Determined

variable {P : Type} [Pixel P] {width height : Nat} {names : List String} {volume : String}
  {selected : Nat} {starting : Bool}

/-- The cells of the number's two digits in the tile of the selected entry. -/
theorem frame_of_number_cell {place row col : Nat} (volume : String) (starting : Bool)
    (screen : Screen width height) (choice : Selectable names.length selected)
    (place_lt : place < 2) (row_lt : row < 7) (col_lt : col < 5) {x y : Nat}
    (x_eq : (tilesOn width height names.length selected).leftOf
      (selected - (tilesOn width height names.length selected).first) + 120 + place * 6 + col = x)
    (y_eq : (tilesOn width height names.length selected).tileY +
      (tilesOn width height names.length selected).tileH - 22 + row = y) :
    x < width ∧ y < height ∧ frame width height names volume selected starting x y =
      if (numberText (selected + 1) names.length).toList[place]?.any fun ch => litBit ch row col
      then accent else 0x1c2723 := by
  have fits := tilesOn_fits screen choice.listed
  obtain ⟨few, listed⟩ := choice
  obtain ⟨from_first, to_last⟩ := fits.shown
  generalize laid : tilesOn width height names.length selected = t at *
  have tileW := fits.tileW_eq
  have tileH := fits.tileH_eq
  have slot_lt : selected - t.first < t.visible := by omega
  have number_has : (t.numberArea (selected - t.first)).Has x y := by
    simp only [Area.Has, Tiles.numberArea]
    omega
  have area_has : (t.area (selected - t.first)).Has x y := by
    simp only [Area.Has, Tiles.area]
    omega
  have chars := numberText_toList (show selected + 1 < 100 by omega)
    (show names.length < 100 by omega)
  have long : (numberText (selected + 1) names.length).toList.length = 7 := by
    rw [chars]
    rfl
  have active : t.first + (selected - t.first) = selected := by omega
  have left : t.leftOf (selected - t.first) + t.tileW / 2 -
      (min (numberText (selected + 1) names.length).toList.length 12 * (6 * 1) - 1) / 2 =
      t.leftOf (selected - t.first) + 120 := by
    rw [long, tileW]
    omega
  obtain ⟨x_lt, _, y_lt⟩ := tile_on_screen fits slot_lt area_has
  refine ⟨x_lt, Nat.lt_of_lt_of_le y_lt (Nat.sub_le _ _), ?_⟩
  rw [frame_of_number screen listed laid slot_lt number_has, active, if_pos rfl, if_pos rfl,
    shade_cons, shade_nil]
  refine if_congr ?_ rfl rfl
  rw [centeredLayer, left, textLayer, shownChars_of_le (by rw [long]; omega)]
  have at_cell := textShape_at (t.leftOf (selected - t.first) + 120) (t.tileY + t.tileH - 22)
    place row (numberText (selected + 1) names.length).toList Nat.one_pos
    (Nat.lt_succ_of_lt col_lt)
  rw [Nat.mul_one, Nat.mul_one, ← Nat.add_assoc, x_eq, y_eq] at at_cell
  exact Bool.eq_iff_iff.mp at_cell

/-- Pixels keep the colours that they are made of. -/
theorem colorOf_ne {a b : Nat}
    (faithful : ∀ r g b r' g' b', (Pixel.rgb r g b : P) = Pixel.rgb r' g' b' →
      r = r' ∧ g = g' ∧ b = b')
    (differ : UInt8.ofNat b ≠ UInt8.ofNat a) : (colorOf a : P) ≠ colorOf b := fun same =>
  differ (faithful _ _ _ _ _ _ same).2.2.symm

theorem eq_of_inks {A B : Bool} {a b : Nat} (differ : (colorOf a : P) ≠ colorOf b)
    (same : (colorOf (if A then a else b) : P) = colorOf (if B then a else b)) : A = B := by
  cases A <;> cases B
  · rfl
  · exact absurd same.symm differ
  · exact absurd same differ
  · rfl

/-- Frames of one number of entries have their tiles in the same places. -/
theorem tiles_agree (width height count selected selected' : Nat) :
    (tilesOn width height count selected).visible =
        (tilesOn width height count selected').visible ∧
      (tilesOn width height count selected).tileY =
        (tilesOn width height count selected').tileY ∧
      (tilesOn width height count selected).tileH =
        (tilesOn width height count selected').tileH ∧
      ∀ slot, (tilesOn width height count selected).leftOf slot =
        (tilesOn width height count selected').leftOf slot :=
  ⟨rfl, rfl, rfl, fun _ => rfl⟩

/-- On pixels that keep their colours, two frames of one size and number of entries are different
when their selections are. -/
theorem render_tells_selections {names' : List String} {volume' : String} {selected' : Nat}
    {starting' : Bool} {reserves reserves' : Nat → Bool} {pixels pixels' : List P}
    (faithful : ∀ r g b r' g' b', (Pixel.rgb r g b : P) = Pixel.rgb r' g' b' →
      r = r' ∧ g = g' ∧ b = b')
    (same_count : names.length = names'.length)
    (done : render reserves width height names volume selected starting = .ok pixels)
    (done' : render reserves' width height names' volume' selected' starting' = .ok pixels')
    (other : selected ≠ selected') : pixels ≠ pixels' := by
  obtain ⟨screen, choice, shown⟩ := rendered done
  obtain ⟨_, choice', shown'⟩ := rendered done'
  intro one
  have agree := (shown.eq_iff shown').mp one
  have fits := tilesOn_fits screen choice.listed
  have fits' := tilesOn_fits screen (same_count ▸ choice'.listed)
  obtain ⟨visible_eq, tileY_eq, tileH_eq, leftOf_eq⟩ :=
    tiles_agree width height names.length selected selected'
  have few := choice.few
  have listed := choice.listed
  have listed' := choice'.listed
  obtain ⟨from_first, to_last⟩ := fits.shown
  obtain ⟨from_first', to_last'⟩ := fits'.shown
  by_cases same_slot : selected - (tilesOn width height names.length selected).first =
      selected' - (tilesOn width height names.length selected').first
  · -- The same tile is marked: it has the number of the one entry or of the other.
    obtain ⟨place, place_lt, row, row_lt, col, col_lt, differ⟩ :=
      numbers_differ (show selected + 1 < 100 by omega) (show selected' + 1 < 100 by omega)
        (show names.length < 100 by omega) (by omega)
    obtain ⟨x_lt, y_lt, cell⟩ := frame_of_number_cell volume starting screen choice place_lt
      row_lt col_lt rfl rfl
    obtain ⟨_, _, cell'⟩ := frame_of_number_cell volume' starting' screen choice' place_lt
      row_lt col_lt (by rw [← same_count, ← same_slot, ← leftOf_eq])
      (by rw [← same_count, ← tileY_eq, ← tileH_eq])
    have same := agree _ x_lt _ y_lt
    rw [cell, cell', ← same_count] at same
    exact differ (eq_of_inks (colorOf_ne faithful (by decide)) same)
  · -- Another tile is marked: the edge of this one is not that of a selected entry.
    have slot_lt : selected - (tilesOn width height names.length selected).first <
        (tilesOn width height names.length selected).visible := by omega
    have edge := edge_left fits (selected - (tilesOn width height names.length selected).first)
    have edge' := edge_left fits' (selected - (tilesOn width height names.length selected).first)
    have cell := frame_of_edge screen listed rfl slot_lt volume starting edge
    have cell' := frame_of_edge screen choice'.listed
      (congrArg (tilesOn width height · selected') same_count.symm) (visible_eq ▸ slot_lt) volume'
      starting' edge'
    rw [if_pos (by omega)] at cell
    rw [if_neg (by omega), ← leftOf_eq, ← tileY_eq] at cell'
    obtain ⟨x_lt, _, y_lt⟩ := tile_on_screen fits slot_lt (area_of_rounded edge.1)
    have same := agree _ x_lt _ (Nat.lt_of_lt_of_le y_lt (Nat.sub_le _ _))
    rw [cell, cell'] at same
    exact colorOf_ne faithful (by decide) same

theorem render_tells_selections_sample :
    ∃ pixels pixels' : List Rgb,
      render (fun _ => true) 800 600 ["EFI", "EFI"] "" 0 false = .ok pixels ∧
      render (fun _ => true) 800 600 ["EFI", "EFI"] "" 1 false = .ok pixels' ∧
      pixels ≠ pixels' := by
  obtain ⟨pixels, done⟩ := rendered_sample ["EFI", "EFI"] "" rfl 0 (by decide)
  obtain ⟨pixels', done'⟩ := rendered_sample ["EFI", "EFI"] "" rfl 1 (by decide)
  refine ⟨pixels, pixels', done, done', render_tells_selections ?_ rfl done done' (by decide)⟩
  intro r g b r' g' b' same
  exact Rgb.mk.inj same

end Determined

end Nextcore.BootPicker
