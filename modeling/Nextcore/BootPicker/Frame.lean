import Nextcore.BootPicker.Scene

/-!
What a frame shows.

A frame is the header, a row of tiles and the footer, and these are apart: what a cell of a tile
shows, only that tile decides (`frame_of_tile`). From it: the edge of a tile is marked exactly when
its entry is selected, the texts of the configuration reach nothing but their labels, and a frame
determines the selection.
-/

namespace Nextcore.BootPicker

open Checked Checked.Outcome

/-! ### Where the layers lie -/

theorem area_of_rounded {x y w h r px py : Nat} (has : roundedShape x y w h r px py = true) :
    (Area.mk x y w h).Has px py := by
  simp only [roundedShape, Bool.and_eq_true, decide_eq_true_iff] at has
  exact has.1

theorem area_of_text {x y scale ink maxChars px py : Nat} {text : String} (positive : 0 < scale)
    (has : (textLayer x y text scale ink maxChars).shape px py = true) :
    (Area.mk x y (maxChars * 6 * scale) (7 * scale)).Has px py :=
  area_of_textShape positive (by rw [length_shownChars]; exact Nat.min_le_left _ _) has

/-- A text in the middle reaches half of its longest width to both sides. -/
theorem area_of_centered {center y scale ink maxChars px py : Nat} {text : String} (reach : Nat)
    (positive : 0 < scale) (wide : maxChars * 6 * scale ≤ 2 * reach) (room : reach ≤ center)
    (has : (centeredLayer center y text scale ink maxChars).shape px py = true) :
    (Area.mk (center - reach) y (2 * reach + scale) (7 * scale)).Has px py := by
  have long : (shownChars text maxChars).length ≤ min text.toList.length maxChars := by
    rw [length_shownChars, Nat.min_comm]
  obtain ⟨⟨left, right⟩, rows⟩ := area_of_textShape positive long has
  have most : min text.toList.length maxChars * 6 * scale ≤ maxChars * 6 * scale :=
    Nat.mul_le_mul_right _ (Nat.mul_le_mul_right _ (Nat.min_le_right _ _))
  simp only [← Nat.mul_assoc] at left right
  refine ⟨⟨?_, ?_⟩, rows⟩
  all_goals
    simp only
    omega

section Parts

variable {width height count selected : Nat} {starting : Bool} {px py : Nat}

theorem above_of_header (touched : Touches (headerScene starting width height) px py) :
    py < 185 := by
  have titleY_le : (if height ≥ 600 then 142 else 123) ≤ 142 := by
    split <;> omega
  have scale_bounds : 0 < (if width ≥ 900 then 3 else 2) ∧ (if width ≥ 900 then 3 else 2) ≤ 3 := by
    split <;> omega
  simp only [headerScene, touches_cons, rectLayer_shape, not_touches_nil, or_false] at touched
  rcases touched with has | has | has | has | has | has | has
  · have := (area_of_rounded has).2
    simp only at this
    omega
  · have := (area_of_text (by omega) has).2
    simp only at this
    omega
  · have := (area_of_text (by omega) has).2
    simp only at this
    omega
  · have := (area_of_text (by omega) has).2
    simp only at this
    omega
  · have := has.2
    simp only at this
    omega
  · have := (area_of_text scale_bounds.1 has).2
    simp only at this
    omega
  · have := (area_of_text (by omega) has).2
    simp only at this
    omega

theorem below_of_footer (touched : Touches (footerScene width height) px py) :
    height - 66 ≤ py := by
  simp only [footerScene, touches_cons, rectLayer_shape, not_touches_nil, or_false] at touched
  rcases touched with has | has | has | has
  · exact has.2.1
  all_goals
    have := (area_of_text (by omega) has).2.1
    simp only at this
    omega

end Parts

/-! ### Tiles -/

namespace Tiles

/-- The cells of a tile. -/
def area (t : Tiles) (slot : Nat) : Area := ⟨t.leftOf slot, t.tileY, t.tileW, t.tileH⟩

/-- The cells of a tile's name and of the volume under it. -/
def labelArea (t : Tiles) (slot : Nat) : Area :=
  ⟨t.leftOf slot + 2, t.tileY + t.labelDrop, t.tileW - 4, 34⟩

/-- The cells of a tile's number. -/
def numberArea (t : Tiles) (slot : Nat) : Area :=
  ⟨t.leftOf slot + 2, t.tileY + t.tileH - 22, t.tileW - 4, 7⟩

/-- The cells on the face of a tile, without its upper and lower end. -/
def contentArea (t : Tiles) (slot : Nat) : Area :=
  ⟨t.leftOf slot + 2, t.tileY + 14, t.tileW - 4, t.tileH - 28⟩

/-- The cells between the outline of a tile and the outline of its face. -/
def Edge (t : Tiles) (slot px py : Nat) : Prop :=
  roundedShape (t.leftOf slot) t.tileY t.tileW t.tileH 14 px py = true ∧
    ¬ roundedShape (t.leftOf slot + 2) (t.tileY + 2) (t.tileW - 4) (t.tileH - 4) 12 px py = true

end Tiles

section Tile

variable {t : Tiles} {width height count selected : Nat} {names : List String} {volume : String}
  {starting active : Bool} {slot index ground px py : Nat}
  (fits : t.Fits width height count selected)

include fits

theorem drops : t.iconDrop + 43 ≤ t.labelDrop ∧ 42 ≤ t.iconDrop ∧
    t.labelDrop + 34 + 22 ≤ t.tileH := by
  rw [Tiles.labelDrop, Tiles.iconDrop]
  rcases fits.tileH_eq with tall | short
  · rw [tall]
    simp
  · rw [short]
    simp

theorem area_of_name {text : String} {ink : Nat}
    (has : (centeredLayer (t.leftOf slot + 280 / 2) (t.tileY + t.labelDrop) text 2 ink
      ((280 - 28) / 12)).shape px py = true) :
    (t.labelArea slot).Has px py := by
  have tileW := fits.tileW_eq
  obtain ⟨⟨left, right⟩, top, bottom⟩ :=
    area_of_centered 126 (by omega) (by omega) (by omega) has
  simp only at left right top bottom
  simp only [Area.Has, Tiles.labelArea]
  omega

theorem area_of_volume {text : String} {ink : Nat}
    (has : (centeredLayer (t.leftOf slot + 280 / 2) (t.tileY + t.labelDrop + 27) text 1 ink
      ((280 - 28) / 6)).shape px py = true) :
    (t.labelArea slot).Has px py := by
  have tileW := fits.tileW_eq
  obtain ⟨⟨left, right⟩, top, bottom⟩ :=
    area_of_centered 126 (by omega) (by omega) (by omega) has
  simp only at left right top bottom
  simp only [Area.Has, Tiles.labelArea]
  omega

theorem area_of_number {text : String} {ink : Nat}
    (has : (centeredLayer (t.leftOf slot + 280 / 2) (t.tileY + t.tileH - 22) text 1 ink
      12).shape px py = true) :
    (t.numberArea slot).Has px py := by
  have tileW := fits.tileW_eq
  obtain ⟨⟨left, right⟩, top, bottom⟩ :=
    area_of_centered 36 (by omega) (by omega) (by omega) has
  simp only at left right top bottom
  simp only [Area.Has, Tiles.numberArea]
  omega

theorem area_of_badge
    (touched : Touches (badgeScene active starting (t.leftOf slot) t.tileY) px py) :
    (t.contentArea slot).Has px py ∧ py < t.tileY + t.labelDrop := by
  have tileW := fits.tileW_eq
  obtain ⟨icon, top, bottom⟩ := drops fits
  rw [badgeScene] at touched
  split at touched
  · simp only [touches_cons, not_touches_nil, or_false] at touched
    have area := area_of_text (by omega) touched
    simp only [Area.Has, Tiles.contentArea] at area ⊢
    omega
  · exact absurd touched not_touches_nil

theorem area_of_icon (touched : Touches
    (iconScene active (t.leftOf slot + t.tileW / 2) (t.tileY + t.iconDrop)) px py) :
    (t.contentArea slot).Has px py ∧ py < t.tileY + t.labelDrop := by
  have tileW := fits.tileW_eq
  obtain ⟨icon, top, bottom⟩ := drops fits
  simp only [iconScene, touches_cons, rectLayer_shape, not_touches_nil, or_false] at touched
  rcases touched with has | has | has
  · have area := area_of_rounded has
    simp only [Area.Has, Tiles.contentArea] at area ⊢
    omega
  all_goals
    simp only [Area.Has, Tiles.contentArea] at has ⊢
    omega

theorem area_of_content (touched : Touches
    (contentScene names volume index active starting t (t.leftOf slot)) px py) :
    (t.contentArea slot).Has px py := by
  have tileW := fits.tileW_eq
  obtain ⟨icon, top, bottom⟩ := drops fits
  rw [contentScene, touches_append, touches_append] at touched
  rcases touched with badge | drawn | label
  · exact (area_of_badge fits badge).1
  · exact (area_of_icon fits drawn).1
  · simp only [labelScene, touches_cons, not_touches_nil, or_false, tileW] at label
    rcases label with has | has | has
    · have area := area_of_name fits has
      simp only [Area.Has, Tiles.labelArea, Tiles.contentArea] at area ⊢
      omega
    · have area := area_of_volume fits has
      simp only [Area.Has, Tiles.labelArea, Tiles.contentArea] at area ⊢
      omega
    · have area := area_of_number fits has
      simp only [Area.Has, Tiles.numberArea, Tiles.contentArea] at area ⊢
      omega

/-- Away from a tile's label only the number of the texts counts. -/
theorem shade_label_of_not_has (outside : ¬ (t.labelArea slot).Has px py) :
    shade ground (labelScene names volume index active t (t.leftOf slot + t.tileW / 2)
      (t.tileY + t.labelDrop)) px py =
    shade ground [centeredLayer (t.leftOf slot + t.tileW / 2) (t.tileY + t.tileH - 22)
      (numberText (index + 1) names.length) 1 (if active then accent else muted) 12] px py := by
  have tileW := fits.tileW_eq
  rw [labelScene, tileW, shade_cons, if_neg fun has => outside (area_of_name fits has),
    shade_cons, if_neg fun has => outside (area_of_volume fits has)]

/-- Between its ends the face of a tile has no corners. -/
theorem face_of_content (has : (t.contentArea slot).Has px py) :
    roundedShape (t.leftOf slot + 2) (t.tileY + 2) (t.tileW - 4) (t.tileH - 4) 12 px py =
      true := by
  have tileW := fits.tileW_eq
  have tileH := fits.tileH_eq
  simp only [Area.Has, Tiles.contentArea] at has
  have depth : cornerDepth (t.tileH - 4) 12 (py - (t.tileY + 2)) = 0 := by
    rw [cornerDepth, if_neg (by omega)]
    omega
  have near : ∀ k, (12 - k) * (12 - k) + 0 * 0 ≤ 12 * 12 := fun k =>
    Nat.mul_le_mul (Nat.sub_le 12 k) (Nat.sub_le 12 k)
  rw [roundedShape, depth, decide_eq_true (near _), decide_eq_true (near _), Bool.and_true,
    Bool.and_true, decide_eq_true_iff]
  simp only [Area.Has]
  omega

theorem shade_face (has : (t.contentArea slot).Has px py) :
    shade ground (faceScene active t (t.leftOf slot)) px py =
      if active then 0x1c2723 else tileInk := by
  rw [faceScene, shade_cons, shade_cons, shade_nil, roundedLayer_shape, roundedLayer_shape,
    if_pos (face_of_content fits has), roundedLayer_ink]

theorem area_of_tile
    (touched : Touches (tileScene names volume selected starting t slot) px py) :
    (t.area slot).Has px py := by
  have tileW := fits.tileW_eq
  have tileH := fits.tileH_eq
  simp only [tileScene, touches_append, faceScene, touches_cons, not_touches_nil,
    or_false] at touched
  rcases touched with (edge | face) | content
  · exact area_of_rounded edge
  · have area := area_of_rounded face
    simp only [Area.Has, Tiles.area] at area ⊢
    omega
  · have area := area_of_content fits content
    simp only [Area.Has, Tiles.contentArea, Tiles.area] at area ⊢
    omega

theorem tiles_apart {slot' : Nat} (other : slot ≠ slot') (has : (t.area slot).Has px py) :
    ¬ (t.area slot').Has px py := by
  have tileW := fits.tileW_eq
  simp only [Area.Has, Tiles.area, Tiles.leftOf, tileW] at has ⊢
  omega

theorem tile_on_screen (slot_lt : slot < t.visible) (has : (t.area slot).Has px py) :
    px < width ∧ 185 ≤ py ∧ py < height - 66 := by
  have tileW := fits.tileW_eq
  have columns := fits.columns
  have above := fits.above_footer
  have below := fits.below_header
  simp only [Area.Has, Tiles.area, Tiles.leftOf, tileW] at has
  omega

end Tile

section Frame

variable {width height : Nat} {names : List String} {volume : String} {selected : Nat}
  {starting : Bool} {t : Tiles} {slot px py : Nat} (screen : Screen width height)
  (listed : selected < names.length) (laid : tilesOn width height names.length selected = t)
  (slot_lt : slot < t.visible)

include screen listed laid slot_lt

/-- What a cell of a tile shows, only that tile decides. -/
theorem frame_of_tile (has : (t.area slot).Has px py) :
    frame width height names volume selected starting px py =
      shade bg (tileScene names volume selected starting t slot) px py := by
  have fits := laid ▸ tilesOn_fits screen listed
  obtain ⟨_, below, above⟩ := tile_on_screen fits slot_lt has
  have no_header : ¬ Touches (headerScene starting width height) px py := fun touched =>
    absurd (above_of_header touched) (by omega)
  have no_footer : ¬ Touches (footerScene width height) px py := fun touched =>
    absurd (below_of_footer touched) (by omega)
  -- The other tiles are elsewhere.
  have elsewhere : ∀ {slots : List Nat}, slot ∉ slots → ∀ slot' ∈ slots,
      ¬ Touches (tileScene names volume selected starting t slot') px py := by
    intro slots absent slot' mem touched
    refine tiles_apart fits (fun same => absent ?_) has (area_of_tile fits touched)
    exact same ▸ mem
  obtain ⟨front, rest, split⟩ := List.append_of_mem (List.mem_range.mpr slot_lt)
  have distinct := List.nodup_range (n := t.visible)
  rw [split, List.nodup_append, List.nodup_cons] at distinct
  have not_front : slot ∉ front := fun mem =>
    distinct.2.2 slot mem slot List.mem_cons_self rfl
  rw [frame, scene, laid, shade_append, shade_append, shade_of_not_touches no_header,
    shade_of_not_touches no_footer, split]
  exact shade_flatMap_of_mem (elsewhere not_front) (elsewhere distinct.2.1.1)

/-- The edge of a tile shows whether its entry is selected. -/
theorem frame_of_edge (volume : String) (starting : Bool) (edge : t.Edge slot px py) :
    frame width height names volume selected starting px py =
      if t.first + slot = selected then accent else lineInk := by
  have fits := laid ▸ tilesOn_fits screen listed
  obtain ⟨outline, face⟩ := edge
  have content : ¬ Touches (contentScene names volume (t.first + slot)
      (decide (t.first + slot = selected)) starting t (t.leftOf slot)) px py := fun touched =>
    face (face_of_content fits (area_of_content fits touched))
  rw [frame_of_tile screen listed laid slot_lt (area_of_rounded outline),
    tileScene, shade_append, shade_of_not_touches content, faceScene, shade_cons, shade_cons,
    shade_nil, roundedLayer_shape, roundedLayer_shape, if_neg face, if_pos outline,
    roundedLayer_ink]
  exact if_congr decide_eq_true_iff rfl rfl

/-- On the number's cells a tile shows its number, on its face. -/
theorem frame_of_number (has : (t.numberArea slot).Has px py) :
    frame width height names volume selected starting px py =
      shade (if t.first + slot = selected then 0x1c2723 else tileInk)
        [centeredLayer (t.leftOf slot + t.tileW / 2) (t.tileY + t.tileH - 22)
          (numberText (t.first + slot + 1) names.length) 1
          (if t.first + slot = selected then accent else muted) 12] px py := by
  have fits := laid ▸ tilesOn_fits screen listed
  obtain ⟨_, _, room⟩ := drops fits
  have number := has
  simp only [Area.Has, Tiles.numberArea] at number
  have content : (t.contentArea slot).Has px py := by
    simp only [Area.Has, Tiles.contentArea]
    omega
  have inside : (t.area slot).Has px py := by
    simp only [Area.Has, Tiles.area]
    omega
  have outside : ¬ (t.labelArea slot).Has px py := by
    simp only [Area.Has, Tiles.labelArea]
    omega
  -- The badge and the icon end above the label, and so above the number.
  have no_badge : ¬ Touches (badgeScene (decide (t.first + slot = selected)) starting
      (t.leftOf slot) t.tileY) px py := fun touched => by
    have above := (area_of_badge fits touched).2
    omega
  have no_icon : ¬ Touches (iconScene (decide (t.first + slot = selected))
      (t.leftOf slot + t.tileW / 2) (t.tileY + t.iconDrop)) px py := fun touched => by
    have above := (area_of_icon fits touched).2
    omega
  rw [frame_of_tile screen listed laid slot_lt inside, tileScene, contentScene, shade_append,
    shade_append, shade_append, shade_of_not_touches no_badge, shade_of_not_touches no_icon,
    shade_label_of_not_has fits outside, shade_face fits content]
  simp only [decide_eq_true_iff]

end Frame

end Nextcore.BootPicker
