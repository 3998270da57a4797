import Nextcore.BootPicker.Shapes

/-!
The frame as a scene.

`scene` is the list of layers that a frame is made of, in plain arithmetic. On every screen that
`render` accepts, none of its checked operations leaves its type, and the canvas that it returns
shows the scene: `renderOn_shows` and `render_eq` are what the rest knows about `render`.
-/

namespace Nextcore.BootPicker

open Checked Checked.Outcome

/-! ### The layers of a frame -/

def headerScene (starting : Bool) (width height : Nat) : List (Layer Nat) :=
  let pad := padOf width
  let titleY := if height ≥ 600 then 142 else 123
  [roundedLayer pad 32 30 30 8 accent,
    textLayer (pad + 8) 40 "N" 2 bg 1,
    textLayer (pad + 44) 39 "NextCore" 3 white 8,
    textLayer (pad + 45) 69 "BOOT MANAGER" 1 muted 20,
    rectLayer pad 100 (width - pad * 2) 1 lineInk,
    centeredLayer (width / 2) titleY
      (if starting then "Starting selected system" else "Choose your system")
      (if width ≥ 900 then 3 else 2) white 35,
    centeredLayer (width / 2) (titleY + 34) "Your next session starts here" 1 muted 40]

/-- How many tiles a row of this width has room for, of so many entries. -/
def visibleOf (width count : Nat) : Nat :=
  min (if width ≥ 1080 then 3 else if width ≥ 740 then 2 else 1) count

/-- Where the tiles go on an accepted screen: their width is always 280. -/
def tilesOn (width height count selected : Nat) : Tiles :=
  let visible := visibleOf width count
  { visible
    tileW := 280
    tileH := if height ≥ 600 then 236 else 164
    tileY := if height ≥ 600 then (height - 236) / 2 + 32 else 185
    startX := (width - (visible * 280 + (visible - 1) * 20)) / 2
    first := min (selected - visible / 2) (count - visible) }

/-- The left edge of a tile. -/
def Tiles.leftOf (t : Tiles) (slot : Nat) : Nat := t.startX + slot * (t.tileW + 20)

/-- The upper edge of a tile's icon, from the tile's own. -/
def Tiles.iconDrop (t : Tiles) : Nat := if t.tileH > 180 then 61 else 42

/-- The upper edge of a tile's label, from the tile's own. -/
def Tiles.labelDrop (t : Tiles) : Nat := t.iconDrop + if t.tileH > 180 then 66 else 57

def badgeScene (active starting : Bool) (x tileY : Nat) : List (Layer Nat) :=
  if active then
    [textLayer (x + 18) (tileY + 18) (if starting then "STARTING" else "SELECTED") 1 accent 12]
  else []

def iconScene (active : Bool) (center iconY : Nat) : List (Layer Nat) :=
  [roundedLayer (center - 30) iconY 60 43 7 (if active then 0x476458 else 0x353c46),
    rectLayer (center - 20) (iconY + 11) 40 2 (if active then accent else muted),
    rectLayer (center + 14) (iconY + 30) 6 3 (if active then accent else muted)]

def labelScene (names : List String) (volume : String) (index : Nat) (active : Bool) (t : Tiles)
    (center labelY : Nat) : List (Layer Nat) :=
  [centeredLayer center labelY (names[index]?.getD "") 2 white ((t.tileW - 28) / 12),
    centeredLayer center (labelY + 27) volume 1 muted ((t.tileW - 28) / 6),
    centeredLayer center (t.tileY + t.tileH - 22) (numberText (index + 1) names.length) 1
      (if active then accent else muted) 12]

/-- The edge and the face of a tile. -/
def faceScene (active : Bool) (t : Tiles) (x : Nat) : List (Layer Nat) :=
  [roundedLayer x t.tileY t.tileW t.tileH 14 (if active then accent else lineInk),
    roundedLayer (x + 2) (t.tileY + 2) (t.tileW - 4) (t.tileH - 4) 12
      (if active then 0x1c2723 else tileInk)]

/-- What is on the face of a tile. -/
def contentScene (names : List String) (volume : String) (index : Nat) (active starting : Bool)
    (t : Tiles) (x : Nat) : List (Layer Nat) :=
  badgeScene active starting x t.tileY ++
    (iconScene active (x + t.tileW / 2) (t.tileY + t.iconDrop) ++
      labelScene names volume index active t (x + t.tileW / 2) (t.tileY + t.labelDrop))

def tileScene (names : List String) (volume : String) (selected : Nat) (starting : Bool)
    (t : Tiles) (slot : Nat) : List (Layer Nat) :=
  let active := decide (t.first + slot = selected)
  faceScene active t (t.leftOf slot) ++
    contentScene names volume (t.first + slot) active starting t (t.leftOf slot)

def footerScene (width height : Nat) : List (Layer Nat) :=
  let pad := padOf width
  [rectLayer pad (height - 66) (width - pad * 2) 1 lineInk,
    textLayer pad (height - 46) "ARROWS / TAB  Choose" 1 muted 24,
    centeredLayer (width / 2) (height - 46) "ENTER  Boot" 1 accent 14,
    textLayer (width - pad - 66) (height - 46) "ESC  Cancel" 1 muted 14]

def scene (width height : Nat) (names : List String) (volume : String) (selected : Nat)
    (starting : Bool) : List (Layer Nat) :=
  let t := tilesOn width height names.length selected
  headerScene starting width height ++
    ((List.range t.visible).flatMap (tileScene names volume selected starting t) ++
      footerScene width height)

/-- What a frame shows at a cell. -/
def frame (width height : Nat) (names : List String) (volume : String) (selected : Nat)
    (starting : Bool) : Nat → Nat → Nat :=
  shade bg (scene width height names volume selected starting)

/-! ### The arithmetic of the layout -/

section Layout

variable {width height : Nat}

theorem padOf_bounds (width : Nat) : 32 ≤ padOf width ∧ padOf width ≤ 56 := by
  rw [padOf]
  split <;> omega

/-- The selections that `render` accepts. -/
structure Selectable (count selected : Nat) : Prop where
  few : count ≤ 64
  listed : selected < count

/-- A layout of tiles that fits the screen: they are apart, below the header and above the
footer, and the selected entry is among theirs. -/
structure Tiles.Fits (t : Tiles) (width height count selected : Nat) : Prop where
  some_visible : 0 < t.visible
  visible_le : t.visible ≤ 3
  entries : t.first + t.visible ≤ count
  shown : t.first ≤ selected ∧ selected < t.first + t.visible
  tileW_eq : t.tileW = 280
  tileH_eq : t.tileH = 236 ∨ t.tileH = 164
  columns : t.startX + t.visible * 300 ≤ width + 20
  left : 50 ≤ t.startX
  below_header : 185 ≤ t.tileY
  above_footer : t.tileY + t.tileH + 66 ≤ height

theorem visibleOf_bounds (width : Nat) {count : Nat} (some_entry : 0 < count) :
    0 < visibleOf width count ∧ visibleOf width count ≤ count ∧
      (visibleOf width count ≤ 1 ∨ visibleOf width count = 2 ∧ 740 ≤ width ∨
        visibleOf width count = 3 ∧ 1080 ≤ width) := by
  rw [visibleOf]
  split_ifs <;> omega

theorem tilesOn_fits {count selected : Nat} (screen : Screen width height)
    (listed : selected < count) :
    (tilesOn width height count selected).Fits width height count selected := by
  have wide := screen.wide
  have high := screen.high
  obtain ⟨some_visible, visible_le, room⟩ :=
    visibleOf_bounds width (Nat.lt_of_le_of_lt (Nat.zero_le _) listed)
  have rows : 185 ≤ (tilesOn width height count selected).tileY ∧
      (tilesOn width height count selected).tileY +
        (tilesOn width height count selected).tileH + 66 ≤ height := by
    simp only [tilesOn]
    split <;> omega
  exact
    { some_visible
      visible_le := by simp only [tilesOn]; omega
      entries := by simp only [tilesOn]; omega
      shown := by simp only [tilesOn]; omega
      tileW_eq := rfl
      tileH_eq := by simp only [tilesOn]; split <;> simp
      columns := by simp only [tilesOn]; omega
      left := by simp only [tilesOn]; omega
      below_header := rows.1
      above_footer := rows.2 }

/-- The layout that `render` computes, with every step in range. -/
theorem tiles_eq {count selected : Nat} (screen : Screen width height)
    (choice : Selectable count selected) :
    tiles width height count selected (padOf width) =
      .ok (tilesOn width height count selected) := by
  obtain ⟨wide, high, narrow, low⟩ := screen
  obtain ⟨few, listed⟩ := choice
  obtain ⟨some_visible, visible_le, room⟩ :=
    visibleOf_bounds width (Nat.lt_of_le_of_lt (Nat.zero_le _) listed)
  have pad_le : padOf width ≤ 56 ∧ (width < 900 → padOf width = 32) := by
    rw [padOf]
    split <;> omega
  have top : ∀ tileH, tileH = (if height ≥ 600 then 236 else 164) →
      tileTop height tileH = .ok (if height ≥ 600 then (height - 236) / 2 + 32 else 185) := by
    rintro _ rfl
    rw [tileTop]
    split
    · rw [sub_of_le (by omega), bind_ok, add_of_lt (by omega)]
    · rfl
  -- The share of a tile is above the width at which it is cut off.
  have share : min ((width - padOf width * 2 - 20 * (visibleOf width count - 1)) /
      visibleOf width count) 280 = 280 := by
    refine Nat.min_eq_right ((Nat.le_div_iff_mul_le some_visible).mpr ?_)
    rcases room with one | ⟨two, room⟩ | ⟨three, room⟩
    · obtain one : visibleOf width count = 1 := by omega
      rw [one]
      omega
    · rw [two]
      omega
    · rw [three]
      omega
  have divides : ∀ free, divide free (visibleOf width count) =
      .ok (free / visibleOf width count) := fun free => by
    rw [divide, if_neg (by omega)]
    rfl
  have visible_eq : min (if width ≥ 1080 then 3 else if width ≥ 740 then 2 else 1) count =
      visibleOf width count := rfl
  simp only [tiles, visible_eq]
  rw [mul_of_lt (by omega), bind_ok, sub_of_le (by omega), bind_ok, sub_of_le (by omega), bind_ok,
    mul_of_lt (by omega), bind_ok, sub_of_le (by omega), bind_ok, divides, bind_ok, share,
    top _ rfl, bind_ok, mul_of_lt (by omega), bind_ok, mul_of_lt (by omega), bind_ok,
    add_of_lt (by omega), bind_ok, sub_of_le (by omega), bind_ok, sub_of_le (by omega), bind_ok]
  rfl

end Layout

/-! ### The parts of `render` paint their layers -/

section Parts

variable {P : Type} [Pixel P] {width height count selected : Nat}
  (screen : Screen width height)

include screen

theorem paints_header (starting : Bool) :
    Paints width height (header (P := P) width height starting (padOf width))
      (headerScene starting width height) := by
  have wide := screen.wide
  have narrow := screen.narrow
  obtain ⟨_, pad_le⟩ := padOf_bounds width
  have scale_bounds : 0 < (if width ≥ 900 then 3 else 2) ∧ (if width ≥ 900 then 3 else 2) ≤ 3 := by
    split <;> omega
  have titleY_le : (if height ≥ 600 then 142 else 123) ≤ 142 := by
    split <;> omega
  unfold header headerScene
  refine (paints_rounded screen accent (by omega) (by omega) (by omega)).cons ?_
  refine .after (add_of_lt (by omega)) ?_
  refine (paints_text screen (by omega) (by omega) "N" bg (by omega)).cons ?_
  refine .after (add_of_lt (by omega)) ?_
  refine (paints_text screen (by omega) (by omega) "NextCore" white (by omega)).cons ?_
  refine .after (add_of_lt (by omega)) ?_
  refine (paints_text screen (by omega) (by omega) "BOOT MANAGER" muted (by omega)).cons ?_
  refine .after (mul_of_lt (by omega)) ?_
  refine .after (sub_of_le (by omega)) ?_
  refine (paints_rect screen _ _ _ _ lineInk).cons ?_
  refine (paints_centered screen scale_bounds.1 (by omega) _ white (by omega)).cons ?_
  refine .after (add_of_lt (by omega)) ?_
  exact paints_centered screen (by omega) (by omega) _ muted (by omega)

theorem paints_footer :
    Paints width height (footer (P := P) width height (padOf width))
      (footerScene width height) := by
  have wide := screen.wide
  have narrow := screen.narrow
  have high := screen.high
  have low := screen.low
  obtain ⟨_, pad_le⟩ := padOf_bounds width
  have esc : "ESC  Cancel".utf8ByteSize = 11 := by decide +kernel
  unfold footer footerScene
  rw [esc]
  refine .after (sub_of_le (by omega)) ?_
  refine .after (sub_of_le (by omega)) ?_
  refine .after (mul_of_lt (by omega)) ?_
  refine .after (sub_of_le (by omega)) ?_
  refine (paints_rect screen _ _ _ _ lineInk).cons ?_
  refine (paints_text screen (by omega) (by omega) _ muted (by omega)).cons ?_
  refine (paints_centered screen (by omega) (by omega) _ accent (by omega)).cons ?_
  refine .after (sub_of_le (by omega)) ?_
  refine .after (mul_of_lt (by omega)) ?_
  refine .after (sub_of_le (by omega)) ?_
  exact paints_text screen (by omega) (by omega) _ muted (by omega)

theorem paints_badge (active starting : Bool) {x tileY : Nat} (column : x ≤ 4096)
    (row : tileY ≤ 2160) :
    Paints width height (badge (P := P) active starting x tileY)
      (badgeScene active starting x tileY) := by
  cases active with
  | false => exact paints_pure
  | true =>
      refine .after (add_of_lt (by omega)) ?_
      refine .after (add_of_lt (by omega)) ?_
      exact paints_text screen (by omega) (by omega) _ accent (by omega)

theorem paints_icon (active : Bool) {center iconY : Nat} (margin : 30 ≤ center)
    (column : center ≤ 4096) (row : iconY ≤ 2160) :
    Paints width height (icon (P := P) active center iconY) (iconScene active center iconY) := by
  unfold icon iconScene
  refine .after (sub_of_le margin) ?_
  refine (paints_rounded screen _ (by omega) (by omega) (by omega)).cons ?_
  refine .after (sub_of_le (by omega)) ?_
  refine .after (add_of_lt (by omega)) ?_
  refine (paints_rect screen _ _ _ _ _).cons ?_
  refine .after (add_of_lt (by omega)) ?_
  refine .after (add_of_lt (by omega)) ?_
  exact paints_rect screen _ _ _ _ _

section Tile

variable {t : Tiles} (fits : t.Fits width height count selected) {names : List String}
  (few : names.length ≤ 64)

include fits few

theorem paints_labels (volume : String) (index : Nat) (active : Bool) {center labelY : Nat}
    (listed : index < names.length) (column : center ≤ 4096) (row : labelY ≤ 2160) :
    Paints width height (labels (P := P) names volume index active t center labelY)
      (labelScene names volume index active t center labelY) := by
  have low := screen.low
  have above := fits.above_footer
  have tileH := fits.tileH_eq
  have name : (expect names[index]? : Result String) = .ok (names[index]?.getD "") := by
    rw [List.getElem?_eq_getElem listed]
    rfl
  unfold labels labelScene
  rw [fits.tileW_eq]
  refine .after name ?_
  refine .after (sub_of_le (by omega)) ?_
  refine (paints_centered screen (by omega) (by omega) _ white (by omega)).cons ?_
  refine .after (add_of_lt (by omega)) ?_
  refine (paints_centered screen (by omega) (by omega) volume muted (by omega)).cons ?_
  refine .after (add_of_lt (by omega)) ?_
  refine .after (sub_of_le (by omega)) ?_
  refine .after (add_of_lt (by omega)) ?_
  exact paints_centered screen (by omega) (by omega) _ _ (by omega)

/-- One round of the loop paints the tile of its entry. -/
theorem paints_tile (volume : String) (starting : Bool) (all : count = names.length) {slot : Nat}
    (slot_lt : slot < t.visible) :
    Paints width height (fun c : Canvas P => tile names volume selected starting t c slot)
      (tileScene names volume selected starting t slot) := by
  have narrow := screen.narrow
  have low := screen.low
  have labelled := paints_labels (P := P) screen fits few volume (t.first + slot)
  obtain ⟨some_visible, visible_le, entries, _, tileW, tileH, columns, left, below, above⟩ := fits
  have pitch : slot * (t.tileW + 20) = slot * 300 := by rw [tileW]
  have icon_le : t.iconDrop ≤ 61 := by
    rw [Tiles.iconDrop]
    split <;> omega
  have label_le : (if t.tileH > 180 then 66 else 57) ≤ 66 := by
    split <;> omega
  have label_eq : t.tileY + t.iconDrop + (if t.tileH > 180 then 66 else 57) =
      t.tileY + t.labelDrop := by
    rw [Tiles.labelDrop, Nat.add_assoc]
  unfold tile tileScene faceScene contentScene
  rw [← Tiles.iconDrop]
  refine .after (add_of_lt (by omega)) ?_
  refine .after (add_of_lt (by omega)) ?_
  refine .after (mul_of_lt (by omega)) ?_
  refine .after (add_of_lt (by omega)) ?_
  refine (paints_rounded screen _ (by omega) (by omega) (by omega)).cons ?_
  refine .after (add_of_lt (by omega)) ?_
  refine .after (add_of_lt (by omega)) ?_
  refine .after (sub_of_le (by omega)) ?_
  refine .after (sub_of_le (by omega)) ?_
  refine (paints_rounded screen _ (by omega) (by omega) (by omega)).cons ?_
  refine (paints_badge screen _ starting (by omega) (by omega)).bind ?_
  refine .after (add_of_lt (by omega)) ?_
  refine .after (add_of_lt (by omega)) ?_
  refine (paints_icon screen _ (by omega) (by omega) (by omega)).bind ?_
  refine .after (add_of_lt (by omega)) ?_
  rw [label_eq]
  exact labelled _ (by omega) (by omega) (by omega)

end Tile

end Parts

/-! ### The frame -/

section Render

variable {P : Type} [Pixel P] {reserves : Nat → Bool} {width height : Nat} {names : List String}
  {volume : String} {selected : Nat} {starting : Bool}

/-- What `render` draws on a canvas of the background. -/
theorem paints_scene (P : Type) [Pixel P] (screen : Screen width height)
    (choice : Selectable names.length selected) (volume : String) (starting : Bool) :
    Paints width height
      (fun c : Canvas P => do
        let c ← header width height starting (padOf width) c
        let t ← tiles width height names.length selected (padOf width)
        let c ← (List.range t.visible).foldlM (tile names volume selected starting t) c
        footer width height (padOf width) c)
      (scene width height names volume selected starting) := by
  have fits := tilesOn_fits screen choice.listed
  refine (paints_header screen starting).bind ?_
  refine .after (tiles_eq screen choice) ?_
  refine Paints.bind (Paints.foldlM fun slot mem => ?_) (paints_footer screen)
  exact paints_tile screen fits choice.few volume starting rfl (List.mem_range.mp mem)

theorem render_of (reserves : Nat → Bool) (volume : String) (starting : Bool)
    (screen : Screen width height) (choice : Selectable names.length selected)
    (reserved : reserves (width * height) = true) :
    ∃ pixels : List P,
      render reserves width height names volume selected starting = .ok pixels ∧
      Displays pixels width height fun x y =>
        colorOf (frame width height names volume selected starting x y) := by
  have blank : (⟨List.replicate (width * height) (colorOf bg), width, height⟩ : Canvas P).Shows
      width height fun _ _ => bg := ⟨rfl, rfl, displays_replicate width height _⟩
  obtain ⟨c, done, shown⟩ := paints_scene P screen choice volume starting _ _ blank
  refine ⟨c.pixels, ?_, shown.grid⟩
  have sized : ¬ (width < 640 ∨ height < 480 ∨ width > 4096 ∨ height > 2160 ∨
      width * height > maxPixels) := by
    have size := screen.size_le
    obtain ⟨wide, high, narrow, low⟩ := screen
    omega
  have chosen : ¬ (names.isEmpty ∨ names.length > 64 ∨ selected ≥ names.length) := by
    obtain ⟨few, listed⟩ := choice
    rw [List.isEmpty_iff_length_eq_zero]
    omega
  rw [render, checkedMul, if_pos screen.size_lt, ofOption_some, bind_ok,
    rejectIf_of_not _ sized, bind_ok, rejectIf_of_not _ chosen, bind_ok,
    rejectIf_of_not _ (by simp [reserved]), bind_ok]
  have same := congrArg (· >>= fun c : Canvas P => (pure c.pixels : Result (List P))) done
  simpa only [bind_assoc, bind_ok, pure_eq] using same

end Render

end Nextcore.BootPicker
