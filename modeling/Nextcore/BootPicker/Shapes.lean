import Nextcore.BootPicker.View

/-!
What the drawing operations draw.

Each operation of the canvas paints one layer, whatever the canvas shows: a rectangle, a rectangle
with round corners, or the lit cells of a text. `Paints` is that statement, and it composes
(`Paints.bind`, `Paints.foldlM`), so that the frame is a matter of putting layers in a row.
-/

namespace Nextcore.BootPicker

open Checked Checked.Outcome

/-- The sizes that `render` accepts. -/
structure Screen (width height : Nat) : Prop where
  wide : 640 ≤ width
  high : 480 ≤ height
  narrow : width ≤ 4096
  low : height ≤ 2160

namespace Screen

variable {width height : Nat}

theorem size_le (screen : Screen width height) : width * height ≤ maxPixels :=
  Nat.mul_le_mul screen.narrow screen.low

theorem size_lt (screen : Screen width height) : width * height < 2 ^ 64 :=
  Nat.lt_of_le_of_lt screen.size_le (by decide)

end Screen

section Painting

variable {P : Type} [Pixel P] {width height : Nat} {pic : Nat → Nat → Nat}

/-- The canvas shows the picture. -/
structure Canvas.Shows (c : Canvas P) (width height : Nat) (pic : Nat → Nat → Nat) : Prop where
  width_eq : c.width = width
  height_eq : c.height = height
  grid : Displays c.pixels width height fun x y => colorOf (pic x y)

/-- On every canvas of this size the operation succeeds, and puts these layers on its picture. -/
def Paints (width height : Nat) (op : Canvas P → Result (Canvas P)) (layers : List (Layer Nat)) :
    Prop :=
  ∀ c pic, c.Shows width height pic →
    ∃ c', op c = .ok c' ∧ c'.Shows width height fun x y => shade (pic x y) layers x y

theorem paints_pure : Paints width height (pure : Canvas P → Result (Canvas P)) [] :=
  fun c _ shown => ⟨c, rfl, shown⟩

theorem Paints.bind {first second : Canvas P → Result (Canvas P)} {layers more : List (Layer Nat)}
    (paints : Paints width height first layers) (paints' : Paints width height second more) :
    Paints width height (fun c => first c >>= second) (layers ++ more) := by
  intro c pic shown
  obtain ⟨c₁, done, shown₁⟩ := paints c pic shown
  obtain ⟨c₂, done', shown₂⟩ := paints' c₁ _ shown₁
  refine ⟨c₂, ?_, ?_⟩
  · show (first c >>= second) = _
    rw [done, bind_ok, done']
  · simpa only [shade_append] using shown₂

theorem Paints.cons {first second : Canvas P → Result (Canvas P)} {layer : Layer Nat}
    {more : List (Layer Nat)} (paints : Paints width height first [layer])
    (paints' : Paints width height second more) :
    Paints width height (fun c => first c >>= second) (layer :: more) :=
  paints.bind paints'

/-- A value that is computed ahead of the rest. -/
theorem Paints.after {α : Type} {x : Result α} {a : α} {rest : α → Canvas P → Result (Canvas P)}
    {layers : List (Layer Nat)} (done : x = .ok a) (paints : Paints width height (rest a) layers) :
    Paints width height (fun c => x >>= fun a => rest a c) layers := by
  subst done
  exact paints

theorem Paints.foldlM {α : Type} {op : Canvas P → α → Result (Canvas P)}
    {layers : α → List (Layer Nat)} {list : List α}
    (each : ∀ a ∈ list, Paints width height (op · a) (layers a)) :
    Paints width height (fun c => list.foldlM op c) (list.flatMap layers) := by
  induction list with
  | nil => exact paints_pure
  | cons a rest ih =>
      obtain ⟨first, others⟩ := List.forall_mem_cons.mp each
      simp only [List.foldlM_cons, List.flatMap_cons]
      exact first.bind (ih others)

/-- Layers that show the same on every ground are as good. -/
theorem Paints.congr {op : Canvas P → Result (Canvas P)} {layers layers' : List (Layer Nat)}
    (paints : Paints width height op layers)
    (same : ∀ ground x y, shade ground layers x y = shade ground layers' x y) :
    Paints width height op layers' := by
  intro c pic shown
  obtain ⟨c', done, shown'⟩ := paints c pic shown
  exact ⟨c', done, by simpa only [same] using shown'⟩

/-- A row of layers of one ink is one layer, the shape of which has the cells that they touch. -/
theorem Paints.join {op : Canvas P → Result (Canvas P)} {layers : List (Layer Nat)} {shape : Shape}
    {ink : Nat} (paints : Paints width height op layers)
    (uniform : ∀ layer ∈ layers, layer.ink = ink)
    (touches : ∀ x y, Touches layers x y ↔ shape x y = true) :
    Paints width height op [⟨shape, ink⟩] :=
  paints.congr fun ground x y => by
    rw [shade_uniform uniform, shade_cons, shade_nil]
    exact if_congr (touches x y) rfl rfl

/-! ### Rectangles -/

theorem foldlM_fillRow {pixels : List P} {x right y n : Nat} (color : Nat)
    (size : width * height < 2 ^ 64)
    (shown : Displays pixels width height fun x y => colorOf (pic x y)) (rows : y + n ≤ height)
    (ordered : x ≤ right) (fits : right ≤ width) :
    ∃ out, (List.range' y n).foldlM (fillRow width x right color) pixels = .ok out ∧
      Displays out width height fun x' y' =>
        colorOf (if (x ≤ x' ∧ x' < right) ∧ y ≤ y' ∧ y' < y + n then color else pic x' y') := by
  induction n generalizing y pixels pic with
  | zero =>
      refine ⟨pixels, rfl, shown.congr fun x' _ y' _ => ?_⟩
      rw [if_neg (by omega)]
  | succ n ih =>
      -- The row's end is a position of the grid, and so a word.
      have row_end : (y + 1) * width ≤ height * width := Nat.mul_le_mul_right width (by omega)
      rw [Nat.succ_mul, Nat.mul_comm height] at row_end
      obtain ⟨filled, done, shown'⟩ := shown.fill (ε := ViewError) (y := y) (colorOf color)
        (by omega) ordered fits
      have first : fillRow width x right color pixels y = .ok filled := by
        rw [fillRow, mul_of_lt (by omega), bind_ok, add_of_lt (by omega), bind_ok,
          add_of_lt (by omega), bind_ok, done]
      have shown_ite : Displays filled width height fun x' y' =>
          colorOf (if y' = y ∧ x ≤ x' ∧ x' < right then color else pic x' y') :=
        shown'.congr fun x' _ y' _ => (apply_ite colorOf _ _ _).symm
      obtain ⟨out, rest, shown''⟩ := ih (y := y + 1) shown_ite (by omega)
      refine ⟨out, ?_, shown''.congr fun x' _ y' _ => ?_⟩
      · rw [List.range'_succ, List.foldlM_cons, first, bind_ok, rest]
      · congr 1
        by_cases inside : (x ≤ x' ∧ x' < right) ∧ y + 1 ≤ y' ∧ y' < y + 1 + n
        · rw [if_pos inside, if_pos (by omega)]
        · rw [if_neg inside]
          exact if_congr (by omega) rfl rfl

def rectLayer (x y w h ink : Nat) : Layer Nat := ⟨(Area.mk x y w h).shape, ink⟩

@[simp] theorem rectLayer_ink (x y w h ink : Nat) : (rectLayer x y w h ink).ink = ink := rfl

@[simp] theorem rectLayer_shape {x y w h ink px py : Nat} :
    (rectLayer x y w h ink).shape px py = true ↔ (Area.mk x y w h).Has px py :=
  Area.shape_eq_true

/-- A rectangle is cut off at the canvas's right and bottom edge. -/
theorem paints_rect (screen : Screen width height) (x y w h ink : Nat) :
    Paints width height (fun c : Canvas P => c.rect x y w h ink) [rectLayer x y w h ink] := by
  rintro ⟨pixels, columns, rows⟩ pic ⟨width_eq, height_eq, grid⟩
  obtain rfl : width = columns := width_eq.symm
  obtain rfl : height = rows := height_eq.symm
  have wide := screen.narrow
  have high := screen.low
  have right_eq : min (saturatingAdd x w) width = min (x + w) width := by
    rw [saturatingAdd]
    omega
  have bottom_eq : min (saturatingAdd y h) height = min (y + h) height := by
    rw [saturatingAdd]
    omega
  simp only [Canvas.rect, right_eq, bottom_eq, shade_cons, shade_nil, rectLayer_shape,
    rectLayer_ink]
  by_cases empty : x ≥ min (x + w) width ∨ y ≥ min (y + h) height
  · refine ⟨_, if_pos empty, rfl, rfl, grid.congr fun x' x_lt y' y_lt => ?_⟩
    rw [if_neg]
    rintro ⟨columns, rows⟩
    simp only at columns rows
    omega
  · have rows : y + (min (y + h) height - y) ≤ height := by omega
    have columns : x ≤ min (x + w) width := by omega
    obtain ⟨out, done, shown⟩ :=
      foldlM_fillRow ink screen.size_lt grid rows columns (Nat.min_le_right _ _)
    refine ⟨⟨out, width, height⟩, ?_, rfl, rfl, shown.congr fun x' x_lt y' y_lt => ?_⟩
    · rw [if_neg empty, done, bind_ok]
      rfl
    · congr 1
      refine if_congr ?_ rfl rfl
      simp only [Area.Has]
      omega

/-! ### Round corners -/

/-- How far a row is from the rows that have no corner. -/
def cornerDepth (h r dy : Nat) : Nat := if dy < r then r - dy - 1 else dy - (h - r)

/-- The rectangle without what lies outside the quarter circles at its corners. -/
def roundedShape (x y w h r : Nat) : Shape := fun px py =>
  decide ((Area.mk x y w h).Has px py) &&
    (decide ((r - (px - x)) * (r - (px - x)) + cornerDepth h r (py - y) * cornerDepth h r (py - y)
      ≤ r * r) &&
    decide ((r - (x + w - 1 - px)) * (r - (x + w - 1 - px)) +
      cornerDepth h r (py - y) * cornerDepth h r (py - y) ≤ r * r))

def roundedLayer (x y w h r ink : Nat) : Layer Nat := ⟨roundedShape x y w h r, ink⟩

@[simp] theorem roundedLayer_ink (x y w h r ink : Nat) :
    (roundedLayer x y w h r ink).ink = ink := rfl

@[simp] theorem roundedLayer_shape (x y w h r ink : Nat) :
    (roundedLayer x y w h r ink).shape = roundedShape x y w h r := rfl

theorem edgeOf_eq {h r dy : Nat} (row : dy < h) : edgeOf h r dy = .ok (cornerDepth h r dy) := by
  rw [edgeOf, cornerDepth]
  by_cases top : dy < r
  · rw [if_pos top, if_pos top, sub_of_le (by omega), bind_ok, sub_of_le (by omega)]
  · rw [if_neg top, if_neg top, sub_of_le (by omega), bind_ok]
    by_cases bottom : dy ≥ h - r
    · rw [if_pos bottom, sub_of_le bottom]
    · rw [if_neg bottom, pure_eq, show dy - (h - r) = 0 by omega]

theorem cornerDepth_lt {h r dy : Nat} (row : dy < h) : cornerDepth h r dy ≤ r := by
  rw [cornerDepth]
  split <;> omega

/-- The loop ends at the first column that the circle reaches. -/
theorem insetFrom_of {r edge left : Nat} (inset : Nat) (small : r ≤ 2 ^ 31) (deep : edge ≤ r)
    (total : inset + left = r)
    (outside : ∀ k < inset, r * r < (r - k) * (r - k) + edge * edge) :
    ∃ i ≤ r, insetFrom r edge left inset = .ok i ∧
      ∀ k, i ≤ k ↔ (r - k) * (r - k) + edge * edge ≤ r * r := by
  have square : ∀ {a b : Nat}, a ≤ b → a * a ≤ b * b := fun le => Nat.mul_le_mul le le
  have limit : r * r ≤ 2 ^ 62 := square small
  -- A column further in is nearer to the circle.
  have decides : ∀ {i}, i ≤ r → (r - i) * (r - i) + edge * edge ≤ r * r →
      (∀ k < i, r * r < (r - k) * (r - k) + edge * edge) →
      ∀ k, i ≤ k ↔ (r - k) * (r - k) + edge * edge ≤ r * r := by
    intro i _ reached before k
    rcases Nat.lt_or_ge k i with less | more
    · exact iff_of_false (Nat.not_le.mpr less) (Nat.not_le.mpr (before k less))
    · have nearer : (r - k) * (r - k) ≤ (r - i) * (r - i) := square (by omega)
      exact iff_of_true more (by omega)
  induction left generalizing inset with
  | zero =>
      obtain rfl : inset = r := total
      refine ⟨inset, Nat.le_refl _, rfl, decides (Nat.le_refl _) ?_ outside⟩
      rw [Nat.sub_self, Nat.zero_mul, Nat.zero_add]
      exact square deep
  | succ left ih =>
      have side : (r - inset) * (r - inset) ≤ r * r := square (Nat.sub_le r inset)
      have depth : edge * edge ≤ r * r := square deep
      rw [insetFrom, sub_of_le (by omega), bind_ok, mul_of_lt (by omega), bind_ok,
        mul_of_lt (by omega), bind_ok, add_of_lt (by omega), bind_ok, mul_of_lt (by omega), bind_ok]
      by_cases beyond : (r - inset) * (r - inset) + edge * edge > r * r
      · rw [if_pos beyond]
        refine ih (inset + 1) (by omega) fun k less => ?_
        rcases Nat.lt_succ_iff_lt_or_eq.mp less with earlier | rfl
        · exact outside k earlier
        · exact beyond
      · rw [if_neg beyond]
        exact ⟨inset, by omega, rfl, decides (by omega) (Nat.not_lt.mp beyond) outside⟩

theorem paints_roundedRow (screen : Screen width height) {x y w h r dy : Nat} (ink : Nat)
    (row : dy < h) (small : r ≤ 2 ^ 31) (column : x + r < 2 ^ 64) (rows : y + h ≤ 2 ^ 64) :
    Paints width height (fun c : Canvas P => roundedRow x y w h r ink c dy)
      [⟨fun px py => roundedShape x y w h r px py && decide (py = y + dy), ink⟩] := by
  obtain ⟨i, i_le, found, inside⟩ :=
    insetFrom_of 0 small (cornerDepth_lt row) (Nat.zero_add r) nofun
  have op_eq : ∀ c : Canvas P, roundedRow x y w h r ink c dy =
      c.rect (x + i) (y + dy) (w - 2 * i) 1 ink := fun c => by
    rw [roundedRow, edgeOf_eq row, bind_ok, found, bind_ok, add_of_lt (by omega), bind_ok,
      add_of_lt (by omega), bind_ok, mul_of_lt (by omega), bind_ok]
  simp only [op_eq]
  refine (paints_rect screen _ _ _ _ ink).join (by simp) fun px py => ?_
  rw [touches_cons, or_iff_left not_touches_nil, rectLayer_shape, Bool.and_eq_true,
    decide_eq_true_iff, roundedShape, Bool.and_eq_true, Bool.and_eq_true, decide_eq_true_iff,
    decide_eq_true_iff, decide_eq_true_iff]
  simp only [Area.Has]
  constructor
  · rintro ⟨⟨left, right⟩, top, bottom⟩
    obtain rfl : py = y + dy := by omega
    rw [Nat.add_sub_cancel_left, ← inside, ← inside]
    omega
  · rintro ⟨⟨⟨⟨left, right⟩, top, bottom⟩, near, far⟩, rfl⟩
    rw [Nat.add_sub_cancel_left, ← inside] at near far
    omega

theorem paints_rounded (screen : Screen width height) {x y w h r : Nat} (ink : Nat)
    (small : r ≤ 2 ^ 31) (column : x + r < 2 ^ 64) (rows : y + h ≤ 2 ^ 64) :
    Paints width height (fun c : Canvas P => c.rounded x y w h r ink)
      [roundedLayer x y w h r ink] := by
  refine (Paints.foldlM fun dy mem => paints_roundedRow screen ink (List.mem_range.mp mem) small
    column rows).join (fun layer mem => ?_) fun px py => ?_
  · obtain ⟨dy, _, one⟩ := List.mem_flatMap.mp mem
    rw [List.mem_singleton.mp one]
  simp only [touches_flatMap, List.mem_range, touches_cons, or_iff_left not_touches_nil,
    Bool.and_eq_true, decide_eq_true_iff]
  constructor
  · rintro ⟨dy, _, has, _⟩
    exact has
  · intro has
    have area := has
    rw [roundedShape, Bool.and_eq_true, decide_eq_true_iff] at area
    obtain ⟨⟨_, top, bottom⟩, _⟩ := area
    simp only at top bottom
    exact ⟨py - y, by omega, has, by omega⟩

/-! ### Texts -/

/-- Every bitmap has seven rows. -/
@[simp] theorem length_glyph (ch : Char) : (glyph ch).length = 7 := by
  unfold glyph
  split <;> rfl

/-- A row of a bitmap has this bit: the highest of five is on the left. -/
def bitAt (bits col : Nat) : Bool := decide (col < 5) && decide (bits &&& 1 <<< (4 - col) ≠ 0)

/-- The bitmap of the character has this bit. -/
def litBit (ch : Char) (row col : Nat) : Bool := (glyph ch)[row]?.any (bitAt · col)

/-- The characters that `text` draws. -/
def shownChars (text : String) (maxChars : Nat) : List Char :=
  (text.toList.take maxChars).zipIdx.map fun entry =>
    shownChar (decide (text.toList.length > maxChars)) maxChars entry.2 entry.1

/-- The lit cells of a row of characters: six columns each, of which the bitmap has five. -/
def textShape (x y : Nat) (chars : List Char) (scale : Nat) : Shape := fun px py =>
  decide (x ≤ px ∧ y ≤ py) && chars[(px - x) / scale / 6]?.any fun ch =>
    litBit ch ((py - y) / scale) ((px - x) / scale % 6)

def textLayer (x y : Nat) (text : String) (scale ink maxChars : Nat) : Layer Nat :=
  ⟨textShape x y (shownChars text maxChars) scale, ink⟩

def centeredLayer (center y : Nat) (text : String) (scale ink maxChars : Nat) : Layer Nat :=
  textLayer (center - (min text.toList.length maxChars * (6 * scale) - scale) / 2) y text scale ink
    maxChars

@[simp] theorem length_shownChars (text : String) (maxChars : Nat) :
    (shownChars text maxChars).length = min maxChars text.toList.length := by
  rw [shownChars, List.length_map, List.length_zipIdx, List.length_take]

theorem getElem?_shownChars (text : String) (maxChars place : Nat) :
    (shownChars text maxChars)[place]? = (text.toList.take maxChars)[place]?.map
      (shownChar (decide (text.toList.length > maxChars)) maxChars place) := by
  rw [shownChars, List.getElem?_map, List.getElem?_zipIdx, Option.map_map, Nat.zero_add]
  rfl

theorem bitAt_eq_true {bits col : Nat} :
    bitAt bits col = true ↔ col < 5 ∧ bits &&& 1 <<< (4 - col) ≠ 0 := by
  rw [bitAt, Bool.and_eq_true, decide_eq_true_iff, decide_eq_true_iff]

theorem lt_of_litBit {ch : Char} {row col : Nat} (lit : litBit ch row col = true) :
    row < 7 ∧ col < 5 := by
  obtain ⟨bits, found, bit⟩ := (Option.any_eq_true _ _).mp lit
  obtain ⟨inside, _⟩ := List.getElem?_eq_some_iff.mp found
  exact ⟨length_glyph ch ▸ inside, (bitAt_eq_true.mp bit).1⟩

theorem textShape_eq_true {x y scale px py : Nat} {chars : List Char} :
    textShape x y chars scale px py = true ↔ (x ≤ px ∧ y ≤ py) ∧
      ∃ ch, chars[(px - x) / scale / 6]? = some ch ∧
        litBit ch ((py - y) / scale) ((px - x) / scale % 6) = true := by
  rw [textShape, Bool.and_eq_true, decide_eq_true_iff, Option.any_eq_true]

/-- No text leaves its box. -/
theorem area_of_textShape {x y scale px py n : Nat} {chars : List Char} (positive : 0 < scale)
    (long : chars.length ≤ n) (has : textShape x y chars scale px py = true) :
    (Area.mk x y (n * 6 * scale) (7 * scale)).Has px py := by
  obtain ⟨⟨left, top⟩, ch, found, lit⟩ := textShape_eq_true.mp has
  obtain ⟨place, _⟩ := List.getElem?_eq_some_iff.mp found
  have column : (px - x) / scale < n * 6 :=
    (Nat.div_lt_iff_lt_mul (by decide)).mp (Nat.lt_of_lt_of_le place long)
  have right : px - x < n * 6 * scale := (Nat.div_lt_iff_lt_mul positive).mp column
  have bottom : py - y < 7 * scale :=
    (Nat.div_lt_iff_lt_mul positive).mp (lt_of_litBit lit).1
  exact ⟨⟨left, by simp only; omega⟩, top, by simp only; omega⟩

section Text

variable {x y scale : Nat} (screen : Screen width height) (positive : 0 < scale)
  (below : y + 7 * scale < 2 ^ 64)

include screen positive below

theorem paints_glyphColumn {index row col : Nat} (bits ink : Nat)
    (column : x + (index + 1) * 6 * scale < 2 ^ 64) (col_lt : col < 5) (row_lt : row < 7) :
    Paints width height (fun c : Canvas P => glyphColumn x y index scale ink row bits c col)
      [⟨fun px py => decide (bits &&& 1 <<< (4 - col) ≠ 0) && decide ((x ≤ px ∧ y ≤ py) ∧
        (px - x) / scale = index * 6 + col ∧ (py - y) / scale = row), ink⟩] := by
  have across : col * scale ≤ 4 * scale := Nat.mul_le_mul_right scale (by omega)
  have down : row * scale ≤ 6 * scale := Nat.mul_le_mul_right scale (by omega)
  have pitch : (index + 1) * 6 * scale = index * 6 * scale + 6 * scale := by
    rw [Nat.add_mul, Nat.add_mul]
  have places : index * 6 ≤ index * 6 * scale := Nat.le_mul_of_pos_right _ positive
  have cells : (index * 6 + col) * scale = index * 6 * scale + col * scale := Nat.add_mul _ _ _
  by_cases bit : bits &&& 1 <<< (4 - col) ≠ 0
  · have op_eq : ∀ c : Canvas P, glyphColumn x y index scale ink row bits c col =
        c.rect (x + index * 6 * scale + col * scale) (y + row * scale) scale scale ink := by
      intro c
      rw [glyphColumn, if_pos bit, mul_of_lt (by omega), bind_ok, mul_of_lt (by omega), bind_ok,
        add_of_lt (by omega), bind_ok, mul_of_lt (by omega), bind_ok, add_of_lt (by omega),
        bind_ok, mul_of_lt (by omega), bind_ok, add_of_lt (by omega), bind_ok]
    simp only [op_eq]
    refine (paints_rect screen _ _ _ _ ink).join (by simp) fun px py => ?_
    rw [touches_cons, or_iff_left not_touches_nil, rectLayer_shape, decide_eq_true bit,
      Bool.true_and, decide_eq_true_iff, Nat.div_eq_iff positive, Nat.div_eq_iff positive, cells]
    simp only [Area.Has]
    omega
  · have op_eq : ∀ c : Canvas P, glyphColumn x y index scale ink row bits c col = pure c :=
      fun c => if_neg bit
    simp only [op_eq]
    exact paints_pure.join (by simp) fun px py => by simp [not_touches_nil, bit]

theorem paints_glyphRow {index : Nat} (row : Nat × Nat) (ink : Nat)
    (column : x + (index + 1) * 6 * scale < 2 ^ 64) (row_lt : row.2 < 7) :
    Paints width height (fun c : Canvas P => glyphRow x y index scale ink c row)
      [⟨fun px py => decide ((x ≤ px ∧ y ≤ py) ∧ (px - x) / scale / 6 = index ∧
        (py - y) / scale = row.2) && bitAt row.1 ((px - x) / scale % 6), ink⟩] := by
  refine (Paints.foldlM fun col mem => paints_glyphColumn screen positive below row.1 ink
    column (List.mem_range.mp mem) row_lt).join (fun layer mem => ?_) fun px py => ?_
  · obtain ⟨col, _, one⟩ := List.mem_flatMap.mp mem
    rw [List.mem_singleton.mp one]
  · simp only [touches_flatMap, List.mem_range, touches_cons, or_iff_left not_touches_nil,
      Bool.and_eq_true, decide_eq_true_iff, bitAt_eq_true]
    constructor
    · rintro ⟨col, col_lt, bit, inside, column_eq, row_eq⟩
      obtain rfl : (px - x) / scale % 6 = col := by omega
      exact ⟨⟨inside, by omega, row_eq⟩, col_lt, bit⟩
    · rintro ⟨⟨inside, index_eq, row_eq⟩, col_lt, bit⟩
      exact ⟨_, col_lt, bit, inside, by omega, row_eq⟩

theorem paints_textChar {maxChars : Nat} {truncated : Bool} (entry : Char × Nat) (ink : Nat)
    (column : x + (entry.2 + 1) * 6 * scale < 2 ^ 64) :
    Paints width height (fun c : Canvas P => textChar x y scale ink maxChars truncated c entry)
      [⟨fun px py => decide ((x ≤ px ∧ y ≤ py) ∧ (px - x) / scale / 6 = entry.2) &&
        litBit (shownChar truncated maxChars entry.2 entry.1) ((py - y) / scale)
          ((px - x) / scale % 6), ink⟩] := by
  refine (Paints.foldlM fun row mem =>
    paints_glyphRow screen positive below row ink column ?_).join (fun layer mem => ?_)
      fun px py => ?_
  · obtain ⟨inside, _⟩ := List.getElem?_eq_some_iff.mp (List.mem_zipIdx_iff_getElem?.mp mem)
    rwa [length_glyph] at inside
  · obtain ⟨row, _, one⟩ := List.mem_flatMap.mp mem
    rw [List.mem_singleton.mp one]
  · simp only [touches_flatMap, Prod.exists, List.mem_zipIdx_iff_getElem?, touches_cons,
      or_iff_left not_touches_nil, Bool.and_eq_true, decide_eq_true_iff, litBit,
      Option.any_eq_true]
    constructor
    · rintro ⟨bits, row, found, ⟨inside, index_eq, rfl⟩, bit⟩
      exact ⟨⟨inside, index_eq⟩, bits, found, bit⟩
    · rintro ⟨⟨inside, index_eq⟩, bits, found, bit⟩
      exact ⟨bits, _, found, ⟨inside, index_eq, rfl⟩, bit⟩

/-- A text paints the lit cells of its bitmaps, whatever its characters are. -/
theorem paints_text {maxChars : Nat} (text : String) (ink : Nat)
    (column : x + maxChars * 6 * scale < 2 ^ 64) :
    Paints width height (fun c : Canvas P => c.text x y text scale ink maxChars)
      [textLayer x y text scale ink maxChars] := by
  refine (Paints.foldlM fun entry mem =>
    paints_textChar screen positive below entry ink ?_).join (fun layer mem => ?_) fun px py => ?_
  · obtain ⟨place, _⟩ := List.getElem?_eq_some_iff.mp (List.mem_zipIdx_iff_getElem?.mp mem)
    have wide : (entry.2 + 1) * 6 * scale ≤ maxChars * 6 * scale :=
      Nat.mul_le_mul_right _ (Nat.mul_le_mul_right _ (place.trans_le (List.length_take_le _ _)))
    omega
  · obtain ⟨entry, _, one⟩ := List.mem_flatMap.mp mem
    rw [List.mem_singleton.mp one]
  · simp only [touches_flatMap, Prod.exists, List.mem_zipIdx_iff_getElem?, touches_cons,
      or_iff_left not_touches_nil, Bool.and_eq_true, decide_eq_true_iff, textShape_eq_true,
      getElem?_shownChars, Option.map_eq_some_iff]
    constructor
    · rintro ⟨ch, index, found, ⟨inside, rfl⟩, lit⟩
      exact ⟨inside, _, ⟨ch, found, rfl⟩, lit⟩
    · rintro ⟨inside, _, ⟨ch, found, rfl⟩, lit⟩
      exact ⟨ch, _, found, ⟨inside, rfl⟩, lit⟩

/-- A text in the middle: it starts half its width before the center. -/
theorem paints_centered {center maxChars : Nat} (text : String) (ink : Nat)
    (column : center + maxChars * 6 * scale < 2 ^ 64) :
    Paints width height (fun c : Canvas P => c.centered center y text scale ink maxChars)
      [centeredLayer center y text scale ink maxChars] := by
  have wide : min text.toList.length maxChars * (6 * scale) ≤ maxChars * (6 * scale) :=
    Nat.mul_le_mul_right _ (Nat.min_le_right _ _)
  rw [Nat.mul_assoc] at column
  have op_eq : ∀ c : Canvas P, c.centered center y text scale ink maxChars =
      c.text (center - (min text.toList.length maxChars * (6 * scale) - scale) / 2) y text scale
        ink maxChars := fun c => by
    rw [Canvas.centered, mul_of_lt (by omega), bind_ok]
    simp only [saturatingMul]
    rw [Nat.min_eq_left (by omega)]
  simp only [op_eq]
  exact paints_text screen positive below text ink (by rw [Nat.mul_assoc]; omega)

end Text

end Painting

end Nextcore.BootPicker
