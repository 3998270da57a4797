import Nextcore.Lib.Word
import Mathlib.Data.List.Basic

/-!
Painting a grid of cells.

A shape is a set of cells, and a layer is a shape in one ink. `shade` is the painter's algorithm:
the layers are put down in their order, and a cell shows the ink of the last one that has it. A
grid in row-major order *displays* a picture; `Displays.fill` is the one lemma about writing into
it, and `Displays.eq_iff` says that a picture leaves nothing of the grid open.
-/

namespace Checked

/-- A set of cells, by their column and row. -/
abbrev Shape := Nat → Nat → Bool

/-- A rectangle of cells. -/
structure Area where
  left : Nat
  top : Nat
  width : Nat
  height : Nat
  deriving DecidableEq, Repr

namespace Area

/-- The cell in column `x` and row `y` lies in the rectangle. -/
def Has (a : Area) (x y : Nat) : Prop :=
  (a.left ≤ x ∧ x < a.left + a.width) ∧ a.top ≤ y ∧ y < a.top + a.height

instance (a : Area) (x y : Nat) : Decidable (a.Has x y) := inferInstanceAs (Decidable (_ ∧ _))

def shape (a : Area) : Shape := fun x y => decide (a.Has x y)

@[simp] theorem shape_eq_true {a : Area} {x y : Nat} : a.shape x y = true ↔ a.Has x y :=
  decide_eq_true_iff

/-- No cell of the one rectangle is a cell of the other. -/
def Apart (a b : Area) : Prop := ∀ x y, a.Has x y → ¬ b.Has x y

/-- Every cell of the one rectangle is a cell of the other. -/
def Within (a b : Area) : Prop := ∀ x y, a.Has x y → b.Has x y

theorem Apart.symm {a b : Area} (apart : a.Apart b) : b.Apart a :=
  fun x y has other => apart x y other has

theorem Apart.mono {a b a' b' : Area} (apart : a.Apart b) (left : a'.Within a)
    (right : b'.Within b) : a'.Apart b' :=
  fun x y has other => apart x y (left x y has) (right x y other)

end Area

/-- A shape in one ink. -/
structure Layer (κ : Type) where
  shape : Shape
  ink : κ

section Shade

variable {κ : Type} {ground ink : κ} {layers more : List (Layer κ)} {x y : Nat}

/-- The ink that a cell shows once the layers are on the ground. -/
def shade (ground : κ) (layers : List (Layer κ)) (x y : Nat) : κ :=
  layers.foldl (fun under layer => if layer.shape x y then layer.ink else under) ground

/-- Some layer has the cell. -/
def Touches (layers : List (Layer κ)) (x y : Nat) : Prop :=
  ∃ layer ∈ layers, layer.shape x y = true

instance : Decidable (Touches layers x y) := inferInstanceAs (Decidable (∃ _ ∈ _, _))

/-- The layers have cells of the rectangle only. -/
def Inside (layers : List (Layer κ)) (area : Area) : Prop :=
  ∀ x y, Touches layers x y → area.Has x y

@[simp] theorem shade_nil : shade ground [] x y = ground := rfl

@[simp] theorem shade_cons {layer : Layer κ} :
    shade ground (layer :: layers) x y =
      shade (if layer.shape x y then layer.ink else ground) layers x y := rfl

theorem shade_append :
    shade ground (layers ++ more) x y = shade (shade ground layers x y) more x y :=
  List.foldl_append

theorem not_touches_nil : ¬ Touches ([] : List (Layer κ)) x y := by
  rintro ⟨_, mem, _⟩
  cases mem

theorem touches_cons {layer : Layer κ} :
    Touches (layer :: layers) x y ↔ layer.shape x y = true ∨ Touches layers x y := by
  simp only [Touches, List.exists_mem_cons_iff]

theorem touches_append : Touches (layers ++ more) x y ↔ Touches layers x y ∨ Touches more x y := by
  simp only [Touches, List.mem_append, or_and_right, exists_or]

theorem touches_flatMap {α : Type} {list : List α} {f : α → List (Layer κ)} :
    Touches (list.flatMap f) x y ↔ ∃ a ∈ list, Touches (f a) x y := by
  simp only [Touches, List.mem_flatMap]
  constructor
  · rintro ⟨layer, ⟨a, mem, layer_mem⟩, has⟩
    exact ⟨a, mem, layer, layer_mem, has⟩
  · rintro ⟨a, mem, layer, layer_mem, has⟩
    exact ⟨layer, ⟨a, mem, layer_mem⟩, has⟩

/-- Layers elsewhere do not change the cell. -/
theorem shade_of_not_touches (elsewhere : ¬ Touches layers x y) :
    shade ground layers x y = ground := by
  induction layers with
  | nil => rfl
  | cons layer rest ih =>
      obtain ⟨outside, others⟩ := not_or.mp (mt touches_cons.mpr elsewhere)
      rw [shade_cons, if_neg outside, ih others]

/-- Layers of one ink show it wherever they are. -/
theorem shade_uniform (uniform : ∀ layer ∈ layers, layer.ink = ink) :
    shade ground layers x y = if Touches layers x y then ink else ground := by
  induction layers generalizing ground with
  | nil => rw [if_neg not_touches_nil, shade_nil]
  | cons layer rest ih =>
      obtain ⟨first, others⟩ := List.forall_mem_cons.mp uniform
      rw [shade_cons, ih others, first]
      by_cases here : layer.shape x y = true
      · rw [if_pos here, if_pos (touches_cons.mpr (.inl here)), ite_self]
      · rw [if_neg here]
        exact if_congr (by rw [touches_cons, or_iff_right here]) rfl rfl

theorem shade_flatMap_congr {α : Type} {list : List α} {f g : α → List (Layer κ)}
    (same : ∀ a ∈ list, ∀ ground, shade ground (f a) x y = shade ground (g a) x y) :
    shade ground (list.flatMap f) x y = shade ground (list.flatMap g) x y := by
  induction list generalizing ground with
  | nil => rfl
  | cons a rest ih =>
      obtain ⟨first, others⟩ := List.forall_mem_cons.mp same
      rw [List.flatMap_cons, List.flatMap_cons, shade_append, shade_append, first, ih others]

/-- What is put down after the layers of one part of the picture, and elsewhere, does not show. -/
theorem shade_flatMap_of_mem {α : Type} {front rest : List α} {a : α} {f : α → List (Layer κ)}
    (before : ∀ b ∈ front, ¬ Touches (f b) x y) (behind : ∀ b ∈ rest, ¬ Touches (f b) x y) :
    shade ground ((front ++ a :: rest).flatMap f) x y = shade ground (f a) x y := by
  have none_before : ¬ Touches (front.flatMap f) x y := by
    rw [touches_flatMap]
    rintro ⟨b, mem, hit⟩
    exact before b mem hit
  have none_behind : ¬ Touches (rest.flatMap f) x y := by
    rw [touches_flatMap]
    rintro ⟨b, mem, hit⟩
    exact behind b mem hit
  rw [List.flatMap_append, List.flatMap_cons, shade_append, shade_append,
    shade_of_not_touches none_before, shade_of_not_touches none_behind]

end Shade

/-! ### Grids -/

section Grid

variable {ε P : Type} {cells : List P} {width height : Nat} {pic : Nat → Nat → P}

/-- `cells[start..stop].fill(value)`. -/
def fill (cells : List P) (start stop : Nat) (value : P) : Outcome ε (List P) :=
  if start ≤ stop ∧ stop ≤ cells.length then
    .ok (cells.take start ++ List.replicate (stop - start) value ++ cells.drop stop)
  else .panic

/-- The grid has the picture's cells, row by row. -/
structure Displays (cells : List P) (width height : Nat) (pic : Nat → Nat → P) : Prop where
  length : cells.length = width * height
  cell : ∀ x < width, ∀ y < height, cells[y * width + x]? = some (pic x y)

theorem displays_replicate (width height : Nat) (value : P) :
    Displays (List.replicate (width * height) value) width height fun _ _ => value where
  length := List.length_replicate
  cell := fun x x_lt y y_lt => by
    rw [List.getElem?_replicate, if_pos]
    have row : (y + 1) * width ≤ height * width := Nat.mul_le_mul_right width y_lt
    rw [Nat.succ_mul] at row
    rw [Nat.mul_comm width]
    omega

theorem Displays.congr {pic' : Nat → Nat → P} (shown : Displays cells width height pic)
    (same : ∀ x < width, ∀ y < height, pic x y = pic' x y) :
    Displays cells width height pic' where
  length := shown.length
  cell := fun x x_lt y y_lt => by rw [shown.cell x x_lt y y_lt, same x x_lt y y_lt]

/-- A grid displays one picture only. -/
theorem Displays.eq_iff {cells' : List P} {pic' : Nat → Nat → P}
    (shown : Displays cells width height pic) (shown' : Displays cells' width height pic') :
    cells = cells' ↔ ∀ x < width, ∀ y < height, pic x y = pic' x y := by
  constructor
  · rintro rfl x x_lt y y_lt
    exact Option.some.inj ((shown.cell x x_lt y y_lt).symm.trans (shown'.cell x x_lt y y_lt))
  · intro same
    refine List.ext_getElem? fun i => ?_
    rcases Nat.lt_or_ge i (width * height) with inside | outside
    · have positive : 0 < width := by
        rcases Nat.eq_zero_or_pos width with rfl | positive
        · rw [Nat.zero_mul] at inside
          exact absurd inside (Nat.not_lt_zero i)
        · exact positive
      have x_lt : i % width < width := Nat.mod_lt i positive
      have y_lt : i / width < height := Nat.div_lt_of_lt_mul inside
      have position : i / width * width + i % width = i := Nat.div_add_mod' i width
      rw [← position, shown.cell _ x_lt _ y_lt, shown'.cell _ x_lt _ y_lt, same _ x_lt _ y_lt]
    · rw [List.getElem?_eq_none (shown.length ▸ outside),
        List.getElem?_eq_none (shown'.length ▸ outside)]

theorem length_fill {out : List P} {start stop : Nat} {value : P}
    (filled : (fill cells start stop value : Outcome ε (List P)) = .ok out) :
    out.length = cells.length := by
  unfold fill at filled
  split at filled
  · rename_i fits
    cases filled
    rw [List.length_append, List.length_append, List.length_take, List.length_replicate,
      List.length_drop]
    omega
  · cases filled

theorem fill_of_le {start stop : Nat} (value : P) (ordered : start ≤ stop)
    (inside : stop ≤ cells.length) :
    ∃ out, (fill cells start stop value : Outcome ε (List P)) = .ok out ∧
      ∀ i < cells.length,
        out[i]? = if start ≤ i ∧ i < stop then some value else cells[i]? := by
  refine ⟨_, if_pos ⟨ordered, inside⟩, fun i _ => ?_⟩
  have front : (cells.take start).length = start := by
    rw [List.length_take]
    omega
  have middle : (cells.take start ++ List.replicate (stop - start) value).length = stop := by
    rw [List.length_append, front, List.length_replicate]
    omega
  rcases Nat.lt_or_ge i start with before | from_start
  · rw [if_neg (by omega), List.getElem?_append_left (by omega),
      List.getElem?_append_left (by omega), List.getElem?_take_of_lt before]
  rcases Nat.lt_or_ge i stop with within | behind
  · rw [if_pos ⟨from_start, within⟩, List.getElem?_append_left (by omega),
      List.getElem?_append_right (by omega), front, List.getElem?_replicate, if_pos (by omega)]
  · rw [if_neg (by omega), List.getElem?_append_right (by omega), middle, List.getElem?_drop]
    congr 1
    omega

/-- A run of cells of one row is filled, and nothing else changes. -/
theorem Displays.fill {y left right : Nat} (shown : Displays cells width height pic) (value : P)
    (row : y < height) (ordered : left ≤ right) (fits : right ≤ width) :
    ∃ out, (Checked.fill cells (y * width + left) (y * width + right) value :
        Outcome ε (List P)) = .ok out ∧
      Displays out width height fun x' y' =>
        if y' = y ∧ left ≤ x' ∧ x' < right then value else pic x' y' := by
  have row_end : (y + 1) * width ≤ height * width := Nat.mul_le_mul_right width row
  rw [Nat.succ_mul, Nat.mul_comm height] at row_end
  have inside : y * width + right ≤ cells.length := by
    rw [shown.length]
    omega
  obtain ⟨out, filled, cell⟩ := fill_of_le (ε := ε) value
    (Nat.add_le_add_left ordered (y * width)) inside
  refine ⟨out, filled, by rw [length_fill filled, shown.length], fun x' x_lt y' y_lt => ?_⟩
  have row_end' : (y' + 1) * width ≤ height * width := Nat.mul_le_mul_right width y_lt
  rw [Nat.succ_mul, Nat.mul_comm height] at row_end'
  rw [cell _ (by rw [shown.length]; omega), shown.cell x' x_lt y' y_lt]
  -- A position determines its row, because a column is below the width.
  rcases Nat.lt_trichotomy y' y with above | rfl | below
  · have rows : (y' + 1) * width ≤ y * width := Nat.mul_le_mul_right width above
    rw [Nat.succ_mul] at rows
    rw [if_neg (by omega), if_neg (by omega)]
  · by_cases hit : left ≤ x' ∧ x' < right
    · rw [if_pos (by omega), if_pos ⟨rfl, hit⟩]
    · rw [if_neg (by omega), if_neg fun found => hit found.2]
  · have rows : (y + 1) * width ≤ y' * width := Nat.mul_le_mul_right width below
    rw [Nat.succ_mul] at rows
    rw [if_neg (by omega), if_neg (by omega)]

end Grid

end Checked
