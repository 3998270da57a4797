import Nextcore.Lib.Painting

/-!
The boot picker (`src/boot_picker.rs`): navigation, the canvas and its drawing operations, the
glyphs, and the frame that `render` draws.

A pixel type is anything with an `rgb`. Coordinates are `usize`; every `+`, `-` and `*` on them is
checked here, as are the slice bounds of `fill`, so that a frame that would overflow or leave the
canvas is a panic. `render` is cut into the parts that it draws one behind the other.
-/

namespace Nextcore.BootPicker

open Checked Checked.Outcome

def maxPixels : Nat := 4096 * 2160

/-- The trait `Pixel`. -/
class Pixel (P : Type) where
  rgb : UInt8 → UInt8 → UInt8 → P

/-- A pixel of three colours. -/
structure Rgb where
  red : UInt8
  green : UInt8
  blue : UInt8
  deriving DecidableEq, Repr

instance : Pixel Rgb := ⟨Rgb.mk⟩

inductive ViewError where
  | dimensions
  | selection
  | allocation
  deriving DecidableEq, Repr

abbrev Result (α : Type) := Outcome ViewError α

/-! ### Navigation -/

inductive Action where
  | previous
  | next
  | first
  | last
  | boot
  | cancel
  | none
  deriving DecidableEq, Repr

inductive Update where
  | redraw
  | boot (entry : Nat)
  | cancel
  | unchanged
  deriving DecidableEq, Repr

/-- The end of `navigate`, with the selection that it leaves. -/
def moved (old selected : Nat) : Update × Nat :=
  (if selected = old then .unchanged else .redraw, selected)

/-- `navigate`: the update and the selection behind it. -/
def navigate (selected count : Nat) (action : Action) : Update × Nat :=
  if count = 0 ∨ selected ≥ count then (.cancel, selected)
  else
    match action with
    | .previous => moved selected (if selected = 0 then count - 1 else selected - 1)
    | .next => moved selected ((selected + 1) % count)
    | .first => moved selected 0
    | .last => moved selected (count - 1)
    | .boot => (.boot selected, selected)
    | .cancel => (.cancel, selected)
    | .none => moved selected selected

/-! ### The canvas -/

def bg : Nat := 0x08090b
def tileInk : Nat := 0x16191e
def lineInk : Nat := 0x313741
def white : Nat := 0xf3f5f7
def muted : Nat := 0x969fae
def accent : Nat := 0xb9edce

structure Canvas (P : Type) where
  pixels : List P
  width : Nat
  height : Nat
  deriving DecidableEq, Repr

section Drawing

variable {P : Type} [Pixel P]

/-- `Canvas::color`. -/
def colorOf (value : Nat) : P :=
  Pixel.rgb (UInt8.ofNat (value >>> 16)) (UInt8.ofNat (value >>> 8)) (UInt8.ofNat value)

/-- `a.saturating_add(b)`. -/
def saturatingAdd (a b : Nat) : Nat := min (a + b) (2 ^ 64 - 1)

/-- `a.saturating_mul(b)`. -/
def saturatingMul (a b : Nat) : Nat := min (a * b) (2 ^ 64 - 1)

/-- One row of `rect`. -/
def fillRow (width x right color : Nat) (pixels : List P) (row : Nat) : Result (List P) := do
  let start ← mul row width
  let first ← add start x
  let stop ← add start right
  fill pixels first stop (colorOf color)

/-- `Canvas::rect`. -/
def Canvas.rect (c : Canvas P) (x y w h color : Nat) : Result (Canvas P) :=
  let right := min (saturatingAdd x w) c.width
  let bottom := min (saturatingAdd y h) c.height
  if x ≥ right ∨ y ≥ bottom then pure c
  else do
    let pixels ← (List.range' y (bottom - y)).foldlM (fillRow c.width x right color) c.pixels
    pure { c with pixels }

/-- The `edge` of a row of `rounded`. -/
def edgeOf (h r dy : Nat) : Result Nat :=
  if dy < r then do
    let depth ← sub r dy
    sub depth 1
  else do
    let limit ← sub h r
    if dy ≥ limit then sub dy limit else pure 0

/-- The `while` loop of `rounded`: it ends at the radius, so at most `left` rounds remain. -/
def insetFrom (r edge : Nat) : Nat → Nat → Result Nat
  | 0, inset => pure inset
  | left + 1, inset => do
    let side ← sub r inset
    let side ← mul side side
    let depth ← mul edge edge
    let reach ← add side depth
    let limit ← mul r r
    if reach > limit then insetFrom r edge left (inset + 1) else pure inset

/-- One row of `rounded`. -/
def roundedRow (x y w h r color : Nat) (c : Canvas P) (dy : Nat) : Result (Canvas P) := do
  let edge ← edgeOf h r dy
  let inset ← insetFrom r edge r 0
  let left ← add x inset
  let top ← add y dy
  let both ← mul 2 inset
  c.rect left top (w - both) 1 color

/-- `Canvas::rounded`. -/
def Canvas.rounded (c : Canvas P) (x y w h r color : Nat) : Result (Canvas P) :=
  (List.range h).foldlM (roundedRow x y w h r color) c

/-- The 5x7 bitmaps: a row's five bits, the highest on the left. -/
def glyph : Char → List Nat
  | 'a' => [0, 0, 14, 1, 15, 17, 15]
  | 'b' => [16, 16, 22, 25, 17, 17, 30]
  | 'c' => [0, 0, 14, 17, 16, 17, 14]
  | 'd' => [1, 1, 13, 19, 17, 17, 15]
  | 'e' => [0, 0, 14, 17, 31, 16, 14]
  | 'f' => [6, 9, 8, 28, 8, 8, 8]
  | 'g' => [0, 0, 15, 17, 15, 1, 14]
  | 'h' => [16, 16, 22, 25, 17, 17, 17]
  | 'i' => [4, 0, 12, 4, 4, 4, 14]
  | 'j' => [2, 0, 6, 2, 2, 18, 12]
  | 'k' => [16, 16, 18, 20, 24, 20, 18]
  | 'l' => [12, 4, 4, 4, 4, 4, 14]
  | 'm' => [0, 0, 26, 21, 21, 17, 17]
  | 'n' => [0, 0, 22, 25, 17, 17, 17]
  | 'o' => [0, 0, 14, 17, 17, 17, 14]
  | 'p' => [0, 0, 30, 17, 30, 16, 16]
  | 'q' => [0, 0, 15, 17, 15, 1, 1]
  | 'r' => [0, 0, 22, 25, 16, 16, 16]
  | 's' => [0, 0, 15, 16, 14, 1, 30]
  | 't' => [8, 8, 28, 8, 8, 9, 6]
  | 'u' => [0, 0, 17, 17, 17, 19, 13]
  | 'v' => [0, 0, 17, 17, 17, 10, 4]
  | 'w' => [0, 0, 17, 17, 21, 21, 10]
  | 'x' => [0, 0, 17, 10, 4, 10, 17]
  | 'y' => [0, 0, 17, 17, 15, 1, 14]
  | 'z' => [0, 0, 31, 2, 4, 8, 31]
  | 'A' => [14, 17, 17, 31, 17, 17, 17]
  | 'B' => [30, 17, 17, 30, 17, 17, 30]
  | 'C' => [14, 17, 16, 16, 16, 17, 14]
  | 'D' => [30, 17, 17, 17, 17, 17, 30]
  | 'E' => [31, 16, 16, 30, 16, 16, 31]
  | 'F' => [31, 16, 16, 30, 16, 16, 16]
  | 'G' => [14, 17, 16, 23, 17, 17, 15]
  | 'H' => [17, 17, 17, 31, 17, 17, 17]
  | 'I' => [14, 4, 4, 4, 4, 4, 14]
  | 'J' => [7, 2, 2, 2, 2, 18, 12]
  | 'K' => [17, 18, 20, 24, 20, 18, 17]
  | 'L' => [16, 16, 16, 16, 16, 16, 31]
  | 'M' => [17, 27, 21, 21, 17, 17, 17]
  | 'N' => [17, 25, 25, 21, 19, 19, 17]
  | 'O' => [14, 17, 17, 17, 17, 17, 14]
  | 'P' => [30, 17, 17, 30, 16, 16, 16]
  | 'Q' => [14, 17, 17, 17, 21, 18, 13]
  | 'R' => [30, 17, 17, 30, 20, 18, 17]
  | 'S' => [15, 16, 16, 14, 1, 1, 30]
  | 'T' => [31, 4, 4, 4, 4, 4, 4]
  | 'U' => [17, 17, 17, 17, 17, 17, 14]
  | 'V' => [17, 17, 17, 17, 17, 10, 4]
  | 'W' => [17, 17, 17, 21, 21, 21, 10]
  | 'X' => [17, 17, 10, 4, 10, 17, 17]
  | 'Y' => [17, 17, 10, 4, 4, 4, 4]
  | 'Z' => [31, 1, 2, 4, 8, 16, 31]
  | '0' => [14, 17, 19, 21, 25, 17, 14]
  | '1' => [4, 12, 4, 4, 4, 4, 14]
  | '2' => [14, 17, 1, 2, 4, 8, 31]
  | '3' => [30, 1, 1, 14, 1, 1, 30]
  | '4' => [2, 6, 10, 18, 31, 2, 2]
  | '5' => [31, 16, 16, 30, 1, 1, 30]
  | '6' => [14, 16, 16, 30, 17, 17, 14]
  | '7' => [31, 1, 2, 4, 8, 8, 8]
  | '8' => [14, 17, 17, 14, 17, 17, 14]
  | '9' => [14, 17, 17, 15, 1, 1, 14]
  | ' ' => [0, 0, 0, 0, 0, 0, 0]
  | '.' => [0, 0, 0, 0, 0, 6, 6]
  | '-' => [0, 0, 0, 31, 0, 0, 0]
  | '_' => [0, 0, 0, 0, 0, 0, 31]
  | '/' => [1, 2, 2, 4, 8, 8, 16]
  | '(' => [2, 4, 8, 8, 8, 4, 2]
  | ')' => [8, 4, 2, 2, 2, 4, 8]
  | ':' => [0, 6, 6, 0, 6, 6, 0]
  | _ => [14, 17, 1, 2, 4, 0, 4]

/-- One column of a row of a glyph. -/
def glyphColumn (x y index scale color row bits : Nat) (c : Canvas P) (col : Nat) :
    Result (Canvas P) :=
  if bits &&& 1 <<< (4 - col) ≠ 0 then do
    let pitch ← mul index 6
    let pitch ← mul pitch scale
    let left ← add x pitch
    let across ← mul col scale
    let left ← add left across
    let down ← mul row scale
    let top ← add y down
    c.rect left top scale scale color
  else pure c

/-- One row of a glyph, with its number. -/
def glyphRow (x y index scale color : Nat) (c : Canvas P) (row : Nat × Nat) : Result (Canvas P) :=
  (List.range 5).foldlM (glyphColumn x y index scale color row.2 row.1) c

/-- The character that `text` draws at a place. -/
def shownChar (truncated : Bool) (maxChars index : Nat) (ch : Char) : Char :=
  if truncated ∧ index ≥ maxChars - 3 then '.' else ch

/-- One character of `text`, with its place. -/
def textChar (x y scale color maxChars : Nat) (truncated : Bool) (c : Canvas P)
    (entry : Char × Nat) : Result (Canvas P) :=
  (glyph (shownChar truncated maxChars entry.2 entry.1)).zipIdx.foldlM
    (glyphRow x y entry.2 scale color) c

/-- `Canvas::text`. -/
def Canvas.text (c : Canvas P) (x y : Nat) (text : String) (scale color maxChars : Nat) :
    Result (Canvas P) :=
  let truncated := decide (text.toList.length > maxChars)
  (text.toList.take maxChars).zipIdx.foldlM (textChar x y scale color maxChars truncated) c

/-- `Canvas::centered`. -/
def Canvas.centered (c : Canvas P) (center y : Nat) (text : String) (scale color maxChars : Nat) :
    Result (Canvas P) := do
  let chars := min text.toList.length maxChars
  let pitch ← mul 6 scale
  let width := saturatingMul chars pitch - scale
  c.text (center - width / 2) y text scale color maxChars

/-! ### The frame -/

/-- The margin `pad`. -/
def padOf (width : Nat) : Nat := if width ≥ 900 then 56 else 32

/-- What `render` draws above the tiles. -/
def header (width height : Nat) (starting : Bool) (pad : Nat) (c : Canvas P) :
    Result (Canvas P) := do
  let c ← c.rounded pad 32 30 30 8 accent
  let left ← add pad 8
  let c ← c.text left 40 "N" 2 bg 1
  let left ← add pad 44
  let c ← c.text left 39 "NextCore" 3 white 8
  let left ← add pad 45
  let c ← c.text left 69 "BOOT MANAGER" 1 muted 20
  let margins ← mul pad 2
  let wide ← sub width margins
  let c ← c.rect pad 100 wide 1 lineInk
  let titleY := if height ≥ 600 then 142 else 123
  let c ← c.centered (width / 2) titleY
    (if starting then "Starting selected system" else "Choose your system")
    (if width ≥ 900 then 3 else 2) white 35
  let below ← add titleY 34
  c.centered (width / 2) below "Your next session starts here" 1 muted 40

/-- Where the tiles go: the values that `render` computes ahead of its loop. -/
structure Tiles where
  visible : Nat
  tileW : Nat
  tileH : Nat
  tileY : Nat
  startX : Nat
  first : Nat
  deriving DecidableEq, Repr

/-- `a / b` with no guard. -/
def divide (a b : Nat) : Result Nat := if b = 0 then .panic else pure (a / b)

/-- `tile_y`. -/
def tileTop (height tileH : Nat) : Result Nat :=
  if height ≥ 600 then do
    let free ← sub height tileH
    add (free / 2) 32
  else pure 185

def tiles (width height count selected pad : Nat) : Result Tiles := do
  let visible := min (if width ≥ 1080 then 3 else if width ≥ 740 then 2 else 1) count
  let gap := 20
  let margins ← mul pad 2
  let free ← sub width margins
  let gaps ← sub visible 1
  let between ← mul gap gaps
  let free ← sub free between
  let share ← divide free visible
  let tileW := min share 280
  let tileH := if height ≥ 600 then 236 else 164
  let tileY ← tileTop height tileH
  let allW ← mul visible tileW
  let between ← mul gaps gap
  let allW ← add allW between
  let free ← sub width allW
  let startX := free / 2
  let last ← sub count visible
  let first := min (selected - visible / 2) last
  pure ⟨visible, tileW, tileH, tileY, startX, first⟩

/-- `format!("{:02}", n)`. -/
def twoDigits (n : Nat) : String := if n < 10 then "0" ++ toString n else toString n

/-- `format!("{:02} / {:02}", number, count)`. -/
def numberText (number count : Nat) : String := twoDigits number ++ " / " ++ twoDigits count

/-- The word on the selected tile. -/
def badge (active starting : Bool) (x tileY : Nat) (c : Canvas P) : Result (Canvas P) :=
  if active then do
    let left ← add x 18
    let top ← add tileY 18
    c.text left top (if starting then "STARTING" else "SELECTED") 1 accent 12
  else pure c

/-- The volume icon of a tile. -/
def icon (active : Bool) (center iconY : Nat) (c : Canvas P) : Result (Canvas P) := do
  let left ← sub center 30
  let c ← c.rounded left iconY 60 43 7 (if active then 0x476458 else 0x353c46)
  let left ← sub center 20
  let top ← add iconY 11
  let c ← c.rect left top 40 2 (if active then accent else muted)
  let left ← add center 14
  let top ← add iconY 30
  c.rect left top 6 3 (if active then accent else muted)

/-- The texts of a tile under its icon. -/
def labels (names : List String) (volume : String) (index : Nat) (active : Bool) (t : Tiles)
    (center labelY : Nat) (c : Canvas P) : Result (Canvas P) := do
  let name ← expect names[index]?
  let room ← sub t.tileW 28
  let c ← c.centered center labelY name 2 white (room / 12)
  let volumeY ← add labelY 27
  let c ← c.centered center volumeY volume 1 muted (room / 6)
  let bottom ← add t.tileY t.tileH
  let countY ← sub bottom 22
  let number ← add index 1
  c.centered center countY (numberText number names.length) 1 (if active then accent else muted) 12

/-- One round of the loop over the tiles. -/
def tile (names : List String) (volume : String) (selected : Nat) (starting : Bool) (t : Tiles)
    (c : Canvas P) (slot : Nat) : Result (Canvas P) := do
  let index ← add t.first slot
  let pitch ← add t.tileW 20
  let pitch ← mul slot pitch
  let x ← add t.startX pitch
  let active := decide (index = selected)
  let c ← c.rounded x t.tileY t.tileW t.tileH 14 (if active then accent else lineInk)
  let left ← add x 2
  let top ← add t.tileY 2
  let wide ← sub t.tileW 4
  let high ← sub t.tileH 4
  let c ← c.rounded left top wide high 12 (if active then 0x1c2723 else tileInk)
  let c ← badge active starting x t.tileY c
  let center ← add x (t.tileW / 2)
  let iconY ← add t.tileY (if t.tileH > 180 then 61 else 42)
  let c ← icon active center iconY c
  let labelY ← add iconY (if t.tileH > 180 then 66 else 57)
  labels names volume index active t center labelY c

/-- What `render` draws below the tiles. -/
def footer (width height pad : Nat) (c : Canvas P) : Result (Canvas P) := do
  let footer ← sub height 46
  let top ← sub footer 20
  let margins ← mul pad 2
  let wide ← sub width margins
  let c ← c.rect pad top wide 1 lineInk
  let c ← c.text pad footer "ARROWS / TAB  Choose" 1 muted 24
  let c ← c.centered (width / 2) footer "ENTER  Boot" 1 accent 14
  let right ← sub width pad
  let len ← mul "ESC  Cancel".utf8ByteSize 6
  let left ← sub right len
  c.text left footer "ESC  Cancel" 1 muted 14

/-- `render`; `reserves` is what the allocator answers to `try_reserve_exact`. -/
def render (reserves : Nat → Bool) (width height : Nat) (names : List String) (volume : String)
    (selected : Nat) (starting : Bool) : Result (List P) := do
  let size ← ofOption .dimensions (checkedMul width height)
  rejectIf (width < 640 ∨ height < 480 ∨ width > 4096 ∨ height > 2160 ∨ size > maxPixels)
    .dimensions
  rejectIf (names.isEmpty ∨ names.length > 64 ∨ selected ≥ names.length) .selection
  rejectIf (reserves size = false) .allocation
  let pad := padOf width
  let c ← header width height starting pad ⟨List.replicate size (colorOf bg), width, height⟩
  let t ← tiles width height names.length selected pad
  let c ← (List.range t.visible).foldlM (tile names volume selected starting t) c
  let c ← footer width height pad c
  pure c.pixels

end Drawing

end Nextcore.BootPicker
