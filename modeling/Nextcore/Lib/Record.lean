import Nextcore.Lib.Patchwork
import Nextcore.Lib.Prefix

/-!
Records in a block of zeros.

The block is the image of its fields. A word is read back where it was put (`wordAt_image`), a
text up to the zero behind it (`takeWhile_window_image`), and a byte of no field is zero
(`getElem?_image_of_clear`).
-/

namespace Checked

section Padded

variable {width : Nat} {name : Bytes}

/-- A padded name, up to its first zero. -/
theorem takeWhile_padded (nonzero : 0 ∉ name) (fits : name.length < width) :
    (padded width name).takeWhile (· ≠ 0) = name := by
  obtain ⟨n, eq⟩ : ∃ n, width - name.length = n + 1 := ⟨width - name.length - 1, by omega⟩
  have plain : ∀ b ∈ name, decide (b ≠ 0) = true := by
    intro b mem
    exact decide_eq_true fun zero => nonzero (zero ▸ mem)
  rw [padded, eq, List.replicate_succ, List.takeWhile_append_of_pos plain,
    List.takeWhile_cons_of_neg, List.append_nil]
  decide

theorem zero_mem_padded (fits : name.length < width) : 0 ∈ padded width name := by
  rw [padded, List.mem_append]
  exact .inr (List.mem_replicate.mpr ⟨by omega, rfl⟩)

end Padded

/-! ### Putting a record together -/

section Copies

variable {ε : Type} {size : Nat} {pieces : List Piece} {bytes : Bytes}

/-- `bytes[start..start + src.len()].copy_from_slice(src)`. -/
def copyPiece (bytes : Bytes) (p : Piece) : Outcome ε Bytes :=
  copyFrom bytes p.start (p.start + p.bytes.length) p.bytes

theorem foldlM_copyPiece (fits : ∀ p ∈ pieces, p.span.stop ≤ bytes.length) :
    pieces.foldlM copyPiece bytes = (.ok (applied pieces bytes) : Outcome ε Bytes) := by
  induction pieces generalizing bytes with
  | nil => rfl
  | cons p rest ih =>
      obtain ⟨first, others⟩ := List.forall_mem_cons.mp fits
      have room : p.start + p.bytes.length ≤ bytes.length := first
      rw [List.foldlM_cons, copyPiece, copyFrom_of_le room, Outcome.bind_ok, ih]
      · rfl
      · rwa [length_overlay]

/-- Fields that are apart make up the record, in whatever order they are written. -/
theorem applied_zeros_eq (apart : pieces.Pairwise fun p q => p.span.Apart q.span)
    (fits : ∀ p ∈ pieces, p.span.stop ≤ size) :
    applied pieces (List.replicate size 0) = image size pieces := by
  rw [eq_image_iff (by rw [length_applied, List.length_replicate])]
  exact applied_zeros apart fits

/-- Fixed fields and a text, which stays in a room of its own, are apart. -/
theorem pairwise_apart_of_room {front back : List Span} {start length room : Nat}
    (fixed : (front ++ back).Pairwise Span.Apart)
    (clear : ∀ s ∈ front ++ back, s.Apart ⟨start, room⟩) (short : length ≤ room) :
    (front ++ ⟨start, length⟩ :: back).Pairwise Span.Apart := by
  have symm : ∀ {a b : Span}, a.Apart b → b.Apart a := Span.Apart.symm
  rw [List.pairwise_middle symm, List.pairwise_cons]
  refine ⟨fun s mem => ?_, fixed⟩
  have away := clear s mem
  simp only [Span.Apart, Span.stop] at away ⊢
  omega

end Copies

/-! ### Reading a record -/

section Image

variable {size : Nat} {pieces : List Piece}

/-- A place of no field is zero. -/
theorem getElem?_image_of_clear {i : Nat} (inside : i < size)
    (clear : ∀ s ∈ pieces.map Piece.span, i ∉ s.bytes) : (image size pieces)[i]? = some 0 := by
  rw [getElem?_image inside, byteOf_of_not_mem]
  intro p mem
  exact clear _ (List.mem_map_of_mem mem)

/-- A word is read back where it was put. -/
theorem wordAt_image (apart : pieces.Pairwise fun p q => p.span.Apart q.span)
    (fits : ∀ p ∈ pieces, p.span.stop ≤ size) {start width n : Nat}
    (mem : ⟨start, toLeBytes width n⟩ ∈ pieces) (word : n < 256 ^ width) :
    wordAt width (image size pieces) start = n := by
  have shown := window_image apart mem (fits _ mem)
  rw [length_toLeBytes] at shown
  rw [wordAt, shown, fromLeBytes_toLeBytes word]

/-- A text in a field of its own stands there with zeros behind it. -/
theorem window_image_padded (apart : pieces.Pairwise fun p q => p.span.Apart q.span)
    {p : Piece} (mem : p ∈ pieces) {room : Nat} (short : p.bytes.length ≤ room)
    (fits : p.start + room ≤ size)
    (alone : ∀ s ∈ pieces.map Piece.span, s = p.span ∨ s.Apart ⟨p.start, room⟩) :
    window (image size pieces) p.start room = padded room p.bytes := by
  apply List.ext_getElem?
  intro k
  rw [getElem?_window, padded]
  by_cases below : k < p.bytes.length
  · have at_k := List.getElem?_eq_getElem below
    rw [if_pos (by omega), getElem?_image (by omega), List.getElem?_append_left below, at_k,
      byteOf_of_mem apart mem at_k]
  · rw [List.getElem?_append_right (by omega), List.getElem?_replicate]
    by_cases inside : k < room
    · rw [if_pos inside, if_pos (by omega)]
      refine getElem?_image_of_clear (by omega) fun s s_mem covered => ?_
      rcases alone s s_mem with rfl | away
      · rw [Span.mem_bytes, Piece.span, Span.stop_mk] at covered
        omega
      · apply away.not_mem covered
        exact ⟨Nat.le_add_right _ _, Nat.add_lt_add_left inside _⟩
    · rw [if_neg inside, if_neg (by omega)]

/-- The text of a field is read back up to the zero behind it. -/
theorem takeWhile_window_image (apart : pieces.Pairwise fun p q => p.span.Apart q.span)
    {p : Piece} (mem : p ∈ pieces) {room : Nat} (nonzero : 0 ∉ p.bytes)
    (short : p.bytes.length < room) (fits : p.start + room ≤ size)
    (alone : ∀ s ∈ pieces.map Piece.span, s = p.span ∨ s.Apart ⟨p.start, room⟩) :
    (window (image size pieces) p.start room).takeWhile (· ≠ 0) = p.bytes ∧
      0 ∈ window (image size pieces) p.start room := by
  rw [window_image_padded apart mem (Nat.le_of_lt short) fits alone]
  exact ⟨takeWhile_padded nonzero short, zero_mem_padded short⟩

end Image

end Checked
