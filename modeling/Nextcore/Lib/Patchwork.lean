import Nextcore.Lib.Bytes
import Nextcore.Lib.Span

/-!
Images put together from pieces.

A `Piece` is a byte string at an offset. The image of a list of pieces has the byte of the
piece that covers an offset, and zero where none does. Writing pairwise apart pieces over
zeros, in any order, gives the image (`applied_zeros`); and a reader that goes from offset
to offset needs only the pieces still ahead of it (`byteOf_of_before`, `byteOf_cons_of_stop_le`).
-/

namespace Checked

/-- A byte string and the offset it belongs at. -/
structure Piece where
  start : Nat
  bytes : Bytes

/-- The offsets that the piece covers. -/
def Piece.span (p : Piece) : Span := ⟨p.start, p.bytes.length⟩

/-- The byte that the pieces put at an offset: that of the first one to cover it, or zero. -/
def byteOf : List Piece → Nat → UInt8
  | [], _ => 0
  | p :: rest, i =>
    if i < p.start then byteOf rest i
    else
      match p.bytes[i - p.start]? with
      | some b => b
      | none => byteOf rest i

/-- The first `size` bytes of the image. -/
def image (size : Nat) (pieces : List Piece) : Bytes := (List.range size).map (byteOf pieces)

/-- The pieces written one after another. -/
def applied (pieces : List Piece) (bytes : Bytes) : Bytes :=
  pieces.foldl (fun bytes p => overlay bytes p.start p.bytes) bytes

@[simp] theorem length_image (size : Nat) (pieces : List Piece) :
    (image size pieces).length = size := by
  simp [image]

theorem getElem?_image {size i : Nat} (inside : i < size) (pieces : List Piece) :
    (image size pieces)[i]? = some (byteOf pieces i) := by
  simp [image, inside]

/-- A byte string is the image when it agrees with it everywhere. -/
theorem eq_image_iff {bytes : Bytes} {size : Nat} {pieces : List Piece}
    (length : bytes.length = size) :
    bytes = image size pieces ↔ ∀ i < size, bytes[i]? = some (byteOf pieces i) := by
  constructor
  · rintro rfl i inside
    exact getElem?_image inside pieces
  · intro agree
    apply List.ext_getElem?
    intro i
    by_cases inside : i < size
    · rw [agree i inside, getElem?_image inside]
    · rw [List.getElem?_eq_none (by omega),
        List.getElem?_eq_none (by rw [length_image]; omega)]

section Pieces

variable {p : Piece} {rest pieces : List Piece} {i k : Nat} {b : UInt8}

theorem byteOf_cons (p : Piece) (rest : List Piece) (i : Nat) :
    byteOf (p :: rest) i =
      if i < p.start then byteOf rest i
      else
        match p.bytes[i - p.start]? with
        | some b => b
        | none => byteOf rest i := rfl

/-- Within the first piece, the image is that piece. -/
theorem byteOf_cons_of_getElem? (rest : List Piece) (at_k : p.bytes[k]? = some b) :
    byteOf (p :: rest) (p.start + k) = b := by
  rw [byteOf_cons, if_neg (by omega), Nat.add_sub_cancel_left, at_k]

theorem getElem?_of_mem_span (inside : i ∈ p.span.bytes) (rest : List Piece) :
    p.bytes[i - p.start]? = some (byteOf (p :: rest) i) := by
  have bound : i - p.start < p.bytes.length := by
    simp only [Piece.span, Span.mem_bytes, Span.stop] at inside
    omega
  have place : p.start + (i - p.start) = i := Nat.add_sub_cancel' inside.1
  have value := byteOf_cons_of_getElem? rest (List.getElem?_eq_getElem bound)
  rw [place] at value
  rw [value, List.getElem?_eq_getElem bound]

/-- Outside the first piece, the image is that of the others. -/
theorem byteOf_cons_of_not_mem (outside : i ∉ p.span.bytes) (rest : List Piece) :
    byteOf (p :: rest) i = byteOf rest i := by
  rw [byteOf_cons]
  by_cases before : i < p.start
  · rw [if_pos before]
  · have past : p.bytes.length ≤ i - p.start := by
      simp only [Piece.span, Span.mem_bytes, Span.stop, not_and, Nat.not_lt] at outside
      have stop := outside (Nat.le_of_not_lt before)
      omega
    rw [if_neg before, List.getElem?_eq_none past]

theorem byteOf_cons_of_stop_le (past : p.span.stop ≤ i) (rest : List Piece) :
    byteOf (p :: rest) i = byteOf rest i :=
  byteOf_cons_of_not_mem (fun mem => Nat.not_lt.mpr past mem.2) rest

/-- Where no piece is, the image is zero. -/
theorem byteOf_of_not_mem (outside : ∀ p ∈ pieces, i ∉ p.span.bytes) : byteOf pieces i = 0 := by
  induction pieces with
  | nil => rfl
  | cons p rest ih =>
      obtain ⟨first, others⟩ := List.forall_mem_cons.mp outside
      rw [byteOf_cons_of_not_mem first]
      exact ih others

theorem byteOf_of_before (before : ∀ p ∈ pieces, i < p.start) : byteOf pieces i = 0 :=
  byteOf_of_not_mem fun p mem inside => Nat.not_lt.mpr inside.1 (before p mem)

/-- Before all the other pieces, the image is that of the first alone. -/
theorem byteOf_cons_of_before (p : Piece) (before : ∀ q ∈ rest, i < q.start) :
    byteOf (p :: rest) i = byteOf [p] i := by
  rw [byteOf_cons, byteOf_cons, byteOf_of_before before]
  rfl

/-- Pieces that are apart do not hide one another. -/
theorem byteOf_of_mem (apart : pieces.Pairwise fun p q => p.span.Apart q.span)
    (mem : p ∈ pieces) (at_k : p.bytes[k]? = some b) : byteOf pieces (p.start + k) = b := by
  have inside : p.start + k ∈ p.span.bytes := by
    have bound := (List.getElem?_eq_some_iff.mp at_k).1
    simp only [Piece.span, Span.mem_bytes, Span.stop]
    omega
  induction pieces with
  | nil => cases mem
  | cons q rest ih =>
      obtain ⟨first, others⟩ := List.pairwise_cons.mp apart
      rcases List.mem_cons.mp mem with rfl | later
      · exact byteOf_cons_of_getElem? rest at_k
      · rw [byteOf_cons_of_not_mem ((first p later).symm.not_mem inside)]
        exact ih others later

/-- Where no piece of the front is, the image is that of the rest. -/
theorem byteOf_append_of_not_mem {front : List Piece} (outside : ∀ p ∈ front, i ∉ p.span.bytes)
    (rest : List Piece) : byteOf (front ++ rest) i = byteOf rest i := by
  induction front with
  | nil => rfl
  | cons p front ih =>
      obtain ⟨first, others⟩ := List.forall_mem_cons.mp outside
      rw [List.cons_append, byteOf_cons_of_not_mem first]
      exact ih others

/-- Where a piece of the front is, the image is that of the front. -/
theorem byteOf_append_of_mem {front : List Piece} (hit : ∃ p ∈ front, i ∈ p.span.bytes)
    (rest : List Piece) : byteOf (front ++ rest) i = byteOf front i := by
  induction front with
  | nil =>
      obtain ⟨p, mem, _⟩ := hit
      cases mem
  | cons p front ih =>
      rw [List.cons_append]
      by_cases first : i ∈ p.span.bytes
      · have now := getElem?_of_mem_span first (front ++ rest)
        rw [getElem?_of_mem_span first front] at now
        exact (Option.some.inj now).symm
      · rw [byteOf_cons_of_not_mem first, byteOf_cons_of_not_mem first]
        obtain ⟨q, mem, inside⟩ := hit
        rcases List.mem_cons.mp mem with rfl | later
        · exact absurd inside first
        · exact ih ⟨q, later, inside⟩

/-- Pieces in the middle of the list matter only where they are. -/
theorem byteOf_append_congr {front mid mid' : List Piece} (back : List Piece)
    (outside : ∀ p ∈ mid, i ∉ p.span.bytes) (outside' : ∀ p ∈ mid', i ∉ p.span.bytes) :
    byteOf (front ++ (mid ++ back)) i = byteOf (front ++ (mid' ++ back)) i := by
  by_cases hit : ∃ p ∈ front, i ∈ p.span.bytes
  · rw [byteOf_append_of_mem hit, byteOf_append_of_mem hit]
  · have clear : ∀ p ∈ front, i ∉ p.span.bytes := fun p mem inside => hit ⟨p, mem, inside⟩
    rw [byteOf_append_of_not_mem clear, byteOf_append_of_not_mem clear,
      byteOf_append_of_not_mem outside, byteOf_append_of_not_mem outside']

/-- What writing apart pieces leaves at an offset: the image where a piece is, the old byte
elsewhere. -/
theorem getElem?_applied {bytes : Bytes}
    (apart : pieces.Pairwise fun p q => p.span.Apart q.span)
    (fits : ∀ p ∈ pieces, p.span.stop ≤ bytes.length) :
    ((∃ p ∈ pieces, i ∈ p.span.bytes) → (applied pieces bytes)[i]? = some (byteOf pieces i)) ∧
      ((∀ p ∈ pieces, i ∉ p.span.bytes) → (applied pieces bytes)[i]? = bytes[i]?) := by
  induction pieces generalizing bytes with
  | nil => simp [applied]
  | cons q rest ih =>
      obtain ⟨first, others⟩ := List.pairwise_cons.mp apart
      obtain ⟨q_fits, rest_fits⟩ := List.forall_mem_cons.mp fits
      have still_fits : ∀ p ∈ rest, p.span.stop ≤ (overlay bytes q.start q.bytes).length := by
        rwa [length_overlay]
      obtain ⟨covered, clear⟩ := ih others still_fits
      have written : (overlay bytes q.start q.bytes)[i]? =
          if i ∈ q.span.bytes then q.bytes[i - q.start]? else bytes[i]? := by
        rw [getElem?_overlay]
        simp only [Piece.span, Span.stop] at q_fits
        congr 1
        simp only [Piece.span, Span.mem_bytes, Span.stop, eq_iff_iff]
        omega
      constructor
      · rintro ⟨p, mem, inside⟩
        rcases List.mem_cons.mp mem with rfl | later
        · have elsewhere : ∀ r ∈ rest, i ∉ r.span.bytes :=
            fun r mem => (first r mem).not_mem inside
          rw [applied, List.foldl_cons]
          refine (clear elsewhere).trans ?_
          rw [written, if_pos inside]
          exact getElem?_of_mem_span inside rest
        · rw [byteOf_cons_of_not_mem ((first p later).symm.not_mem inside)]
          exact covered ⟨p, later, inside⟩
      · intro outside
        obtain ⟨q_outside, rest_outside⟩ := List.forall_mem_cons.mp outside
        rw [applied, List.foldl_cons]
        refine (clear rest_outside).trans ?_
        rw [written, if_neg q_outside]

/-- Writing apart pieces over zeros gives their image. -/
theorem applied_zeros {size : Nat} (apart : pieces.Pairwise fun p q => p.span.Apart q.span)
    (fits : ∀ p ∈ pieces, p.span.stop ≤ size) :
    ∀ i < size, (applied pieces (List.replicate size 0))[i]? = some (byteOf pieces i) := by
  intro i inside
  have fits' : ∀ p ∈ pieces, p.span.stop ≤ (List.replicate size (0 : UInt8)).length := by
    rwa [List.length_replicate]
  obtain ⟨covered, clear⟩ := getElem?_applied (i := i) apart fits'
  by_cases hit : ∃ p ∈ pieces, i ∈ p.span.bytes
  · exact covered hit
  · have outside : ∀ p ∈ pieces, i ∉ p.span.bytes := fun p mem inside => hit ⟨p, mem, inside⟩
    rw [clear outside, byteOf_of_not_mem outside, List.getElem?_replicate, if_pos inside]

theorem length_applied (pieces : List Piece) (bytes : Bytes) :
    (applied pieces bytes).length = bytes.length := by
  induction pieces generalizing bytes with
  | nil => rfl
  | cons p rest ih =>
      rw [applied, List.foldl_cons]
      exact (ih _).trans (length_overlay ..)

/-- Every one of the apart pieces is there when all have been written. -/
theorem window_applied {bytes : Bytes} (apart : pieces.Pairwise fun p q => p.span.Apart q.span)
    (fits : ∀ p ∈ pieces, p.span.stop ≤ bytes.length) (mem : p ∈ pieces) :
    window (applied pieces bytes) p.start p.bytes.length = p.bytes := by
  apply List.ext_getElem?
  intro k
  rw [getElem?_window]
  split
  · next below =>
      have inside : p.start + k ∈ p.span.bytes := by
        simp only [Piece.span, Span.mem_bytes, Span.stop]
        omega
      have at_k := List.getElem?_eq_getElem below
      rw [(getElem?_applied apart fits).1 ⟨p, mem, inside⟩, at_k, byteOf_of_mem apart mem at_k]
  · rw [List.getElem?_eq_none (by omega)]

/-- Writing apart pieces over bytes that are still the old ones where the pieces are: the
differences are those of the pieces. -/
theorem differences_applied_of_same {old bytes : Bytes} (length : bytes.length = old.length)
    (apart : pieces.Pairwise fun p q => p.span.Apart q.span)
    (fits : ∀ p ∈ pieces, p.span.stop ≤ old.length)
    (same : ∀ p ∈ pieces, window bytes p.start p.bytes.length = window old p.start p.bytes.length) :
    differences old (applied pieces bytes) = differences old bytes +
      (pieces.map fun p => differences (window old p.start p.bytes.length) p.bytes).sum := by
  induction pieces generalizing bytes with
  | nil => rfl
  | cons q rest ih =>
      obtain ⟨q_apart, rest_apart⟩ := List.pairwise_cons.mp apart
      obtain ⟨q_fits, rest_fits⟩ := List.forall_mem_cons.mp fits
      obtain ⟨q_same, rest_same⟩ := List.forall_mem_cons.mp same
      have step : differences old (overlay bytes q.start q.bytes) = differences old bytes +
          differences (window old q.start q.bytes.length) q.bytes :=
        differences_overlay length q_fits q_same
      have still : ∀ p ∈ rest, window (overlay bytes q.start q.bytes) p.start p.bytes.length =
          window old p.start p.bytes.length := by
        intro p mem
        rw [← rest_same p mem]
        exact window_overlay_of_apart (q_apart p mem).symm
      rw [applied, List.foldl_cons, List.map_cons, List.sum_cons]
      refine (ih ((length_overlay ..).trans length) rest_apart rest_fits still).trans ?_
      rw [step, Nat.add_assoc]

theorem differences_applied {old : Bytes} (apart : pieces.Pairwise fun p q => p.span.Apart q.span)
    (fits : ∀ p ∈ pieces, p.span.stop ≤ old.length) :
    differences old (applied pieces old) =
      (pieces.map fun p => differences (window old p.start p.bytes.length) p.bytes).sum := by
  rw [differences_applied_of_same rfl apart fits fun _ _ => rfl, differences_self, Nat.zero_add]

/-- The image shows each of the pieces that it is put together from. -/
theorem window_image {size : Nat} (apart : pieces.Pairwise fun p q => p.span.Apart q.span)
    (mem : p ∈ pieces) (fits : p.span.stop ≤ size) :
    window (image size pieces) p.start p.bytes.length = p.bytes := by
  simp only [Piece.span, Span.stop] at fits
  apply List.ext_getElem?
  intro k
  rw [getElem?_window]
  split
  · have at_k := List.getElem?_eq_getElem ‹k < p.bytes.length›
    rw [getElem?_image (by omega), at_k, byteOf_of_mem apart mem at_k]
  · rw [List.getElem?_eq_none (by omega)]

end Pieces

end Checked
