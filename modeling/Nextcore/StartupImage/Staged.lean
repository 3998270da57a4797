import Nextcore.StartupImage.Parsed
import Nextcore.Lib.Patchwork

/-!
What a staged memory holds.

Each image ends up in its own span as the pieces that its segments are, put over zeros
(`on_stageImage`), and the readback finds just that. So the staging of two images that were
parsed and placed cannot fail (`on_stageStartupImages`), and what it leaves is `Staged`.
-/

namespace Nextcore.StartupImage

open Checked Checked.Outcome Checked.Exec

/-! ### One image -/

/-- A segment's bytes, at their place in the span. -/
def pieceOf (source : Bytes) (virtualBase : Nat) (s : Segment) : Piece :=
  ⟨s.vmaddr - virtualBase, window source s.fileoff s.filesize⟩

/-- Segments that fit a span of `size` bytes, one behind the other. -/
structure LaidOut (source : Bytes) (virtualBase size : Nat) (segments : List Segment) : Prop where
  short : source.length < 2 ^ 64
  word : size < 2 ^ 64
  each : ∀ s ∈ segments, SegmentOk source s
  ordered : segments.Pairwise fun a b => a.vmaddr + a.vmsize ≤ b.vmaddr
  low : ∀ s ∈ segments, virtualBase ≤ s.vmaddr
  high : ∀ s ∈ segments, s.vmaddr + s.vmsize ≤ virtualBase + size

section Span

variable {source : Bytes} {virtualBase size : Nat} {s : Segment} {segments : List Segment}

theorem LaidOut.tail (laid : LaidOut source virtualBase size (s :: segments)) :
    LaidOut source virtualBase size segments where
  short := laid.short
  word := laid.word
  each := (List.forall_mem_cons.mp laid.each).2
  ordered := (List.pairwise_cons.mp laid.ordered).2
  low := (List.forall_mem_cons.mp laid.low).2
  high := (List.forall_mem_cons.mp laid.high).2

theorem length_pieceOf (ok : SegmentOk source s) :
    (pieceOf source virtualBase s).bytes.length = s.filesize :=
  length_window ok.inside

/-- The end of a piece in the span. -/
theorem stop_pieceOf (ok : SegmentOk source s) :
    (pieceOf source virtualBase s).span.stop = s.vmaddr - virtualBase + s.filesize := by
  rw [Piece.span, Span.stop_mk, length_pieceOf ok, pieceOf]

theorem LaidOut.apart (laid : LaidOut source virtualBase size segments) :
    (segments.map (pieceOf source virtualBase)).Pairwise fun p q => p.span.Apart q.span := by
  rw [List.pairwise_map]
  refine laid.ordered.imp_of_mem fun {a b} a_mem b_mem before => .inl ?_
  have fits := (laid.each a a_mem).fits
  have low := laid.low a a_mem
  rw [stop_pieceOf (laid.each a a_mem)]
  change _ ≤ b.vmaddr - virtualBase
  omega

theorem LaidOut.fits (laid : LaidOut source virtualBase size segments) :
    ∀ p ∈ segments.map (pieceOf source virtualBase), p.span.stop ≤ size := by
  intro p mem
  obtain ⟨s, s_mem, rfl⟩ := List.mem_map.mp mem
  have fits := (laid.each s s_mem).fits
  have low := laid.low s s_mem
  have high := laid.high s s_mem
  rw [stop_pieceOf (laid.each s s_mem)]
  omega

theorem sourceOf_eq_ok (short : source.length < 2 ^ 64) (ok : SegmentOk source s) :
    sourceOf source s = .ok (window source s.fileoff s.filesize) := by
  have inside := ok.inside
  rw [sourceOf, add_of_lt (by omega), bind_ok, index_of_le (Nat.le_add_right _ _) inside,
    Nat.add_sub_cancel_left]

/-- The copies are the pieces written one after another. -/
theorem on_copySegments {destination : Bytes}
    (laid : LaidOut source virtualBase destination.length segments) :
    (copySegments source virtualBase segments).on destination =
      (.ok (), applied (segments.map (pieceOf source virtualBase)) destination) := by
  induction segments generalizing destination with
  | nil => rfl
  | cons s rest ih =>
      have ok := laid.each s List.mem_cons_self
      have word := laid.word
      have stop : s.vmaddr - virtualBase + s.filesize ≤ destination.length := by
        have fits := laid.fits _ (List.mem_map_of_mem List.mem_cons_self)
        rwa [stop_pieceOf ok] at fits
      have copied : copySegment source virtualBase s destination =
          .ok (overlay destination (s.vmaddr - virtualBase)
            (window source s.fileoff s.filesize)) := by
        rw [copySegment, sub_of_le (laid.low s List.mem_cons_self), bind_ok,
          sourceOf_eq_ok laid.short ok, bind_ok, add_of_lt (by omega), bind_ok]
        exact copyFrom_eq_ok.mpr ⟨⟨Nat.le_add_right _ _, stop, by
          rw [length_window ok.inside, Nat.add_sub_cancel_left]⟩, rfl⟩
      rw [copySegments, on_bind_of_ok (on_update_of_ok copied)]
      refine (ih ?_).trans rfl
      rw [length_overlay]
      exact laid.tail

/-! ### The readback -/

section Readback

variable {destination : Bytes} {start stop : Nat}

theorem verifyZero_eq_ok (ordered : start ≤ stop) (inside : stop ≤ destination.length)
    (zero : ∀ i, start ≤ i → i < stop → destination[i]? = some 0) :
    verifyZero destination start stop = .ok () := by
  have region : getRange destination start stop = some (window destination start (stop - start)) :=
    if_pos ⟨ordered, inside⟩
  rw [verifyZero, region, ofOption_some, bind_ok, forEach_eq_ok]
  intro byte mem
  obtain ⟨i, at_i⟩ := List.mem_iff_getElem?.mp mem
  rw [getElem?_window] at at_i
  split at at_i
  · next below =>
      rw [zero (start + i) (Nat.le_add_right _ _) (by omega)] at at_i
      cases at_i
      exact rejectIf_of_not _ (not_not.mpr rfl)
  · cases at_i

theorem verifyBytes_eq_ok {expected : Bytes} (word : destination.length < 2 ^ 64)
    (inside : start + expected.length ≤ destination.length)
    (same : window destination start expected.length = expected) :
    verifyBytes destination start expected = .ok () := by
  have region : getRange destination start (start + expected.length) = some expected :=
    getRange_eq_some.mpr ⟨⟨Nat.le_add_right _ _, inside⟩, by rw [Nat.add_sub_cancel_left, same]⟩
  rw [verifyBytes, checkedAdd_of_lt (by omega), ofOption_some, bind_ok, region, ofOption_some,
    bind_ok, forEach_eq_ok]
  intro pair mem
  obtain ⟨i, at_i⟩ := List.mem_iff_getElem?.mp mem
  obtain ⟨left, right⟩ := List.getElem?_zip_eq_some.mp at_i
  rw [left, Option.some.injEq] at right
  exact rejectIf_of_not _ (not_not.mpr right)

/-- The loop accepts a memory that shows the segments from `checkedEnd` on, and nothing else, and
the rest of the memory is then zero. -/
theorem verifySegments_eq_ok {checkedEnd : Nat}
    (laid : LaidOut source virtualBase destination.length segments)
    (reached : checkedEnd ≤ destination.length)
    (ahead : ∀ s ∈ segments, virtualBase + checkedEnd ≤ s.vmaddr)
    (shows : ∀ i, checkedEnd ≤ i → i < destination.length →
      destination[i]? = some (byteOf (segments.map (pieceOf source virtualBase)) i)) :
    ∃ last, verifySegments source virtualBase destination checkedEnd segments = .ok last ∧
      last ≤ destination.length ∧
        ∀ i, last ≤ i → i < destination.length → destination[i]? = some 0 := by
  induction segments generalizing checkedEnd with
  | nil => exact ⟨checkedEnd, rfl, reached, shows⟩
  | cons s rest ih =>
      have ok := laid.each s List.mem_cons_self
      have fits := ok.fits
      have low := laid.low s List.mem_cons_self
      have high := laid.high s List.mem_cons_self
      have first := ahead s List.mem_cons_self
      have word := laid.word
      have later : ∀ r ∈ rest, s.vmaddr + s.vmsize ≤ r.vmaddr :=
        (List.pairwise_cons.mp laid.ordered).1
      -- Behind the bytes of the segment, only the other segments show.
      have behind : ∀ i, s.vmaddr - virtualBase + s.filesize ≤ i → i < destination.length →
          destination[i]? = some (byteOf (rest.map (pieceOf source virtualBase)) i) := by
        intro i past inside
        rw [shows i (by omega) inside, List.map_cons,
          byteOf_cons_of_stop_le (by rwa [stop_pieceOf ok])]
      have hole : verifyZero destination checkedEnd (s.vmaddr - virtualBase) = .ok () := by
        refine verifyZero_eq_ok (by omega) (by omega) fun i after before => ?_
        rw [shows i after (by omega), byteOf_of_before]
        intro p mem
        obtain ⟨r, r_mem, rfl⟩ := List.mem_map.mp mem
        change i < r.vmaddr - virtualBase
        rcases List.mem_cons.mp r_mem with rfl | r_mem
        · exact before
        · have next := later r r_mem
          omega
      have file : verifyBytes destination (s.vmaddr - virtualBase)
          (window source s.fileoff s.filesize) = .ok () := by
        have length : (window source s.fileoff s.filesize).length = s.filesize :=
          length_window ok.inside
        refine verifyBytes_eq_ok word (by omega) ?_
        apply List.ext_getElem?
        intro k
        rw [getElem?_window]
        split
        · next below =>
            have at_k := List.getElem?_eq_getElem below
            have placed := byteOf_cons_of_getElem? (p := pieceOf source virtualBase s)
              (rest.map (pieceOf source virtualBase)) at_k
            rw [shows _ (by omega) (by omega), at_k, List.map_cons]
            exact congrArg some placed
        · rw [List.getElem?_eq_none (by omega)]
      have tail : verifyZero destination (s.vmaddr - virtualBase + s.filesize)
          (s.vmaddr - virtualBase + s.vmsize) = .ok () := by
        refine verifyZero_eq_ok (by omega) (by omega) fun i after before => ?_
        rw [behind i after (by omega), byteOf_of_before]
        intro p mem
        obtain ⟨r, r_mem, rfl⟩ := List.mem_map.mp mem
        have next := later r r_mem
        change i < r.vmaddr - virtualBase
        omega
      have next : ∀ r ∈ rest, virtualBase + (s.vmaddr - virtualBase + s.vmsize) ≤ r.vmaddr := by
        intro r mem
        have after := later r mem
        omega
      have memory_end : s.vmaddr - virtualBase + s.vmsize ≤ destination.length := by omega
      obtain ⟨last, verified, inside, zero⟩ :=
        ih laid.tail memory_end next fun i after => behind i (by omega)
      refine ⟨last, ?_, inside, zero⟩
      rw [verifySegments, sub_of_le low, bind_ok, add_of_lt (by omega), bind_ok,
        add_of_lt (by omega), bind_ok, hole, bind_ok, sourceOf_eq_ok laid.short ok, bind_ok, file,
        bind_ok, tail, bind_ok, verified]

end Readback

end Span

/-- The segments of an image, as pieces of its span. -/
def Image.pieces (image : Image) : List Piece :=
  image.segments.map (pieceOf image.source image.virtualBase)

/-- What the span of an image is to hold. -/
def Image.linked (image : Image) : Bytes := Checked.image image.span image.pieces

section Stage

variable {source : Bytes} {image : Image}

theorem Parsed.laidOut (parsed : Parsed source image) :
    LaidOut image.source image.virtualBase image.span image.segments where
  short := by
    have short := parsed.short
    rw [maxFileSize] at short
    rw [parsed.source_eq]
    omega
  word := by
    have small := parsed.small
    rw [maxImageSize] at small
    omega
  each := parsed.source_eq ▸ parsed.each
  ordered := parsed.ordered
  low := parsed.low
  high := parsed.high

@[simp] theorem length_linked (image : Image) : image.linked.length = image.span :=
  length_image _ _

/-- Staging leaves the linked image, whatever was there before. -/
theorem on_stageImage (parsed : Parsed source image) {destination : Bytes}
    (length : destination.length = image.span) :
    (stageImage image).on destination = (.ok (), image.linked) := by
  have laid := parsed.laidOut
  have zeros : (List.replicate destination.length (0 : UInt8)).length = image.span := by
    rw [List.length_replicate, length]
  have copied : applied image.pieces (List.replicate destination.length 0) = image.linked := by
    refine (eq_image_iff ((length_applied _ _).trans zeros)).mpr ?_
    rw [length]
    exact applied_zeros laid.apart laid.fits
  have verified : verifyImage image image.linked = .ok () := by
    have laid' : LaidOut image.source image.virtualBase image.linked.length image.segments := by
      rwa [length_linked]
    have shows : ∀ i, 0 ≤ i → i < image.linked.length →
        image.linked[i]? = some (byteOf image.pieces i) := by
      intro i _ inside
      rw [length_linked] at inside
      exact getElem?_image inside _
    obtain ⟨last, accepted, inside, zero⟩ :=
      verifySegments_eq_ok laid' (Nat.zero_le _) parsed.low shows
    rw [verifyImage, accepted, bind_ok]
    exact verifyZero_eq_ok inside (Nat.le_refl _) zero
  have laid' : LaidOut image.source image.virtualBase
      (List.replicate destination.length (0 : UInt8)).length image.segments := by
    rwa [zeros]
  rw [stageImage, on_bind, on_write]
  refine (on_bind_of_ok (on_copySegments laid')).trans ?_
  have shown : applied (image.segments.map (pieceOf image.source image.virtualBase))
      (List.replicate destination.length 0) = image.linked := copied
  rw [on_look, shown, verified]

/-- Staging into a part of the memory. -/
theorem on_stageAt (parsed : Parsed source image) {memory : Bytes} {offset : Nat}
    (inside : offset + image.span ≤ memory.length) :
    (stageAt image offset (offset + image.span)).on memory =
      (.ok (), overlay memory offset image.linked) := by
  have part : (window memory offset (offset + image.span - offset)).length = image.span := by
    rw [Nat.add_sub_cancel_left]
    exact length_window inside
  have within : (index memory offset (offset + image.span) : Result Bytes) = .ok _ :=
    index_of_le (Nat.le_add_right _ _) inside
  rw [stageAt]
  refine (on_look_bind_of_ok (s := memory)
    (g := fun memory => index memory offset (offset + image.span)) within).trans ?_
  rw [on_zoom, on_stageImage parsed part]

end Stage

/-! ### Both images -/

/-- What a placement says: the two spans follow each other, and the memory has them. -/
structure Placed (sptm txm : Image) (physicalBase occupiedEnd memorySize : Nat) (places : Places) :
    Prop where
  sptm_page : pageSize ∣ places.result.sptm.physicalBase
  txm_page : pageSize ∣ places.result.txm.physicalBase
  behind : max occupiedEnd physicalBase ≤ places.result.sptm.physicalBase
  follows : places.result.sptm.physicalBase + sptm.span ≤ places.result.txm.physicalBase
  stop : places.result.occupiedEnd = places.result.txm.physicalBase + txm.span
  inside : places.result.occupiedEnd ≤ physicalBase + memorySize
  sptm_offset : places.sptmOffset = places.result.sptm.physicalBase - physicalBase
  txm_offset : places.txmOffset = places.result.txm.physicalBase - physicalBase
  sptm_limit : places.sptmLimit = places.sptmOffset + sptm.span
  txm_limit : places.txmLimit = places.txmOffset + txm.span
  sptm_eq : places.result.sptm = ⟨places.result.sptm.physicalBase, sptm.virtualBase, sptm.span,
    sptm.copiedBytes⟩
  txm_eq : places.result.txm = ⟨places.result.txm.physicalBase, txm.virtualBase, txm.span,
    txm.copiedBytes⟩

theorem place_eq_ok {sptm txm : Image} {physicalBase occupiedEnd memorySize : Nat}
    {places : Places} (done : place sptm txm physicalBase occupiedEnd memorySize = .ok places) :
    Placed sptm txm physicalBase occupiedEnd memorySize places := by
  rw [place] at done
  obtain ⟨_, summed, done⟩ := bind_eq_ok.mp done
  rw [ofOption_eq_ok, checkedAdd_eq_some] at summed
  obtain ⟨_, rfl⟩ := summed
  obtain ⟨_, _, done⟩ := bind_eq_ok.mp done
  obtain ⟨_, sptm_aligned, done⟩ := bind_eq_ok.mp done
  obtain ⟨_, rfl⟩ := alignUp_eq_ok.mp sptm_aligned
  obtain ⟨_, sptm_end, done⟩ := bind_eq_ok.mp done
  rw [ofOption_eq_ok, checkedAdd_eq_some] at sptm_end
  obtain ⟨_, rfl⟩ := sptm_end
  obtain ⟨_, txm_aligned, done⟩ := bind_eq_ok.mp done
  obtain ⟨_, rfl⟩ := alignUp_eq_ok.mp txm_aligned
  obtain ⟨_, txm_end, done⟩ := bind_eq_ok.mp done
  rw [ofOption_eq_ok, checkedAdd_eq_some] at txm_end
  obtain ⟨_, rfl⟩ := txm_end
  obtain ⟨_, limit, done⟩ := bind_eq_ok.mp done
  obtain ⟨_, sptm_offset, done⟩ := bind_eq_ok.mp done
  obtain ⟨_, rfl⟩ := sub_eq_ok.mp sptm_offset
  obtain ⟨_, txm_offset, done⟩ := bind_eq_ok.mp done
  obtain ⟨_, rfl⟩ := sub_eq_ok.mp txm_offset
  obtain ⟨_, sptm_limit, done⟩ := bind_eq_ok.mp done
  rw [ofOption_eq_ok, checkedAdd_eq_some] at sptm_limit
  obtain ⟨_, rfl⟩ := sptm_limit
  obtain ⟨_, txm_limit, done⟩ := bind_eq_ok.mp done
  rw [ofOption_eq_ok, checkedAdd_eq_some] at txm_limit
  obtain ⟨_, rfl⟩ := txm_limit
  obtain ⟨_, _, done⟩ := bind_eq_ok.mp done
  cases done
  exact
    { sptm_page := dvd_roundUp _ _
      txm_page := dvd_roundUp _ _
      behind := le_roundUp (by decide) _
      follows := le_roundUp (by decide) _
      stop := rfl
      inside := Nat.not_lt.mp (rejectIf_eq_ok.mp limit)
      sptm_offset := rfl
      txm_offset := rfl
      sptm_limit := rfl
      txm_limit := rfl
      sptm_eq := rfl
      txm_eq := rfl }

/-- Images that were parsed and placed are staged: nothing fails any more. -/
theorem on_stageStartupImages [UnstableSort] {sptm txm memory : Bytes}
    {physicalBase occupiedEnd : Nat} {sptmImage txmImage : Image} {places : Places}
    (parsed : parseImage sptm = .ok sptmImage) (parsed' : parseImage txm = .ok txmImage)
    (done : place sptmImage txmImage physicalBase occupiedEnd memory.length = .ok places) :
    (stageStartupImages sptm txm physicalBase occupiedEnd).on memory = (.ok places.result,
      overlay (overlay memory places.sptmOffset sptmImage.linked) places.txmOffset
        txmImage.linked) := by
  have placed := place_eq_ok done
  have behind := placed.behind
  have follows := placed.follows
  have stop := placed.stop
  have inside := placed.inside
  have sptm_offset := placed.sptm_offset
  have txm_offset := placed.txm_offset
  have first : (stageAt sptmImage places.sptmOffset places.sptmLimit).on memory =
      (.ok (), overlay memory places.sptmOffset sptmImage.linked) := by
    rw [placed.sptm_limit]
    exact on_stageAt (parseImage_eq_ok parsed) (by omega)
  have second : (stageAt txmImage places.txmOffset places.txmLimit).on
      (overlay memory places.sptmOffset sptmImage.linked) = (.ok (), overlay
        (overlay memory places.sptmOffset sptmImage.linked) places.txmOffset txmImage.linked) := by
    rw [placed.txm_limit]
    refine on_stageAt (parseImage_eq_ok parsed') ?_
    rw [length_overlay]
    omega
  rw [stageStartupImages]
  refine (on_look_bind_of_ok (g := fun _ => parseImage sptm) parsed).trans ?_
  refine (on_look_bind_of_ok (g := fun _ => parseImage txm) parsed').trans ?_
  refine (on_look_bind_of_ok (s := memory) (g := fun memory =>
    place sptmImage txmImage physicalBase occupiedEnd memory.length) done).trans ?_
  rw [on_bind_of_ok first, on_bind_of_ok second]
  rfl

/-! ### What was staged -/

/-- The span of an image shows its segments where they are linked, and zeros elsewhere. -/
structure Shows (source : Bytes) (placement : ImagePlacement) (span : Bytes) : Prop where
  length : span.length = placement.bytes
  segment : ∀ s ∈ declaredSegments source, placement.virtualBase ≤ s.vmaddr ∧
    s.vmaddr - placement.virtualBase + s.filesize ≤ placement.bytes ∧
      s.fileoff + s.filesize ≤ source.length ∧
        ∀ k < s.filesize,
          span[s.vmaddr - placement.virtualBase + k]? = source[s.fileoff + k]?
  zero : ∀ i < placement.bytes, (∀ s ∈ declaredSegments source,
    ¬ (s.vmaddr - placement.virtualBase ≤ i ∧ i < s.vmaddr - placement.virtualBase + s.filesize)) →
      span[i]? = some 0
  copied : placement.copiedBytes = ((declaredSegments source).map (·.filesize)).sum

theorem Parsed.shows {source : Bytes} {image : Image} (parsed : Parsed source image)
    {placement : ImagePlacement} (base : placement.virtualBase = image.virtualBase)
    (sized : placement.bytes = image.span) (copied : placement.copiedBytes = image.copiedBytes) :
    Shows source placement image.linked := by
  have laid := parsed.laidOut
  have mem_iff : ∀ s, s ∈ declaredSegments source ↔ s ∈ image.segments :=
    fun s => parsed.perm.mem_iff.symm
  refine ⟨by rw [length_linked, sized], fun s mem => ?_, fun i inside outside => ?_, ?_⟩
  · rw [mem_iff] at mem
    have ok := parsed.each s mem
    have fits := ok.fits
    have low := parsed.low s mem
    have high := parsed.high s mem
    rw [base, sized]
    refine ⟨low, by omega, ok.inside, fun k below => ?_⟩
    have in_source := ok.inside
    have at_k : (pieceOf image.source image.virtualBase s).bytes[k]? = source[s.fileoff + k]? := by
      rw [pieceOf, getElem?_window, if_pos below, parsed.source_eq]
    have bound : s.fileoff + k < source.length := by omega
    rw [List.getElem?_eq_getElem bound] at at_k ⊢
    have value := byteOf_of_mem laid.apart (List.mem_map_of_mem mem) at_k
    rw [Image.linked, getElem?_image (by omega)]
    exact congrArg some value
  · rw [sized] at inside
    rw [Image.linked, getElem?_image inside, byteOf_of_not_mem]
    intro p mem has
    obtain ⟨s, s_mem, rfl⟩ := List.mem_map.mp mem
    refine outside s ((mem_iff s).mpr s_mem) ?_
    rw [base]
    refine ⟨has.1, ?_⟩
    have before := has.2
    rwa [stop_pieceOf (laid.each s s_mem)] at before
  · rw [copied, parsed.copied]
    exact (parsed.perm.map _).sum_nat

/-- What a successful call leaves: two page-aligned spans behind the earlier allocations, each
with its image, and the rest of the memory as it was. -/
structure Staged (sptm txm : Bytes) (physicalBase occupiedEnd : Nat) (before after : Bytes)
    (result : StartupPlacement) : Prop where
  sptm_page : pageSize ∣ result.sptm.physicalBase ∧ pageSize ∣ result.sptm.bytes
  txm_page : pageSize ∣ result.txm.physicalBase ∧ pageSize ∣ result.txm.bytes
  behind_occupied : occupiedEnd ≤ result.sptm.physicalBase
  behind_base : physicalBase ≤ result.sptm.physicalBase
  follows : result.sptm.physicalBase + result.sptm.bytes ≤ result.txm.physicalBase
  stop : result.txm.physicalBase + result.txm.bytes = result.occupiedEnd
  inside : result.occupiedEnd ≤ physicalBase + before.length
  length : after.length = before.length
  sptm : Shows sptm result.sptm
    (window after (result.sptm.physicalBase - physicalBase) result.sptm.bytes)
  txm : Shows txm result.txm
    (window after (result.txm.physicalBase - physicalBase) result.txm.bytes)
  rest : ∀ i,
    physicalBase + i ∉ (Span.mk result.sptm.physicalBase result.sptm.bytes).bytes →
    physicalBase + i ∉ (Span.mk result.txm.physicalBase result.txm.bytes).bytes →
      after[i]? = before[i]?

/-- Staging that succeeds has put both images where they belong: each in its own span behind what
was occupied, as its segments link it, and nothing else has changed. -/
theorem stageStartupImages_exact [UnstableSort] {sptm txm before after : Bytes}
    {physicalBase occupiedEnd : Nat} {result : StartupPlacement}
    (done : (stageStartupImages sptm txm physicalBase occupiedEnd).on before =
      (.ok result, after)) :
    Staged sptm txm physicalBase occupiedEnd before after result := by
  obtain ⟨sptmImage, parsed, rest⟩ := on_look_bind_eq_ok.mp done
  obtain ⟨txmImage, parsed', rest⟩ := on_look_bind_eq_ok.mp rest
  obtain ⟨places, decided, _⟩ := on_look_bind_eq_ok.mp rest
  rw [on_stageStartupImages parsed parsed' decided] at done
  cases done
  have placed := place_eq_ok decided
  have behind := placed.behind
  have follows := placed.follows
  have stop := placed.stop
  have inside := placed.inside
  have sptm_offset := placed.sptm_offset
  have txm_offset := placed.txm_offset
  have sptm_bytes : places.result.sptm.bytes = sptmImage.span := by rw [placed.sptm_eq]
  have txm_bytes : places.result.txm.bytes = txmImage.span := by rw [placed.txm_eq]
  have sptm_length := length_linked sptmImage
  have txm_length := length_linked txmImage
  have sptm_shown : window (overlay (overlay before places.sptmOffset sptmImage.linked)
      places.txmOffset txmImage.linked) places.sptmOffset sptmImage.span = sptmImage.linked := by
    rw [window_overlay_of_apart (.inl (by omega)), ← sptm_length]
    exact window_overlay_self (by omega)
  have txm_shown : window (overlay (overlay before places.sptmOffset sptmImage.linked)
      places.txmOffset txmImage.linked) places.txmOffset txmImage.span = txmImage.linked := by
    rw [← txm_length]
    exact window_overlay_self (by rw [length_overlay]; omega)
  exact
    { sptm_page := ⟨placed.sptm_page, sptm_bytes ▸ (parseImage_eq_ok parsed).span_page⟩
      txm_page := ⟨placed.txm_page, txm_bytes ▸ (parseImage_eq_ok parsed').span_page⟩
      behind_occupied := (Nat.le_max_left _ _).trans behind
      behind_base := (Nat.le_max_right _ _).trans behind
      follows := sptm_bytes ▸ follows
      stop := txm_bytes ▸ stop.symm
      inside
      length := by rw [length_overlay, length_overlay]
      sptm := by
        rw [← sptm_offset, sptm_bytes, sptm_shown]
        exact (parseImage_eq_ok parsed).shows (by rw [placed.sptm_eq]) sptm_bytes
          (by rw [placed.sptm_eq])
      txm := by
        rw [← txm_offset, txm_bytes, txm_shown]
        exact (parseImage_eq_ok parsed').shows (by rw [placed.txm_eq]) txm_bytes
          (by rw [placed.txm_eq])
      rest := by
        intro i outside outside'
        rw [Span.mem_bytes, Span.stop_mk, sptm_bytes] at outside
        rw [Span.mem_bytes, Span.stop_mk, txm_bytes] at outside'
        dsimp only at outside outside'
        rw [getElem?_overlay, if_neg (by omega), getElem?_overlay, if_neg (by omega)] }

/-- A companion of one segment, whose file bytes are the header and the command. -/
def sampleCompanion : Bytes :=
  packWords [(4, 0xfeedfacf), (4, 0x0100000c), (4, 2), (4, 2), (4, 1), (4, 72), (4, 0x200001),
    (4, 0), (4, 0x19), (4, 72), (8, 0), (8, 0), (8, 0x8000), (8, 0x200), (8, 0), (8, 104), (4, 5),
    (4, 5), (4, 0), (4, 0)]

theorem stageStartupImages_exact_sample :
    ∃ result after, (@stageStartupImages UnstableSort.insertion sampleCompanion sampleCompanion
      0x4000 0x4001).on (List.replicate 0xc000 204) = (.ok result, after) ∧
        result.occupiedEnd = 0x10000 ∧ Staged sampleCompanion sampleCompanion 0x4000 0x4001
          (List.replicate 0xc000 204) after result := by
  have parsed : @parseImage UnstableSort.insertion sampleCompanion =
      .ok ⟨sampleCompanion, [⟨0x8000, 0x200, 0, 104⟩], 0x8000, 0x4000, 104⟩ := by
    decide +kernel
  have placed : place ⟨sampleCompanion, [⟨0x8000, 0x200, 0, 104⟩], 0x8000, 0x4000, 104⟩
      ⟨sampleCompanion, [⟨0x8000, 0x200, 0, 104⟩], 0x8000, 0x4000, 104⟩ 0x4000 0x4001
      (List.replicate 0xc000 (204 : UInt8)).length =
        .ok ⟨⟨⟨0x8000, 0x8000, 0x4000, 104⟩, ⟨0xc000, 0x8000, 0x4000, 104⟩, 0x10000⟩, 0x4000,
          0x8000, 0x8000, 0xc000⟩ := by
    rw [List.length_replicate]
    rfl
  have staged := @on_stageStartupImages UnstableSort.insertion _ _ _ _ _ _ _ _ parsed parsed placed
  exact ⟨_, _, staged, rfl, @stageStartupImages_exact UnstableSort.insertion _ _ _ _ _ _ _ staged⟩

end Nextcore.StartupImage
