import Nextcore.Lib.Record
import Nextcore.XnuBootArgs.Encode

/-!
What the encoder for filesets adds to the base encoding.

`BaseOk` and `HeaderOk` are what the checks of the two encoders leave, and each encoder ends in
the image of its fields (`encodeBootArgs_ends`, `encodeFilesetBootArgs_ends`). The sums that the
second encoder leaves unguarded are in range by the checks of the first.
-/

namespace Nextcore.XnuBootArgs

open Checked Checked.Outcome

/-! ### The checks -/

/-- A non-empty range below 4 GiB that does not start at zero. -/
structure LowOk (phys size : Nat) : Prop where
  positive : 0 < phys
  nonempty : 0 < size
  low : phys + size ≤ lowAddressLimit

theorem LowOk.words {phys size : Nat} (ok : LowOk phys size) : phys < 2 ^ 32 ∧ size < 2 ^ 32 := by
  obtain ⟨positive, nonempty, low⟩ := ok
  rw [lowAddressLimit] at low
  omega

theorem lowRange_ends (phys size : Nat) (error : BootArgsError) :
    Ends (fun range => LowOk phys size ∧ range = ⟨phys, size, phys + size⟩) (fun _ => True)
      (lowRange phys size error) := by
  refine (ends_ofOption fun _ => trivial).bind fun stop added => ?_
  obtain ⟨-, rfl⟩ := checkedAdd_eq_some.mp added
  refine (ends_rejectIf fun _ => trivial).bind fun _ clear => ?_
  simp only [not_or, Nat.not_lt] at clear
  have ok : LowOk phys size :=
    ⟨Nat.pos_of_ne_zero clear.1, Nat.pos_of_ne_zero clear.2.1, clear.2.2⟩
  exact Ends.after_ok (tryU32_eq_ok.mpr ⟨ok.words.1, rfl⟩)
    (Ends.after_ok (tryU32_eq_ok.mpr ⟨ok.words.2, rfl⟩) (ends_ok ⟨ok, rfl⟩))

/-- The ranges of an input, as they are returned. -/
def rangesOf (input : XnuBootArgsInput) : LowRanges where
  map := ⟨input.memoryMapPhys, input.memoryMapSize, input.memoryMapPhys + input.memoryMapSize⟩
  dt := ⟨input.deviceTreePhys, input.deviceTreeSize, input.deviceTreePhys + input.deviceTreeSize⟩
  kernel := ⟨input.kernelPhys, input.kernelSize, input.kernelPhys + input.kernelSize⟩

/-- What the ranges of an accepted input are by themselves. -/
structure RangesOk (input : XnuBootArgsInput) : Prop where
  version : input.memoryMapDescriptorVersion = 1
  map : LowOk input.memoryMapPhys input.memoryMapSize
  dt : LowOk input.deviceTreePhys input.deviceTreeSize
  kernel : LowOk input.kernelPhys input.kernelSize
  kernelPage : input.kernelPhys % pageSize = 0
  kernelPageEnd : roundUp pageSize (input.kernelPhys + input.kernelSize) < lowAddressLimit

/-- What the base encoder accepts, as far as the block and its ranges depend on it. -/
structure BaseOk (input : XnuBootArgsInput) : Prop extends RangesOk input where
  shortLine : (asBytes input.commandLine).length ≤ maxCommandLine
  plainLine : 0 ∉ asBytes input.commandLine
  mapInside : input.kernelPhys ≤ input.memoryMapPhys ∧
    input.memoryMapPhys + input.memoryMapSize ≤ input.kernelPhys + input.kernelSize
  dtInside : input.kernelPhys ≤ input.deviceTreePhys ∧
    input.deviceTreePhys + input.deviceTreeSize ≤ input.kernelPhys + input.kernelSize
  mapApart : Span.Apart ⟨input.memoryMapPhys, input.memoryMapSize⟩
    ⟨input.deviceTreePhys, input.deviceTreeSize⟩
  memory : input.physicalMemorySize + lowAddressLimit < 2 ^ 64
  systemTable : input.efiSystemTablePhys < 2 ^ 32

theorem pageEnd_of_low {kernelEnd : Nat} (low : kernelEnd ≤ lowAddressLimit) :
    pageEnd kernelEnd = some (roundUp pageSize kernelEnd) := by
  have fits : kernelEnd + (pageSize - 1) < 2 ^ 64 := by
    rw [lowAddressLimit] at low
    rw [pageSize]
    omega
  rw [pageEnd, checkedAdd_of_lt fits, Option.map_some, show pageSize - 1 = 2 ^ 12 - 1 from rfl,
    andNot_two_pow]
  rfl

section Base

variable {input : XnuBootArgsInput}

theorem checkRanges_ends (input : XnuBootArgsInput) :
    Ends (fun ranges => RangesOk input ∧ ranges = rangesOf input) (fun _ => True)
      (checkRanges input) := by
  refine (ends_rejectIf fun _ => trivial).bind fun _ described => ?_
  refine (lowRange_ends ..).bind ?_
  rintro _ ⟨map, rfl⟩
  refine (ends_rejectIf fun _ => trivial).bind fun _ _ => ?_
  refine (lowRange_ends ..).bind ?_
  rintro _ ⟨dt, rfl⟩
  refine (lowRange_ends ..).bind ?_
  rintro _ ⟨kernel, rfl⟩
  refine (ends_rejectIf fun _ => trivial).bind fun _ page => ?_
  simp only [not_or, not_not] at described
  rw [pageEnd_of_low kernel.low, not_or, not_not, Option.all_some, decide_eq_true_iff,
    Nat.not_le] at page
  exact ends_ok ⟨⟨described.2.2.1, map, dt, kernel, page.1, page.2⟩, rfl⟩

/-! ### The block -/

/-- The fields of the base encoding, in the order in which they are written. -/
def basePieces (input : XnuBootArgsInput) : List Piece :=
  [⟨2, toLeBytes 2 2⟩, ⟨4, [64]⟩, ⟨8, asBytes input.commandLine⟩] ++
    (lowFields input (rangesOf input) input.efiSystemTablePhys).map
      (fun field => ⟨field.1, toLeBytes 4 field.2⟩) ++
    [⟨0x478, toLeBytes 8 input.physicalMemorySize⟩]

/-- The fields that a fileset adds. -/
def filesetPieces (input : XnuFilesetBootArgsInput) : List Piece :=
  [⟨0, toLeBytes 2 1⟩, ⟨1108, toLeBytes 4 input.kernelSlide⟩,
    ⟨1256, toLeBytes 8 input.collectionHeaderPhys⟩]

/-- The places of the base fields with a fixed place, behind the command line. -/
def lowSpans : List Span :=
  [⟨0x408, 4⟩, ⟨0x40c, 4⟩, ⟨0x410, 4⟩, ⟨0x414, 4⟩, ⟨0x430, 4⟩, ⟨0x434, 4⟩, ⟨0x438, 4⟩, ⟨0x43c, 4⟩,
    ⟨0x450, 4⟩, ⟨0x478, 8⟩]

/-- The places of the fields that a fileset adds. -/
def filesetSpans : List Span := [⟨0, 2⟩, ⟨1108, 4⟩, ⟨1256, 8⟩]

theorem span_basePieces :
    (basePieces input).map Piece.span =
      [⟨2, 2⟩, ⟨4, 1⟩] ++ ⟨8, (asBytes input.commandLine).length⟩ :: lowSpans := by
  simp only [basePieces, lowFields, Piece.span, List.map_cons, List.map_nil, length_toLeBytes,
    List.length_cons, List.length_nil, lowSpans, List.cons_append, List.nil_append]

theorem span_filesetPieces (input : XnuFilesetBootArgsInput) :
    (filesetPieces input).map Piece.span = filesetSpans := by
  simp only [filesetPieces, Piece.span, List.map_cons, List.map_nil, length_toLeBytes,
    filesetSpans]

end Base

section Fileset

variable {input : XnuFilesetBootArgsInput}

/-- The pieces of the whole block. -/
def blockPieces (input : XnuFilesetBootArgsInput) : List Piece :=
  basePieces input.common ++ filesetPieces input

theorem span_blockPieces :
    (blockPieces input).map Piece.span =
      [⟨2, 2⟩, ⟨4, 1⟩] ++ ⟨8, (asBytes input.common.commandLine).length⟩ ::
        (lowSpans ++ filesetSpans) := by
  rw [blockPieces, List.map_append, span_basePieces, span_filesetPieces, List.append_assoc]
  rfl

/-- The fields do not run into each other, whatever the length of the command line. -/
theorem blockPieces_apart (short : (asBytes input.common.commandLine).length ≤ maxCommandLine) :
    (blockPieces input).Pairwise fun p q => p.span.Apart q.span := by
  rw [← List.pairwise_map, span_blockPieces]
  have room : (asBytes input.common.commandLine).length ≤ 1024 :=
    short.trans (by decide)
  exact pairwise_apart_of_room (by decide) (by decide) room

theorem blockPieces_fit (short : (asBytes input.common.commandLine).length ≤ maxCommandLine) :
    ∀ p ∈ blockPieces input, p.span.stop ≤ bootArgsSize := by
  intro p mem
  have in_spans := List.mem_map_of_mem mem (f := Piece.span)
  rw [span_blockPieces] at in_spans
  have fixed : ∀ s ∈ ([⟨2, 2⟩, ⟨4, 1⟩] ++ (lowSpans ++ filesetSpans) : List Span),
      s.stop ≤ bootArgsSize := by decide
  rcases List.mem_append.mp in_spans with front | behind
  · exact fixed _ (List.mem_append_left _ front)
  · rcases List.mem_cons.mp behind with line | back
    · rw [line, Span.stop_mk]
      exact (Nat.add_le_add_left short 8).trans (by decide)
    · exact fixed _ (List.mem_append_right _ back)

/-- The base fields alone are apart and in the block as well. -/
theorem basePieces_apart (short : (asBytes input.common.commandLine).length ≤ maxCommandLine) :
    (basePieces input.common).Pairwise fun p q => p.span.Apart q.span :=
  (List.pairwise_append.mp (blockPieces_apart short)).1

theorem basePieces_fit (short : (asBytes input.common.commandLine).length ≤ maxCommandLine) :
    ∀ p ∈ basePieces input.common, p.span.stop ≤ bootArgsSize := by
  intro p mem
  exact blockPieces_fit short p (List.mem_append_left _ mem)

end Fileset

/-! ### The encoders -/

theorem writeBlock_eq (input : XnuBootArgsInput) :
    writeBlock input (rangesOf input) input.efiSystemTablePhys =
      (basePieces input).foldlM copyPiece (List.replicate bootArgsSize 0) := by
  simp only [writeBlock, basePieces, List.foldlM_append, List.foldlM_cons, List.foldlM_nil,
    List.foldlM_map, bind_assoc, bind_pure]
  rfl

theorem writeBlock_of_short {input : XnuBootArgsInput}
    (short : (asBytes input.commandLine).length ≤ maxCommandLine) :
    writeBlock input (rangesOf input) input.efiSystemTablePhys =
      .ok (image bootArgsSize (basePieces input)) := by
  have fits : ∀ p ∈ basePieces input, p.span.stop ≤ bootArgsSize :=
    @basePieces_fit ⟨input, 0, 0, 0⟩ short
  rw [writeBlock_eq, foldlM_copyPiece (by rwa [List.length_replicate]),
    applied_zeros_eq (@basePieces_apart ⟨input, 0, 0, 0⟩ short) fits]

theorem encodeBootArgs_ends (input : XnuBootArgsInput) :
    Ends (fun bytes => BaseOk input ∧ bytes = image bootArgsSize (basePieces input))
      (fun _ => True) (encodeBootArgs input) := by
  refine (ends_rejectIf fun _ => trivial).bind fun _ line => ?_
  refine (checkRanges_ends input).bind ?_
  rintro _ ⟨ranges, rfl⟩
  refine (ends_rejectIf fun _ => trivial).bind fun _ inside => ?_
  refine (ends_rejectIf fun _ => trivial).bind fun _ apart => ?_
  refine (ends_rejectIf fun _ => trivial).bind fun _ memory => ?_
  refine (ends_rejectIf fun _ => trivial).bind fun _ table => ?_
  by_cases word : input.efiSystemTablePhys < 2 ^ 32
  · refine Ends.after_ok (tryU32_eq_ok.mpr ⟨word, rfl⟩) ?_
    simp only [not_or, Nat.not_lt, rangesOf] at line inside
    have short := line.1
    rw [writeBlock_of_short short]
    refine ends_ok ⟨⟨ranges, short, line.2.2, ⟨inside.1, inside.2.1⟩, inside.2.2, ?_, ?_, word⟩,
      rfl⟩
    · simp only [rangesOf] at apart
      simp only [Span.Apart, Span.stop_mk]
      omega
    · by_contra wraps
      exact memory (.inr (checkedAdd_of_not_lt wraps))
  · rw [tryU32, if_neg word]
    trivial

/-- The header of the collection, and the ranges of the base encoding. -/
structure HeaderOk (input : XnuFilesetBootArgsInput) : Prop where
  low : LowOk input.collectionHeaderPhys input.collectionHeaderSize
  inside : input.common.kernelPhys ≤ input.collectionHeaderPhys ∧
    input.collectionHeaderPhys + input.collectionHeaderSize ≤
      input.common.kernelPhys + input.common.kernelSize
  mapApart : Span.Apart ⟨input.common.memoryMapPhys, input.common.memoryMapSize⟩
    ⟨input.collectionHeaderPhys, input.collectionHeaderSize⟩
  dtApart : Span.Apart ⟨input.common.deviceTreePhys, input.common.deviceTreeSize⟩
    ⟨input.collectionHeaderPhys, input.collectionHeaderSize⟩

/-- The added fields go into the base block, where they leave the base fields alone. -/
theorem writeFileset_of_short {input : XnuFilesetBootArgsInput}
    (short : (asBytes input.common.commandLine).length ≤ maxCommandLine) :
    (do
      let bytes ← writeAt (image bootArgsSize (basePieces input.common)) 0 (toLeBytes 2 1)
      let bytes ← writeU32 bytes 1108 input.kernelSlide
      writeAt bytes 1256 (toLeBytes 8 input.collectionHeaderPhys)) =
        .ok (image bootArgsSize (blockPieces input)) := by
  have base := applied_zeros_eq (basePieces_apart short) (basePieces_fit short)
  have fits : ∀ p ∈ filesetPieces input,
      p.span.stop ≤ (image bootArgsSize (basePieces input.common)).length := by
    intro p mem
    rw [length_image]
    exact blockPieces_fit short p (List.mem_append_right _ mem)
  have written : (filesetPieces input).foldlM copyPiece
      (image bootArgsSize (basePieces input.common)) =
        (.ok (image bootArgsSize (blockPieces input)) : Result Bytes) := by
    rw [foldlM_copyPiece fits, ← base,
      ← applied_zeros_eq (blockPieces_apart short) (blockPieces_fit short)]
    simp only [applied, blockPieces, List.foldl_append]
  rw [← written, filesetPieces]
  simp only [List.foldlM_cons, List.foldlM_nil, bind_pure]
  rfl

theorem encodeFilesetBootArgs_ends (input : XnuFilesetBootArgsInput) :
    Ends (fun bytes => BaseOk input.common ∧ HeaderOk input ∧
        encodeBootArgs input.common = .ok (image bootArgsSize (basePieces input.common)) ∧
          bytes = image bootArgsSize (blockPieces input))
      (fun _ => True) (encodeFilesetBootArgs input) := by
  cases encoded : encodeBootArgs input.common with
  | panic => exact absurd encoded (encodeBootArgs_ends input.common).ne_panic
  | err e =>
      rw [encodeFilesetBootArgs, encoded]
      trivial
  | ok bytes =>
      obtain ⟨ok, block⟩ := (encodeBootArgs_ends input.common).of_ok encoded
      rw [block] at encoded
      have kernelLow := ok.kernel.low
      have mapLow := ok.map.low
      have dtLow := ok.dt.low
      rw [lowAddressLimit] at kernelLow mapLow dtLow
      refine Ends.after_ok encoded ?_
      refine (ends_rejectIf fun _ => trivial).bind fun _ _ => ?_
      refine (lowRange_ends ..).bind ?_
      rintro _ ⟨low, rfl⟩
      refine Ends.after_ok (add_of_lt (by omega)) ?_
      refine Ends.after_ok (add_of_lt (by omega)) ?_
      refine Ends.after_ok (add_of_lt (by omega)) ?_
      refine (ends_rejectIf fun _ => trivial).bind fun _ inside => ?_
      refine (ends_rejectIf fun _ => trivial).bind fun _ apart => ?_
      rw [writeFileset_of_short ok.shortLine]
      simp only [not_or, Nat.not_lt] at inside
      dsimp only at apart
      refine ends_ok ⟨ok, ⟨low, inside, ?_, ?_⟩, congrArg Outcome.ok block, rfl⟩
      · simp only [Span.Apart, Span.stop_mk]
        omega
      · simp only [Span.Apart, Span.stop_mk]
        omega

/-! ### What the block says -/

/-- The ranges of the memory map, of the device tree and of the header. -/
def handoffSpans (input : XnuFilesetBootArgsInput) : List Span :=
  [⟨input.common.memoryMapPhys, input.common.memoryMapSize⟩,
    ⟨input.common.deviceTreePhys, input.common.deviceTreeSize⟩,
    ⟨input.collectionHeaderPhys, input.collectionHeaderSize⟩]

/-- The ranges lie apart in the kernel, which is low memory. -/
structure Arranged (input : XnuFilesetBootArgsInput) : Prop where
  nonempty : ∀ s ∈ handoffSpans input, 0 < s.size
  apart : (handoffSpans input).Pairwise Span.Apart
  inside : ∀ s ∈ handoffSpans input,
    s.Within ⟨input.common.kernelPhys, input.common.kernelSize⟩
  low : ∀ s ∈ ⟨input.common.kernelPhys, input.common.kernelSize⟩ :: handoffSpans input,
    s.start < 2 ^ 32 ∧ s.size < 2 ^ 32 ∧ s.stop ≤ 2 ^ 32
  kernelPage : input.common.kernelPhys % pageSize = 0
  kernel : 0 < input.common.kernelPhys
  kernelEnd : roundUp pageSize (input.common.kernelPhys + input.common.kernelSize) < 2 ^ 32

/-- The words that no check bounds are words of their types. -/
structure XnuFilesetBootArgsInput.Words (input : XnuFilesetBootArgsInput) : Prop where
  stride : input.common.memoryMapDescriptorSize < 2 ^ 32
  kernelSlide : input.kernelSlide < 2 ^ 32

/-- What is read in the block, at the offsets of its fields. The command line has the 1024 bytes
from 8 on. -/
structure Decodes (input : XnuFilesetBootArgsInput) (bytes : Bytes) : Prop where
  length : bytes.length = bootArgsSize
  revision : wordAt 2 bytes 0 = 1
  version : wordAt 2 bytes 2 = 2
  efiMode : wordAt 1 bytes 4 = 64
  commandLine : (window bytes 8 1024).takeWhile (· ≠ 0) = asBytes input.common.commandLine
  commandLineEnds : 0 ∈ window bytes 8 1024
  memoryMapPhys : wordAt 4 bytes 0x408 = input.common.memoryMapPhys
  memoryMapSize : wordAt 4 bytes 0x40c = input.common.memoryMapSize
  descriptorSize : wordAt 4 bytes 0x410 = input.common.memoryMapDescriptorSize
  descriptorVersion : wordAt 4 bytes 0x414 = input.common.memoryMapDescriptorVersion
  deviceTreePhys : wordAt 4 bytes 0x430 = input.common.deviceTreePhys
  deviceTreeSize : wordAt 4 bytes 0x434 = input.common.deviceTreeSize
  kernelPhys : wordAt 4 bytes 0x438 = input.common.kernelPhys
  kernelSize : wordAt 4 bytes 0x43c = input.common.kernelSize
  systemTable : wordAt 4 bytes 0x450 = input.common.efiSystemTablePhys
  kernelSlide : wordAt 4 bytes 1108 = input.kernelSlide
  physicalMemorySize : wordAt 8 bytes 0x478 = input.common.physicalMemorySize
  collectionHeaderPhys : wordAt 8 bytes 1256 = input.collectionHeaderPhys

section Accepted

variable {input : XnuFilesetBootArgsInput}

theorem arranged_of_ok (base : BaseOk input.common) (header : HeaderOk input) :
    Arranged input := by
  have low : ∀ {phys size : Nat}, LowOk phys size →
      phys < 2 ^ 32 ∧ size < 2 ^ 32 ∧ phys + size ≤ 2 ^ 32 := by
    intro phys size ok
    have limit := ok.low
    rw [lowAddressLimit] at limit
    exact ⟨ok.words.1, ok.words.2, limit⟩
  constructor
  · simp only [handoffSpans, List.forall_mem_cons, List.not_mem_nil, false_implies,
      implies_true, and_true]
    exact ⟨base.map.nonempty, base.dt.nonempty, header.low.nonempty⟩
  · simp only [handoffSpans, List.pairwise_cons, List.forall_mem_cons, List.not_mem_nil,
      false_implies, implies_true, List.Pairwise.nil, and_true]
    exact ⟨⟨base.mapApart, header.mapApart⟩, header.dtApart⟩
  · simp only [handoffSpans, List.forall_mem_cons, List.not_mem_nil, false_implies,
      implies_true, Span.Within, Span.stop_mk, and_true]
    exact ⟨base.mapInside, base.dtInside, header.inside⟩
  · simp only [handoffSpans, List.forall_mem_cons, List.not_mem_nil, false_implies,
      implies_true, Span.stop_mk, and_true]
    exact ⟨low base.kernel, low base.map, low base.dt, low header.low⟩
  · exact base.kernelPage
  · exact base.kernel.positive
  · exact base.kernelPageEnd

/-- The command line is alone in its field. -/
theorem commandLine_alone : ∀ s ∈ (blockPieces input).map Piece.span,
    s = Piece.span ⟨8, asBytes input.common.commandLine⟩ ∨ s.Apart ⟨8, 1024⟩ := by
  have clear : ∀ a ∈ ([⟨2, 2⟩, ⟨4, 1⟩] ++ (lowSpans ++ filesetSpans) : List Span),
      a.Apart ⟨8, 1024⟩ := by decide
  intro s mem
  rw [span_blockPieces] at mem
  rcases List.mem_append.mp mem with front | behind
  · exact .inr (clear s (List.mem_append_left _ front))
  · rcases List.mem_cons.mp behind with line | back
    · exact .inl line
    · exact .inr (clear s (List.mem_append_right _ back))

/-- A value of a field of four bytes is one of four bytes. -/
theorem lowFields_lt (base : BaseOk input.common) (words : input.Words) :
    ∀ field ∈ lowFields input.common (rangesOf input.common) input.common.efiSystemTablePhys,
      field.2 < 256 ^ 4 := by
  simp only [lowFields, rangesOf, List.forall_mem_cons, List.not_mem_nil, false_implies,
    implies_true, and_true]
  have version : input.common.memoryMapDescriptorVersion < 256 ^ 4 := by
    rw [base.version]
    decide
  exact ⟨base.map.words.1, base.map.words.2, words.stride, version, base.dt.words.1,
    base.dt.words.2, base.kernel.words.1, base.kernel.words.2, base.systemTable⟩

theorem decodes_of_ok (base : BaseOk input.common) (header : HeaderOk input)
    (words : input.Words) : Decodes input (image bootArgsSize (blockPieces input)) := by
  have apart := @blockPieces_apart input base.shortLine
  have fits := @blockPieces_fit input base.shortLine
  have lineMem : ⟨8, asBytes input.common.commandLine⟩ ∈ blockPieces input := by
    simp [blockPieces, basePieces]
  have short : (asBytes input.common.commandLine).length < 1024 := Nat.lt_succ_of_le base.shortLine
  have room : 8 + 1024 ≤ bootArgsSize := by decide
  obtain ⟨text, ends⟩ :=
    takeWhile_window_image apart lineMem base.plainLine short room commandLine_alone
  have fieldMem : ∀ field ∈ lowFields input.common (rangesOf input.common)
      input.common.efiSystemTablePhys, ⟨field.1, toLeBytes 4 field.2⟩ ∈ blockPieces input := by
    intro field mem
    exact List.mem_append_left _ (List.mem_append_left _ (List.mem_append_right _
      (List.mem_map_of_mem mem)))
  have each : ∀ field ∈ lowFields input.common (rangesOf input.common)
      input.common.efiSystemTablePhys,
      wordAt 4 (image bootArgsSize (blockPieces input)) field.1 = field.2 := by
    intro field mem
    exact wordAt_image apart fits (fieldMem field mem)
      (lowFields_lt base words field mem)
  simp only [lowFields, rangesOf, List.forall_mem_cons, List.not_mem_nil, false_implies,
    implies_true, and_true] at each
  obtain ⟨memoryMapPhys, memoryMapSize, descriptorSize, descriptorVersion, deviceTreePhys,
    deviceTreeSize, kernelPhys, kernelSize, systemTable⟩ := each
  have front : ∀ p ∈ basePieces input.common, p ∈ blockPieces input := by
    intro p mem
    exact List.mem_append_left _ mem
  have back : ∀ p ∈ filesetPieces input, p ∈ blockPieces input := by
    intro p mem
    exact List.mem_append_right _ mem
  have memory := base.memory
  have header_lt := header.low.words.1
  exact {
    length := length_image ..
    revision := wordAt_image apart fits (back ⟨0, toLeBytes 2 1⟩ (by simp [filesetPieces]))
      (by decide)
    version := wordAt_image apart fits (front ⟨2, toLeBytes 2 2⟩ (by simp [basePieces])) (by decide)
    efiMode := wordAt_image apart fits (front ⟨4, toLeBytes 1 64⟩ (by simp [basePieces, toLeBytes]))
      (by decide)
    commandLine := text
    commandLineEnds := ends
    kernelSlide := wordAt_image apart fits
      (back ⟨1108, toLeBytes 4 input.kernelSlide⟩ (by simp [filesetPieces])) words.kernelSlide
    physicalMemorySize := wordAt_image apart fits
      (front ⟨0x478, toLeBytes 8 input.common.physicalMemorySize⟩ (by simp [basePieces])) (by omega)
    collectionHeaderPhys := wordAt_image apart fits
      (back ⟨1256, toLeBytes 8 input.collectionHeaderPhys⟩ (by simp [filesetPieces])) (by omega)
    memoryMapPhys, memoryMapSize, descriptorSize, descriptorVersion, deviceTreePhys,
    deviceTreeSize, kernelPhys, kernelSize, systemTable }

/-- Outside of the added fields, the block is the base encoding. -/
theorem getElem?_blockPieces {i : Nat} (outside : ∀ s ∈ filesetSpans, i ∉ s.bytes) :
    (image bootArgsSize (blockPieces input))[i]? =
      (image bootArgsSize (basePieces input.common))[i]? := by
  by_cases inside : i < bootArgsSize
  · have clear : ∀ p ∈ filesetPieces input, i ∉ p.span.bytes := by
      intro p mem
      apply outside
      rw [← span_filesetPieces input]
      exact List.mem_map_of_mem mem
    rw [getElem?_image inside, getElem?_image inside]
    have none : ∀ p ∈ ([] : List Piece), i ∉ p.span.bytes := by
      intro p mem
      cases mem
    have same := @byteOf_append_congr i (basePieces input.common) _ _ [] clear none
    simp only [List.append_nil] at same
    rw [blockPieces, same]
  · rw [List.getElem?_eq_none (by rw [length_image]; omega),
      List.getElem?_eq_none (by rw [length_image]; omega)]

end Accepted

/-- The encoder for filesets never panics, and what it returns is the base encoding with three
fields put in. The block is read back field by field, and the ranges that it names lie apart in
the kernel. -/
theorem fileset_extends {input : XnuFilesetBootArgsInput} (words : input.Words) :
    encodeFilesetBootArgs input ≠ .panic ∧
      ∀ bytes, encodeFilesetBootArgs input = .ok bytes →
        (∃ base, encodeBootArgs input.common = .ok base ∧ base.length = bootArgsSize ∧
          ∀ i, (∀ s ∈ filesetSpans, i ∉ s.bytes) → bytes[i]? = base[i]?) ∧
        Decodes input bytes ∧ Arranged input := by
  refine ⟨(encodeFilesetBootArgs_ends input).ne_panic, fun bytes accepted => ?_⟩
  obtain ⟨base, header, encoded, block⟩ := (encodeFilesetBootArgs_ends input).of_ok accepted
  rw [block]
  refine ⟨⟨_, encoded, length_image .., ?_⟩, decodes_of_ok base header words,
    arranged_of_ok base header⟩
  intro i outside
  exact getElem?_blockPieces outside

/-- A kernel of sixteen pages with the map, the tree and the header in its last two. -/
def sampleFileset : XnuFilesetBootArgsInput where
  common := {
    memoryMapPhys := 0x10e000
    memoryMapSize := 480
    memoryMapDescriptorSize := 48
    memoryMapDescriptorVersion := 1
    deviceTreePhys := 0x10e800
    deviceTreeSize := 64
    kernelPhys := 0x100000
    kernelSize := 0x10000
    physicalMemorySize := 0x200000000
    efiSystemTablePhys := 0x7ff00018
    commandLine := "-v debug=0x8" }
  collectionHeaderPhys := 0x10f000
  collectionHeaderSize := 256
  kernelSlide := 0x200000

theorem fileset_extends_sample :
    ∃ base bytes, encodeBootArgs sampleFileset.common = .ok base ∧
      encodeFilesetBootArgs sampleFileset = .ok bytes ∧
        (∀ i, (∀ s ∈ filesetSpans, i ∉ s.bytes) → bytes[i]? = base[i]?) ∧
          wordAt 8 bytes 1256 = 0x10f000 := by
  obtain ⟨bytes, accepted⟩ := isOk_iff.mp
    (show (encodeFilesetBootArgs sampleFileset).isOk = true by decide +kernel)
  have words : sampleFileset.Words := by constructor <;> decide
  obtain ⟨⟨base, encoded, _, same⟩, decodes, _⟩ := (fileset_extends words).2 bytes accepted
  exact ⟨base, bytes, encoded, accepted, same, decodes.collectionHeaderPhys⟩

end Nextcore.XnuBootArgs
