import Nextcore.BootArgs.Encode
import Nextcore.Lib.Patchwork

/-!
When the encoder accepts its input, and what it writes.

`ArgsOk` is the profile that the checks decide. An accepted input becomes the image of its
fields, each at over zeros (`encode_yields`), so a word can be read back (`word_argsBlock`).
-/

namespace Nextcore.BootArgs

open Checked Checked.Outcome

/-! ### The profile -/

/-- The memory that the device tree describes holds the RAM of the input. -/
structure DramOk (input : Arm64BootArgsInput) (dram : Range) : Prop where
  described : dramRange input.deviceTree = .ok dram
  ordered : dram.start ≤ dram.stop
  start_page : dram.start % vmapplePageSize = 0
  size_page : (dram.stop - dram.start) % vmapplePageSize = 0
  actual : dram.stop - dram.start = input.actualMemorySize
  below : dram.start ≤ input.physicalBase
  above : input.physicalBase + input.memorySize ≤ dram.stop

/-- An input that the encoder accepts. -/
structure ArgsOk (input : Arm64BootArgsInput) : Prop where
  shortLine : (asBytes input.commandLine).length ≤ arm64CommandLineMax
  asciiLine : ∀ b ∈ asBytes input.commandLine, b < 128
  plainLine : 0 ∉ asBytes input.commandLine
  flags : andNot input.bootFlags arm64DarkBoot = 0
  memory : 0 < input.memorySize
  ramWord : input.physicalBase + input.memorySize < 2 ^ 64
  ramPage : input.physicalBase % vmapplePageSize = 0
  sizePage : input.memorySize % vmapplePageSize = 0
  virtualWord : input.virtualBase + input.memorySize < 2 ^ 64
  virtualPage : input.virtualBase % vmapplePageSize = 0
  topAbove : input.physicalBase < input.topOfKernelData
  topBelow : input.topOfKernelData < input.physicalBase + input.memorySize
  topPage : input.topOfKernelData % vmapplePageSize = 0
  kernelSize : 0 < input.kernelSize
  kernelPage : input.kernelPhys % vmapplePageSize = 0
  kernelAbove : input.physicalBase ≤ input.kernelPhys
  kernelBelow : input.kernelPhys + input.kernelSize ≤ input.topOfKernelData
  argsAligned : input.bootArgsPhys % 8 = 0
  argsAbove : input.kernelPhys + input.kernelSize ≤ input.bootArgsPhys
  argsBelow : input.bootArgsPhys + arm64BootArgsSize ≤ input.topOfKernelData
  treeSize : 0 < input.deviceTree.length
  treeWord : input.deviceTree.length < 2 ^ 32
  treeAligned : input.deviceTreePhys % 4 = 0
  treeSizeAligned : input.deviceTree.length % 4 = 0
  treeAbove : input.kernelPhys + input.kernelSize ≤ input.deviceTreePhys
  treeBelow : input.deviceTreePhys + input.deviceTree.length ≤ input.topOfKernelData
  treeApart : input.bootArgsPhys + arm64BootArgsSize ≤ input.deviceTreePhys ∨
    input.deviceTreePhys + input.deviceTree.length ≤ input.bootArgsPhys
  tree : FlatDt.validate input.deviceTree = .ok ()
  dram : ∃ dram, DramOk input dram

/-- An accepted input stays accepted with a lower top that still covers all of the handoff. -/
theorem ArgsOk.lower {input : Arm64BootArgsInput} (ok : ArgsOk input) {top : Nat}
    (video : Arm64BootVideo) (page : top % vmapplePageSize = 0)
    (below : top ≤ input.topOfKernelData) (args : input.bootArgsPhys + arm64BootArgsSize ≤ top)
    (tree : input.deviceTreePhys + input.deviceTree.length ≤ top) :
    ArgsOk { input with topOfKernelData := top, video } := by
  have topBelow := ok.topBelow
  have kernelAbove := ok.kernelAbove
  have kernelSize := ok.kernelSize
  have argsAbove := ok.argsAbove
  obtain ⟨dram, described⟩ := ok.dram
  exact { ok with
    topAbove := by dsimp only; omega
    topBelow := by dsimp only; omega
    topPage := page
    kernelBelow := by dsimp only; omega
    argsBelow := args
    treeBelow := tree
    dram := ⟨dram, { described with }⟩ }

theorem Range.new_yields (start size : Nat) (error : Arm64BootArgsError) :
    Yields (0 < size ∧ start + size < 2 ^ 64) (fun range => range = ⟨start, start + size⟩)
      (Range.new start size error) := by
  refine Yields.congr ?_ (Yields.guard fun _ =>
    (yields_checkedAdd start size error).bind_eq (q := True) fun _ => yields_ok rfl)
  rw [and_true, Nat.pos_iff_ne_zero]

section Checks

variable {input : Arm64BootArgsInput}

theorem checkCommandLine_yields (line : String) :
    Yields ((asBytes line).length ≤ arm64CommandLineMax ∧ (∀ b ∈ asBytes line, b < 128) ∧
      0 ∉ asBytes line) (fun _ => True) (checkCommandLine line) := by
  refine Yields.congr ?_ (yields_rejectIf _)
  rw [not_or, not_or, Nat.not_lt]
  simp

/-- The ranges of an input, as they are declared. -/
def rangesOf (input : Arm64BootArgsInput) : DeclaredRanges where
  ram := ⟨input.physicalBase, input.physicalBase + input.memorySize⟩
  occupied := ⟨input.physicalBase, input.topOfKernelData⟩
  kernel := ⟨input.kernelPhys, input.kernelPhys + input.kernelSize⟩
  args := ⟨input.bootArgsPhys, input.bootArgsPhys + arm64BootArgsSize⟩
  dt := ⟨input.deviceTreePhys, input.deviceTreePhys + input.deviceTree.length⟩

/-- What the checks of the ranges decide, in their order. -/
theorem declaredRanges_yields (input : Arm64BootArgsInput) :
    Yields ((0 < input.memorySize ∧ input.physicalBase + input.memorySize < 2 ^ 64) ∧
        ¬ (input.physicalBase % vmapplePageSize ≠ 0 ∨ input.memorySize % vmapplePageSize ≠ 0) ∧
        (0 < input.memorySize ∧ input.virtualBase + input.memorySize < 2 ^ 64) ∧
        ¬ input.virtualBase % vmapplePageSize ≠ 0 ∧
        ¬ (input.topOfKernelData ≤ input.physicalBase ∨
          input.physicalBase + input.memorySize ≤ input.topOfKernelData ∨
          input.topOfKernelData % vmapplePageSize ≠ 0) ∧
        (0 < input.kernelSize ∧ input.kernelPhys + input.kernelSize < 2 ^ 64) ∧
        ¬ (input.kernelPhys % vmapplePageSize ≠ 0 ∨
          ¬ (rangesOf input).occupied.Contains (rangesOf input).kernel) ∧
        (0 < arm64BootArgsSize ∧ input.bootArgsPhys + arm64BootArgsSize < 2 ^ 64) ∧
        ¬ input.bootArgsPhys % 8 ≠ 0 ∧ input.deviceTree.length < 2 ^ 32 ∧
        ¬ (input.deviceTreePhys % 4 ≠ 0 ∨ input.deviceTree.length % 4 ≠ 0) ∧
        (0 < input.deviceTree.length ∧
          input.deviceTreePhys + input.deviceTree.length < 2 ^ 64) ∧ True)
      (fun ranges => ranges = rangesOf input) (declaredRanges input) := by
  refine (Range.new_yields _ _ _).bind_eq fun _ => Yields.guard fun _ =>
    (Range.new_yields _ _ _).bind_eq fun _ => Yields.guard fun _ => Yields.guard fun _ =>
    (Range.new_yields _ _ _).bind_eq fun _ => Yields.guard fun _ =>
    (Range.new_yields _ _ _).bind_eq fun _ => Yields.guard fun _ =>
    (yields_tryU32 _ _).bind_eq fun _ => Yields.guard fun _ =>
    (Range.new_yields _ _ _).bind_eq fun _ => yields_ok rfl

/-- The memory that the tree describes has to hold the RAM. -/
theorem checkDram_yields (input : Arm64BootArgsInput) :
    Yields (FlatDt.validate input.deviceTree = .ok () ∧ ∃ dram, DramOk input dram)
      (fun _ => True) (checkDram input (rangesOf input).ram) := by
  have tested (dram : Range) : DramOk input dram ↔ dramRange input.deviceTree = .ok dram ∧
      dram.start ≤ dram.stop ∧ ¬ (dram.start % vmapplePageSize ≠ 0 ∨
        (dram.stop - dram.start) % vmapplePageSize ≠ 0 ∨
        dram.stop - dram.start ≠ input.actualMemorySize ∨
        ¬ dram.Contains (rangesOf input).ram) := by
    simp only [not_or, not_not, Range.Contains, rangesOf]
    exact ⟨fun ok => ⟨ok.described, ok.ordered, ok.start_page, ok.size_page, ok.actual, ok.below,
      ok.above⟩, fun ⟨described, ordered, start_page, size_page, actual, below, above⟩ =>
      ⟨described, ordered, start_page, size_page, actual, below, above⟩⟩
  have decides (u : Unit) : checkDram input (rangesOf input).ram = .ok u ↔
      FlatDt.validate input.deviceTree = .ok () ∧ ∃ dram, DramOk input dram := by
    simp only [checkDram, bind_eq_ok, mapErr_eq_ok, sub_eq_ok, rejectIf_eq_ok, tested]
    constructor
    · rintro ⟨_, valid, dram, described, _, ⟨ordered, rfl⟩, clear⟩
      exact ⟨valid, dram, described, ordered, clear⟩
    · rintro ⟨valid, dram, described, ordered, clear⟩
      exact ⟨(), valid, dram, described, _, ⟨ordered, rfl⟩, clear⟩
  exact ⟨fun ok => ⟨(), (decides ()).mpr ok, trivial⟩, fun u => (decides u).mp⟩

/-- The ranges have to be in the occupied memory, apart, and behind the kernel. -/
theorem checkHandoff_yields (input : Arm64BootArgsInput) :
    Yields (¬ (¬ (rangesOf input).occupied.Contains (rangesOf input).args ∨
          ¬ (rangesOf input).occupied.Contains (rangesOf input).dt) ∧
        ¬ ((rangesOf input).args.Overlaps (rangesOf input).dt ∨
          (rangesOf input).args.Overlaps (rangesOf input).kernel ∨
          (rangesOf input).dt.Overlaps (rangesOf input).kernel) ∧
        ¬ ((rangesOf input).args.start < (rangesOf input).kernel.stop ∨
          (rangesOf input).dt.start < (rangesOf input).kernel.stop))
      (fun _ => True) (checkHandoff (rangesOf input)) :=
  Yields.guard fun _ => Yields.guard fun _ => yields_rejectIf _

end Checks

/-! ### The bytes -/

/-- A field of the given width, as a piece of the block. -/
def fieldPiece (width : Nat) (field : Nat × Nat) : Piece := ⟨field.1, toLeBytes width field.2⟩

/-- The fields in the order in which they are written. -/
def fieldPieces (input : Arm64BootArgsInput) (dtVirtual : Nat) : List Piece :=
  fieldPiece 2 (0, 2) :: fieldPiece 2 (2, 2) ::
    ((wordFields input dtVirtual).map (fieldPiece 8) ++
      [fieldPiece 4 (88, input.machineType), fieldPiece 4 (104, input.deviceTree.length),
        ⟨108, asBytes input.commandLine⟩])

/-- The block of the arguments. -/
def argsBlock (input : Arm64BootArgsInput) (dtVirtual : Nat) : Bytes :=
  image arm64BootArgsSize (fieldPieces input dtVirtual)

section Block

variable {input : Arm64BootArgsInput} {dtVirtual : Nat}

/-- The places of the fixed fields. -/
def fixedSpans : List Span :=
  [⟨0, 2⟩, ⟨2, 2⟩, ⟨8, 8⟩, ⟨16, 8⟩, ⟨24, 8⟩, ⟨32, 8⟩, ⟨40, 8⟩, ⟨48, 8⟩, ⟨56, 8⟩, ⟨64, 8⟩, ⟨72, 8⟩,
    ⟨80, 8⟩, ⟨96, 8⟩, ⟨1136, 8⟩, ⟨1144, 8⟩, ⟨88, 4⟩, ⟨104, 4⟩]

theorem span_fieldPieces :
    (fieldPieces input dtVirtual).map Piece.span =
      fixedSpans ++ [⟨108, (asBytes input.commandLine).length⟩] := by
  simp only [fieldPieces, wordFields, fieldPiece, Piece.span, List.map_cons, List.map_nil,
    length_toLeBytes, fixedSpans, List.cons_append, List.nil_append]

/-- The fields do not run into each other. -/
theorem fieldPieces_apart (short : (asBytes input.commandLine).length ≤ arm64CommandLineMax) :
    (fieldPieces input dtVirtual).Pairwise fun p q => p.span.Apart q.span := by
  rw [← List.pairwise_map, span_fieldPieces, List.pairwise_append]
  refine ⟨by decide, List.pairwise_singleton .., ?_⟩
  have clear : ∀ a ∈ fixedSpans, a.stop ≤ 108 ∨ 108 + arm64CommandLineMax ≤ a.start := by decide
  intro a mem b b_mem
  obtain rfl := List.mem_singleton.mp b_mem
  have := clear a mem
  simp only [Span.Apart, Span.stop] at this ⊢
  omega

theorem fieldPieces_fit (short : (asBytes input.commandLine).length ≤ arm64CommandLineMax) :
    ∀ p ∈ fieldPieces input dtVirtual, p.span.stop ≤ arm64BootArgsSize := by
  intro p mem
  have in_spans : p.span ∈ fixedSpans ++ [⟨108, (asBytes input.commandLine).length⟩] :=
    @span_fieldPieces input dtVirtual ▸ List.mem_map_of_mem mem
  rcases List.mem_append.mp in_spans with fixed | line
  · exact (show ∀ a ∈ fixedSpans, a.stop ≤ arm64BootArgsSize by decide) _ fixed
  · rw [List.mem_singleton.mp line, Span.stop_mk]
    exact (Nat.add_le_add_left short 108).trans (by decide)

theorem writeField_of_fits {width : Nat} {bytes : Bytes} {field : Nat × Nat}
    (fits : field.1 + width ≤ bytes.length) :
    writeField width bytes field = .ok (applied [fieldPiece width field] bytes) := by
  have copied := @copyFrom_of_le Arm64BootArgsError bytes (toLeBytes width field.2) field.1
    (by rw [length_toLeBytes]; exact fits)
  rw [length_toLeBytes] at copied
  exact copied

theorem foldlM_writeField {width : Nat} {bytes : Bytes} {fields : List (Nat × Nat)}
    (fits : ∀ field ∈ fields, field.1 + width ≤ bytes.length) :
    fields.foldlM (writeField width) bytes =
      .ok (applied (fields.map (fieldPiece width)) bytes) := by
  induction fields generalizing bytes with
  | nil => rfl
  | cons field rest ih =>
      obtain ⟨first, others⟩ := List.forall_mem_cons.mp fits
      rw [List.foldlM_cons, writeField_of_fits first, bind_ok, ih]
      · rfl
      · rwa [length_applied]

/-- The writes give the image of the fields. -/
theorem writeArgs_eq (short : (asBytes input.commandLine).length ≤ arm64CommandLineMax) :
    writeArgs input dtVirtual = .ok (argsBlock input dtVirtual) := by
  have block : (List.replicate arm64BootArgsSize (0 : UInt8)).length = arm64BootArgsSize :=
    List.length_replicate
  have room : 108 + (asBytes input.commandLine).length ≤ arm64BootArgsSize :=
    (Nat.add_le_add_left short 108).trans (by decide)
  have words : ∀ field ∈ wordFields input dtVirtual, field.1 + 8 ≤ arm64BootArgsSize := by
    simp [wordFields, arm64BootArgsSize]
  simp only [writeArgs]
  rw [writeField_of_fits (by rw [block]; decide), bind_ok,
    writeField_of_fits (by rw [length_applied, block]; decide), bind_ok,
    foldlM_writeField (by simpa only [length_applied, block] using words), bind_ok,
    writeField_of_fits (by
      rw [length_applied, length_applied, length_applied, block]
      exact (by decide : 88 + 4 ≤ arm64BootArgsSize)), bind_ok,
    writeField_of_fits (by
      rw [length_applied, length_applied, length_applied, length_applied, block]
      exact (by decide : 104 + 4 ≤ arm64BootArgsSize)), bind_ok,
    copyFrom_of_le (by simpa only [length_applied, block] using room)]
  have same : ∀ bytes, overlay (applied [fieldPiece 4 (104, input.deviceTree.length)]
      (applied [fieldPiece 4 (88, input.machineType)]
        (applied ((wordFields input dtVirtual).map (fieldPiece 8))
          (applied [fieldPiece 2 (2, 2)] (applied [fieldPiece 2 (0, 2)] bytes))))) 108
      (asBytes input.commandLine) = applied (fieldPieces input dtVirtual) bytes := by
    intro bytes
    simp only [applied, fieldPieces, List.foldl_cons, List.foldl_append, List.foldl_nil]
  rw [same, argsBlock, ok.injEq, eq_image_iff (by rw [length_applied, block])]
  exact applied_zeros (fieldPieces_apart short) (fieldPieces_fit short)

@[simp] theorem length_argsBlock (input : Arm64BootArgsInput) (dtVirtual : Nat) :
    (argsBlock input dtVirtual).length = arm64BootArgsSize :=
  length_image ..

/-- A field of the block is found where it was put. -/
theorem window_argsBlock (short : (asBytes input.commandLine).length ≤ arm64CommandLineMax)
    {p : Piece} (mem : p ∈ fieldPieces input dtVirtual) :
    window (argsBlock input dtVirtual) p.start p.bytes.length = p.bytes :=
  window_image (fieldPieces_apart short) mem (fieldPieces_fit short p mem)

/-- A word of the block is at its offset. -/
theorem window_wordField (short : (asBytes input.commandLine).length ≤ arm64CommandLineMax)
    {field : Nat × Nat} (mem : field ∈ wordFields input dtVirtual) :
    window (argsBlock input dtVirtual) field.1 8 = toLeBytes 8 field.2 := by
  have is_piece : fieldPiece 8 field ∈ fieldPieces input dtVirtual := by
    rw [fieldPieces]
    exact List.mem_cons_of_mem _ (List.mem_cons_of_mem _
      (List.mem_append_left _ (List.mem_map_of_mem mem)))
  have shown := window_argsBlock short is_piece
  simpa only [fieldPiece, length_toLeBytes] using shown

/-- A word of the block is read back at its offset. -/
theorem word_argsBlock (short : (asBytes input.commandLine).length ≤ arm64CommandLineMax)
    {field : Nat × Nat} (mem : field ∈ wordFields input dtVirtual) (word : field.2 < 2 ^ 64) :
    fromLeBytes (window (argsBlock input dtVirtual) field.1 8) = field.2 := by
  rw [window_wordField short mem, fromLeBytes_toLeBytes word]

theorem pointer_mem_wordFields : (96, dtVirtual) ∈ wordFields input dtVirtual := by
  simp [wordFields]

/-- The words that the top of the kernel data and the video are written to. -/
def topAndVideo (input : Arm64BootArgsInput) : List (Nat × Nat) :=
  [(32, input.topOfKernelData),
    (40, input.video.baseAddress),
    (48, input.video.display),
    (56, input.video.rowBytes),
    (64, input.video.width),
    (72, input.video.height),
    (80, input.video.depth)]

theorem topAndVideo_subset : topAndVideo input ⊆ wordFields input dtVirtual := by
  intro field mem
  simp only [topAndVideo, wordFields, List.mem_cons, List.not_mem_nil, or_false] at mem ⊢
  tauto

theorem topAndVideo_outside {i : Nat} (outside : ¬ (32 ≤ i ∧ i < 88)) :
    ∀ p ∈ (topAndVideo input).map (fieldPiece 8), i ∉ p.span.bytes := by
  have placed : ∀ p ∈ (topAndVideo input).map (fieldPiece 8),
      32 ≤ p.span.start ∧ p.span.stop ≤ 88 := by
    simp [topAndVideo, fieldPiece, Piece.span, Span.stop, length_toLeBytes]
  intro p mem inside
  obtain ⟨above, below⟩ := placed p mem
  rw [Span.mem_bytes] at inside
  omega

/-- The top and the video are all that these two fields of the input decide. -/
theorem argsBlock_congr (top : Nat) (video : Arm64BootVideo) {i : Nat}
    (outside : ¬ (32 ≤ i ∧ i < 88)) :
    (argsBlock { input with topOfKernelData := top, video } dtVirtual)[i]? =
      (argsBlock input dtVirtual)[i]? := by
  by_cases inside : i < arm64BootArgsSize
  · rw [argsBlock, argsBlock, getElem?_image inside, getElem?_image inside, Option.some_inj]
    exact @byteOf_append_congr i
      ([(0, 2), (2, 2)].map (fieldPiece 2) ++
        [(8, input.virtualBase), (16, input.physicalBase), (24, input.memorySize)].map
          (fieldPiece 8))
      ((topAndVideo { input with topOfKernelData := top, video }).map (fieldPiece 8))
      ((topAndVideo input).map (fieldPiece 8)) _
      (topAndVideo_outside outside) (topAndVideo_outside outside)
  · rw [List.getElem?_eq_none (by rw [length_argsBlock]; omega),
      List.getElem?_eq_none (by rw [length_argsBlock]; omega)]

end Block

/-! ### The encoder -/

/-- What the encoder returns. -/
def encodingOf (input : Arm64BootArgsInput) : Arm64BootArgsEncoding where
  bytes := argsBlock input (input.virtualBase + (input.deviceTreePhys - input.physicalBase))
  physicalAddress := input.bootArgsPhys
  deviceTreeVirtualAddress := input.virtualBase + (input.deviceTreePhys - input.physicalBase)

@[simp] theorem length_encodingOf (input : Arm64BootArgsInput) :
    (encodingOf input).bytes.length = arm64BootArgsSize := by
  simp only [encodingOf, length_argsBlock]

/-- The arguments point to the device tree. -/
theorem word_encodingOf {input : Arm64BootArgsInput} (ok : ArgsOk input) :
    fromLeBytes (window (encodingOf input).bytes 96 8) =
      (encodingOf input).deviceTreeVirtualAddress := by
  have virtualWord := ok.virtualWord
  have topBelow := ok.topBelow
  have treeBelow := ok.treeBelow
  have treeAbove := ok.treeAbove
  have kernelAbove := ok.kernelAbove
  have word : input.virtualBase + (input.deviceTreePhys - input.physicalBase) < 2 ^ 64 := by omega
  simpa only [encodingOf] using word_argsBlock ok.shortLine pointer_mem_wordFields word

/-- The encoder accepts exactly the profile, and returns the block of the fields. -/
theorem encode_yields (input : Arm64BootArgsInput) :
    Yields (ArgsOk input) (fun out => out = encodingOf input) (encodeArm64BootArgs input) := by
  refine Yields.congr ?_ ((checkCommandLine_yields _).bind fun line _ _ =>
    Yields.guard fun flags => (declaredRanges_yields input).bind_eq fun ranges =>
    (checkDram_yields input).bind fun _ _ _ =>
    (checkHandoff_yields input).bind (q := True) fun handoff _ _ => ?_)
  · simp only [not_or, not_not, Range.Contains, Range.Overlaps, rangesOf, Nat.not_le, Nat.not_lt,
      and_true]
    constructor
    · rintro ⟨⟨shortLine, asciiLine, plainLine⟩, flags, ⟨⟨memory, ramWord⟩, ⟨ramPage, sizePage⟩,
        ⟨_, virtualWord⟩, virtualPage, ⟨topAbove, topBelow, topPage⟩, ⟨kernelSize, _⟩,
        ⟨kernelPage, kernelAbove, kernelBelow⟩, ⟨_, _⟩, argsAligned, treeWord,
        ⟨treeAligned, treeSizeAligned⟩, treeSize, _⟩, ⟨tree, dram⟩, ⟨⟨_, argsBelow⟩, _, treeBelow⟩,
        ⟨apart, _, _⟩, argsAbove, treeAbove⟩
      exact { shortLine, asciiLine, plainLine, flags, memory, ramWord, ramPage, sizePage,
              virtualWord, virtualPage, topAbove, topBelow, topPage, kernelSize, kernelPage,
              kernelAbove, kernelBelow, argsAligned, argsAbove, argsBelow, treeSize, treeWord,
              treeAligned, treeSizeAligned, treeAbove, treeBelow, tree, dram,
              treeApart := by omega }
    · intro ok
      have ramWord := ok.ramWord
      have topBelow := ok.topBelow
      have kernelAbove := ok.kernelAbove
      have kernelBelow := ok.kernelBelow
      have argsAbove := ok.argsAbove
      have argsBelow := ok.argsBelow
      have treeAbove := ok.treeAbove
      have treeBelow := ok.treeBelow
      have treeApart := ok.treeApart
      exact ⟨⟨ok.shortLine, ok.asciiLine, ok.plainLine⟩, ok.flags, ⟨⟨ok.memory, ramWord⟩,
        ⟨ok.ramPage, ok.sizePage⟩, ⟨ok.memory, ok.virtualWord⟩, ok.virtualPage,
        ⟨ok.topAbove, topBelow, ok.topPage⟩, ⟨ok.kernelSize, by omega⟩,
        ⟨ok.kernelPage, kernelAbove, kernelBelow⟩, ⟨by decide, by omega⟩, ok.argsAligned,
        ok.treeWord, ⟨ok.treeAligned, ok.treeSizeAligned⟩, ok.treeSize, by omega⟩,
        ⟨ok.tree, ok.dram⟩, ⟨⟨by omega, argsBelow⟩, by omega, treeBelow⟩,
        ⟨by omega, by omega, by omega⟩, argsAbove, treeAbove⟩
  · -- The device tree is in RAM, and so is its address in the linear range.
    obtain ⟨⟨_, _⟩, _, ⟨_, virtualWord⟩, _, placed, _⟩ := ranges
    obtain ⟨inside, _⟩ := handoff
    simp only [not_or, not_not, Range.Contains, rangesOf, Nat.not_le] at placed inside
    have offset : checkedSub input.deviceTreePhys input.physicalBase =
        some (input.deviceTreePhys - input.physicalBase) := checkedSub_eq_some.mpr ⟨by omega, rfl⟩
    refine .after_ok (ofOption_eq_ok.mpr offset) (.after_ok (ofOption_eq_ok.mpr
      (checkedAdd_of_lt (by omega))) (.after_ok (writeArgs_eq line.1) (yields_ok rfl)))

end Nextcore.BootArgs
