import Nextcore.BootArgs.Accepted
import Nextcore.BootArgs.Dram
import Nextcore.Lib.Record

/-!
What an accepted input and its block say.

The ranges of an accepted input lie apart in the occupied memory (`Arranged`), and its block is
read back field by field (`Decodes`). The fields of the block do not run into each other, whatever
the length of the command line.
-/

namespace Nextcore.BootArgs

open Checked Checked.Outcome

/-! ### The ranges -/

/-- The ranges of the kernel, of the arguments and of the device tree. -/
def handoffSpans (input : Arm64BootArgsInput) : List Span :=
  [⟨input.kernelPhys, input.kernelSize⟩, ⟨input.bootArgsPhys, arm64BootArgsSize⟩,
    ⟨input.deviceTreePhys, input.deviceTree.length⟩]

/-- The ranges lie apart in the occupied part of the RAM, which is a part of the memory that the
device tree describes. -/
structure Arranged (input : Arm64BootArgsInput) : Prop where
  nonempty : ∀ s ∈ handoffSpans input, 0 < s.size
  word : ∀ s ∈ handoffSpans input, s.stop < 2 ^ 64
  apart : (handoffSpans input).Pairwise Span.Apart
  occupied : ∀ s ∈ handoffSpans input,
    input.physicalBase ≤ s.start ∧ s.stop ≤ input.topOfKernelData
  behindKernel : input.kernelPhys + input.kernelSize ≤ input.bootArgsPhys ∧
    input.kernelPhys + input.kernelSize ≤ input.deviceTreePhys
  top : input.topOfKernelData < input.physicalBase + input.memorySize
  dram : ∃ dram, dramRange input.deviceTree = .ok dram ∧ dram.start ≤ input.physicalBase ∧
    input.physicalBase + input.memorySize ≤ dram.stop ∧
      dram.start + input.actualMemorySize = dram.stop ∧ dram.stop < 2 ^ 64

section Accepted

variable {input : Arm64BootArgsInput}

/-- The memory of the device tree ends at a word. -/
theorem DramOk.word {dram : Range} (ok : DramOk input dram)
    (tree : FlatDt.validate input.deviceTree = .ok ()) : dram.stop < 2 ^ 64 := by
  obtain ⟨root, _, _, _, _, _, _, _, described⟩ := dramRange_agrees tree
  obtain ⟨child, _, _, describes⟩ := (described dram).mp ok.described
  exact describes.word

theorem ArgsOk.arranged (ok : ArgsOk input) : Arranged input := by
  have kernelAbove := ok.kernelAbove
  have kernelBelow := ok.kernelBelow
  have argsAbove := ok.argsAbove
  have argsBelow := ok.argsBelow
  have treeAbove := ok.treeAbove
  have treeBelow := ok.treeBelow
  have treeApart := ok.treeApart
  have topBelow := ok.topBelow
  have ramWord := ok.ramWord
  obtain ⟨dram, dramOk⟩ := ok.dram
  have actual := dramOk.actual
  have ordered := dramOk.ordered
  constructor
  · simp only [handoffSpans, List.forall_mem_cons, List.not_mem_nil, false_implies,
      implies_true, and_true]
    exact ⟨ok.kernelSize, by decide, ok.treeSize⟩
  · simp only [handoffSpans, List.forall_mem_cons, List.not_mem_nil, false_implies,
      implies_true, Span.stop_mk, and_true]
    exact ⟨by omega, by omega, by omega⟩
  · simp only [handoffSpans, List.pairwise_cons, List.forall_mem_cons, List.not_mem_nil,
      false_implies, implies_true, List.Pairwise.nil, Span.Apart, Span.stop_mk, and_true]
    exact ⟨⟨.inl argsAbove, .inl treeAbove⟩, treeApart⟩
  · simp only [handoffSpans, List.forall_mem_cons, List.not_mem_nil, false_implies,
      implies_true, Span.stop_mk, and_true]
    exact ⟨⟨kernelAbove, kernelBelow⟩, ⟨by omega, argsBelow⟩, by omega, treeBelow⟩
  · exact ⟨argsAbove, treeAbove⟩
  · exact topBelow
  · exact ⟨dram, dramOk.described, dramOk.below, dramOk.above, by omega, dramOk.word ok.tree⟩

/-! ### The block -/

/-- The words that no check bounds are words of their types. -/
structure Arm64BootArgsInput.Words (input : Arm64BootArgsInput) : Prop where
  machineType : input.machineType < 2 ^ 32
  baseAddress : input.video.baseAddress < 2 ^ 64
  display : input.video.display < 2 ^ 64
  rowBytes : input.video.rowBytes < 2 ^ 64
  width : input.video.width < 2 ^ 64
  height : input.video.height < 2 ^ 64
  depth : input.video.depth < 2 ^ 64

/-- The address of the device tree in the linear range. -/
def deviceTreePointer (input : Arm64BootArgsInput) : Nat :=
  input.virtualBase + (input.deviceTreePhys - input.physicalBase)

/-- What is read in the block, at the offsets of its fields. The command line has the 1024 bytes
from 108 on. -/
structure Decodes (input : Arm64BootArgsInput) (bytes : Bytes) : Prop where
  length : bytes.length = arm64BootArgsSize
  revision : wordAt 2 bytes 0 = 2
  version : wordAt 2 bytes 2 = 2
  virtualBase : wordAt 8 bytes 8 = input.virtualBase
  physicalBase : wordAt 8 bytes 16 = input.physicalBase
  memorySize : wordAt 8 bytes 24 = input.memorySize
  topOfKernelData : wordAt 8 bytes 32 = input.topOfKernelData
  baseAddress : wordAt 8 bytes 40 = input.video.baseAddress
  display : wordAt 8 bytes 48 = input.video.display
  rowBytes : wordAt 8 bytes 56 = input.video.rowBytes
  width : wordAt 8 bytes 64 = input.video.width
  height : wordAt 8 bytes 72 = input.video.height
  depth : wordAt 8 bytes 80 = input.video.depth
  machineType : wordAt 4 bytes 88 = input.machineType
  deviceTree : wordAt 8 bytes 96 = deviceTreePointer input
  deviceTreeLength : wordAt 4 bytes 104 = input.deviceTree.length
  commandLine : (window bytes 108 1024).takeWhile (· ≠ 0) = asBytes input.commandLine
  commandLineEnds : 0 ∈ window bytes 108 1024
  bootFlags : wordAt 8 bytes 1136 = input.bootFlags
  actualMemorySize : wordAt 8 bytes 1144 = input.actualMemorySize
  zeros : ∀ i < arm64BootArgsSize, (∀ s ∈ fixedSpans, i ∉ s.bytes) →
    ¬ (108 ≤ i ∧ i < 108 + (asBytes input.commandLine).length) → bytes[i]? = some 0

/-- The flags hold one bit. -/
theorem ArgsOk.flags_lt (ok : ArgsOk input) : input.bootFlags < 2 ^ 64 := by
  have flags := ok.flags
  rw [arm64DarkBoot, show (1 : Nat) = 2 ^ 1 - 1 from rfl, andNot_two_pow, roundDown] at flags
  omega

/-- The words of the block fit their fields. -/
theorem ArgsOk.words_lt (ok : ArgsOk input) (words : input.Words) :
    ∀ field ∈ wordFields input (deviceTreePointer input), field.2 < 2 ^ 64 := by
  have ramWord := ok.ramWord
  have virtualWord := ok.virtualWord
  have topBelow := ok.topBelow
  have treeAbove := ok.treeAbove
  have treeBelow := ok.treeBelow
  have kernelAbove := ok.kernelAbove
  have flags := ok.flags_lt
  obtain ⟨dram, _, _, _, actual, word⟩ := ok.arranged.dram
  simp only [wordFields, deviceTreePointer, List.forall_mem_cons, List.not_mem_nil, false_implies,
    implies_true, and_true]
  exact ⟨by omega, by omega, by omega, by omega, words.baseAddress, words.display, words.rowBytes,
    words.width, words.height, words.depth, by omega, flags, by omega⟩

/-- The command line is alone in its field. -/
theorem commandLine_alone {dtVirtual : Nat} :
    ∀ s ∈ (fieldPieces input dtVirtual).map Piece.span,
      s = Piece.span ⟨108, asBytes input.commandLine⟩ ∨ s.Apart ⟨108, 1024⟩ := by
  have clear : ∀ a ∈ fixedSpans, a.Apart ⟨108, 1024⟩ := by decide
  intro s mem
  rw [span_fieldPieces] at mem
  rcases List.mem_append.mp mem with fixed | line
  · exact .inr (clear s fixed)
  · exact .inl (List.mem_singleton.mp line)

theorem bytes_encodingOf :
    (encodingOf input).bytes =
      image arm64BootArgsSize (fieldPieces input (deviceTreePointer input)) := by
  rw [encodingOf, argsBlock, deviceTreePointer]

theorem ArgsOk.decodes (ok : ArgsOk input) (words : input.Words) :
    Decodes input (encodingOf input).bytes := by
  rw [bytes_encodingOf]
  have apart := @fieldPieces_apart input (deviceTreePointer input) ok.shortLine
  have fits := @fieldPieces_fit input (deviceTreePointer input) ok.shortLine
  have line : ⟨108, asBytes input.commandLine⟩ ∈ fieldPieces input (deviceTreePointer input) := by
    simp [fieldPieces]
  have short : (asBytes input.commandLine).length < 1024 := Nat.lt_succ_of_le ok.shortLine
  have room : 108 + 1024 ≤ arm64BootArgsSize := by decide
  obtain ⟨text, ends⟩ :=
    takeWhile_window_image apart line ok.plainLine short room commandLine_alone
  have each : ∀ field ∈ wordFields input (deviceTreePointer input),
      wordAt 8 (image arm64BootArgsSize (fieldPieces input (deviceTreePointer input))) field.1 =
        field.2 := by
    intro field mem
    exact word_argsBlock ok.shortLine mem (ok.words_lt words field mem)
  simp only [wordFields, List.forall_mem_cons, List.not_mem_nil, false_implies, implies_true,
    and_true] at each
  obtain ⟨virtualBase, physicalBase, memorySize, topOfKernelData, baseAddress, display, rowBytes,
    width, height, depth, deviceTree, bootFlags, actualMemorySize⟩ := each
  have revision : fieldPiece 2 (0, 2) ∈ fieldPieces input (deviceTreePointer input) :=
    List.mem_cons_self
  have version : fieldPiece 2 (2, 2) ∈ fieldPieces input (deviceTreePointer input) :=
    List.mem_cons_of_mem _ List.mem_cons_self
  have machine : fieldPiece 4 (88, input.machineType) ∈
      fieldPieces input (deviceTreePointer input) := by simp [fieldPieces]
  have tree : fieldPiece 4 (104, input.deviceTree.length) ∈
      fieldPieces input (deviceTreePointer input) := by simp [fieldPieces]
  exact {
    length := length_image ..
    revision := wordAt_image apart fits revision (by decide)
    version := wordAt_image apart fits version (by decide)
    machineType := wordAt_image apart fits machine words.machineType
    deviceTreeLength := wordAt_image apart fits tree ok.treeWord
    commandLine := text
    commandLineEnds := ends
    virtualBase, physicalBase, memorySize, topOfKernelData, baseAddress, display, rowBytes, width,
    height, depth, deviceTree, bootFlags, actualMemorySize
    zeros := by
      intro i inside fixed line
      refine getElem?_image_of_clear inside fun s mem covered => ?_
      rw [span_fieldPieces] at mem
      rcases List.mem_append.mp mem with known | last
      · exact fixed s known covered
      · rw [List.mem_singleton.mp last] at covered
        exact line covered }

end Accepted

/-- Whatever the encoder accepts is arranged, and its block is read back field by field: the
pointer to the device tree is the address of the tree in the linear range, the command line stands
up to a zero, and every byte of no field is zero. -/
theorem boot_args_decodable {input : Arm64BootArgsInput} {encoding : Arm64BootArgsEncoding}
    (words : input.Words) (accepted : encodeArm64BootArgs input = .ok encoding) :
    Arranged input ∧ Decodes input encoding.bytes ∧
      input.physicalBase ≤ input.deviceTreePhys ∧ deviceTreePointer input < 2 ^ 64 ∧
        encoding.deviceTreeVirtualAddress = deviceTreePointer input ∧
          encoding.physicalAddress = input.bootArgsPhys := by
  obtain ⟨ok, rfl⟩ := (encode_yields input).post_of_ok accepted
  have virtualWord := ok.virtualWord
  have topBelow := ok.topBelow
  have treeBelow := ok.treeBelow
  have treeAbove := ok.treeAbove
  have kernelAbove := ok.kernelAbove
  refine ⟨ok.arranged, ok.decodes words, by omega, ?_, rfl, rfl⟩
  rw [deviceTreePointer]
  omega

/-- A kernel of two pages, with the arguments and the tree behind it. -/
def sampleArgs : Arm64BootArgsInput where
  physicalBase := 0x40000000
  virtualBase := 0xffffff8000000000
  memorySize := 0x20000000
  actualMemorySize := 0x20000000
  topOfKernelData := 0x42010000
  kernelPhys := 0x42000000
  kernelSize := 0x8000
  bootArgsPhys := 0x42008000
  deviceTreePhys := 0x42009000
  deviceTree := sampleDramTree
  commandLine := "-v serial=3"
  machineType := 42
  bootFlags := 1
  video := ⟨0x12340000, 2, 4096, 1024, 768, 32⟩

theorem boot_args_decodable_sample :
    ∃ encoding, encodeArm64BootArgs sampleArgs = .ok encoding ∧ Arranged sampleArgs ∧
      Decodes sampleArgs encoding.bytes ∧
        encoding.deviceTreeVirtualAddress = 0xffffff8002009000 := by
  obtain ⟨encoding, accepted⟩ := isOk_iff.mp
    (show (encodeArm64BootArgs sampleArgs).isOk = true by decide +kernel)
  have words : sampleArgs.Words := by constructor <;> decide
  obtain ⟨arranged, decodes, _, _, pointer, _⟩ := boot_args_decodable words accepted
  exact ⟨encoding, accepted, arranged, decodes, pointer⟩

end Nextcore.BootArgs
