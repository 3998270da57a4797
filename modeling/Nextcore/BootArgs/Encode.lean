import Nextcore.FlatDt.Codec

/-!
The ARM64 boot arguments (`xnu_arm64_boot_args.rs`).

The encoder checks the ranges of the kernel, of the arguments and of the device tree against
each other and against the memory that the tree describes, and then writes the fields into a
block of zeros. The second reading of the tree (`readDramNode`) interprets two properties of
`/chosen` only.
-/

namespace Nextcore.BootArgs

open Checked Checked.Outcome

def arm64BootArgsSize : Nat := 1152
def arm64CommandLineMax : Nat := 1023
def vmapplePageSize : Nat := 16 * 1024
def arm64DarkBoot : Nat := 1

structure Arm64BootVideo where
  baseAddress : Nat
  display : Nat
  rowBytes : Nat
  width : Nat
  height : Nat
  depth : Nat
  deriving DecidableEq, Repr

/-- `Arm64BootVideo::default()`. -/
def Arm64BootVideo.zero : Arm64BootVideo := ⟨0, 0, 0, 0, 0, 0⟩

structure Arm64BootArgsInput where
  physicalBase : Nat
  virtualBase : Nat
  memorySize : Nat
  actualMemorySize : Nat
  topOfKernelData : Nat
  kernelPhys : Nat
  kernelSize : Nat
  bootArgsPhys : Nat
  deviceTreePhys : Nat
  deviceTree : Bytes
  commandLine : String
  machineType : Nat
  bootFlags : Nat
  video : Arm64BootVideo
  deriving DecidableEq

inductive Arm64BootArgsError where
  | invalidCommandLine
  | unsupportedBootFlags
  | invalidMemoryRange
  | invalidVirtualRange
  | invalidKernelRange
  | invalidOccupiedTop
  | invalidArgumentRange
  | invalidDeviceTree
  | missingDramProperties
  | invalidDramProperties
  | handoffOutsideOccupiedMemory
  | overlappingHandoff
  deriving DecidableEq, Repr

abbrev Result (α : Type) := Outcome Arm64BootArgsError α

structure Arm64BootArgsEncoding where
  bytes : Bytes
  physicalAddress : Nat
  deviceTreeVirtualAddress : Nat
  deriving DecidableEq

/-! ### Ranges -/

structure Range where
  start : Nat
  stop : Nat
  deriving DecidableEq, Repr

def Range.new (start size : Nat) (error : Arm64BootArgsError) : Result Range := do
  rejectIf (size = 0) error
  let stop ← ofOption error (checkedAdd start size)
  pure ⟨start, stop⟩

def Range.Contains (self other : Range) : Prop := self.start ≤ other.start ∧ other.stop ≤ self.stop

def Range.Overlaps (self other : Range) : Prop := self.start < other.stop ∧ other.start < self.stop

instance (a b : Range) : Decidable (a.Contains b) := inferInstanceAs (Decidable (_ ∧ _))
instance (a b : Range) : Decidable (a.Overlaps b) := inferInstanceAs (Decidable (_ ∧ _))

/-! ### The memory in the device tree -/

/-- `Cursor::take`. -/
def takeBytes (bytes : Bytes) (cursor size : Nat) : Result (Bytes × Nat) :=
  take .invalidDeviceTree bytes cursor size

/-- `Cursor::u32`. -/
def readU32 (bytes : Bytes) (cursor : Nat) : Result (Nat × Nat) :=
  takeWord .invalidDeviceTree 4 bytes cursor

/-- What the loop over the properties of a node carries. -/
structure DramScan where
  cursor : Nat
  chosen : Bool
  base : Option Bytes
  size : Option Bytes

/-- What one property sets: the name of a node may say that it is `/chosen`, and only a direct
child of the root has the other two. -/
def DramScan.property (scan : DramScan) (depth : Nat) (name value : Bytes) : DramScan :=
  if name = asBytes "name" then
    { scan with chosen := decide (depth = 1 ∧ value = asBytes "chosen" ++ [0]) }
  else if depth = 1 ∧ name = asBytes "dram-base" then { scan with base := some value }
  else if depth = 1 ∧ name = asBytes "dram-size" then { scan with size := some value }
  else scan

/-- One property. -/
def readDramProperty (bytes : Bytes) (depth : Nat) (scan : DramScan) : Result DramScan := do
  let (rawName, cursor) ← takeBytes bytes scan.cursor 32
  let name ← index rawName 0 ((rawName.findIdx? (· = 0)).getD 32)
  let (length, cursor) ← readU32 bytes cursor
  let (value, cursor) ← takeBytes bytes cursor length
  let (_, cursor) ← takeBytes bytes cursor ((4 - length % 4) % 4)
  pure ({ scan with cursor }.property depth name value)

/-- `for _ in 0..properties`. -/
def readDramProperties (bytes : Bytes) (depth : Nat) : (count : Nat) → DramScan → Result DramScan
  | 0, scan => pure scan
  | count + 1, scan => do
    let scan ← readDramProperty bytes depth scan
    readDramProperties bytes depth count scan

/-- Eight bytes as a word. -/
def dramWord (value : Option Bytes) : Result Nat := do
  let value ← ofOption .missingDramProperties value
  rejectIf (value.length ≠ 8) .invalidDramProperties
  pure (fromLeBytes value)

/-- The memory that `/chosen` describes. Both properties are looked for before either is read. -/
def chosenDram (scan : DramScan) : Result Range := do
  rejectIf (scan.base = none ∨ scan.size = none) .missingDramProperties
  let base ← dramWord scan.base
  let size ← dramWord scan.size
  Range.new base size .invalidDramProperties

/-- What is known of the memory behind the properties of a node. -/
def nextDram (scan : DramScan) (dram : Option Range) : Result (Option Range) :=
  if scan.chosen then do
    let range ← chosenDram scan
    pure (some range)
  else pure dram

/-- `for _ in 0..children`. -/
def readDramChildren (child : Nat × Option Range → Result (Nat × Option Range)) :
    (count : Nat) → Nat × Option Range → Result (Nat × Option Range)
  | 0, reading => pure reading
  | count + 1, reading => do
    let reading ← child reading
    readDramChildren child count reading

/-- `read_dram_node`. Every level takes at least eight bytes, so a fuel above the number of bytes
does not run out. -/
def readDramNode (bytes : Bytes) : (fuel depth : Nat) → Nat × Option Range →
    Result (Nat × Option Range)
  | 0, _, _ => .panic
  | fuel + 1, depth, (cursor, dram) => do
    let (properties, cursor) ← readU32 bytes cursor
    let (children, cursor) ← readU32 bytes cursor
    let scan ← readDramProperties bytes depth properties ⟨cursor, false, none, none⟩
    let dram ← nextDram scan dram
    readDramChildren (readDramNode bytes fuel (depth + 1)) children (scan.cursor, dram)

def dramRange (bytes : Bytes) : Result Range := do
  let (_, dram) ← readDramNode bytes (bytes.length + 1) 0 (0, none)
  ofOption .missingDramProperties dram

/-! ### The encoder -/

def checkCommandLine (commandLine : String) : Result Unit :=
  rejectIf ((asBytes commandLine).length > arm64CommandLineMax ∨
    (asBytes commandLine).any (fun b => 128 ≤ b) = true ∨ 0 ∈ asBytes commandLine)
    .invalidCommandLine

/-- The ranges that the input declares, as far as they are needed to place the others. -/
structure DeclaredRanges where
  ram : Range
  occupied : Range
  kernel : Range
  args : Range
  dt : Range

/-- The checks of the ranges, down to that of the device tree's bytes. -/
def declaredRanges (input : Arm64BootArgsInput) : Result DeclaredRanges := do
  let ram ← Range.new input.physicalBase input.memorySize .invalidMemoryRange
  rejectIf (input.physicalBase % vmapplePageSize ≠ 0 ∨ input.memorySize % vmapplePageSize ≠ 0)
    .invalidMemoryRange
  let _ ← Range.new input.virtualBase input.memorySize .invalidVirtualRange
  rejectIf (input.virtualBase % vmapplePageSize ≠ 0) .invalidVirtualRange
  let top := input.topOfKernelData
  rejectIf (top ≤ ram.start ∨ ram.stop ≤ top ∨ top % vmapplePageSize ≠ 0) .invalidOccupiedTop
  let occupied : Range := ⟨ram.start, top⟩
  let kernel ← Range.new input.kernelPhys input.kernelSize .invalidKernelRange
  rejectIf (input.kernelPhys % vmapplePageSize ≠ 0 ∨ ¬ occupied.Contains kernel)
    .invalidKernelRange
  let args ← Range.new input.bootArgsPhys arm64BootArgsSize .invalidArgumentRange
  rejectIf (input.bootArgsPhys % 8 ≠ 0) .invalidArgumentRange
  let length ← tryU32 input.deviceTree.length .invalidDeviceTree
  rejectIf (input.deviceTreePhys % 4 ≠ 0 ∨ length % 4 ≠ 0) .invalidDeviceTree
  let dt ← Range.new input.deviceTreePhys length .invalidDeviceTree
  pure ⟨ram, occupied, kernel, args, dt⟩

/-- The check of the memory that the device tree describes. -/
def checkDram (input : Arm64BootArgsInput) (ram : Range) : Result Unit := do
  (FlatDt.validate input.deviceTree).mapErr fun _ => .invalidDeviceTree
  let dram ← dramRange input.deviceTree
  let size ← sub dram.stop dram.start
  rejectIf (dram.start % vmapplePageSize ≠ 0 ∨ size % vmapplePageSize ≠ 0 ∨
    size ≠ input.actualMemorySize ∨ ¬ dram.Contains ram) .invalidDramProperties

/-- The check of the ranges against each other. -/
def checkHandoff (ranges : DeclaredRanges) : Result Unit := do
  rejectIf (¬ ranges.occupied.Contains ranges.args ∨ ¬ ranges.occupied.Contains ranges.dt)
    .handoffOutsideOccupiedMemory
  rejectIf (ranges.args.Overlaps ranges.dt ∨ ranges.args.Overlaps ranges.kernel ∨
    ranges.dt.Overlaps ranges.kernel) .overlappingHandoff
  rejectIf (ranges.args.start < ranges.kernel.stop ∨ ranges.dt.start < ranges.kernel.stop)
    .handoffOutsideOccupiedMemory

/-- `bytes[offset..offset + width].copy_from_slice(&value.to_le_bytes())`. -/
def writeField (width : Nat) (bytes : Bytes) (field : Nat × Nat) : Result Bytes :=
  copyFrom bytes field.1 (field.1 + width) (toLeBytes width field.2)

/-- The fields of eight bytes, with their offsets. -/
def wordFields (input : Arm64BootArgsInput) (dtVirtual : Nat) : List (Nat × Nat) :=
  [(8, input.virtualBase),
    (16, input.physicalBase),
    (24, input.memorySize),
    (32, input.topOfKernelData),
    (40, input.video.baseAddress),
    (48, input.video.display),
    (56, input.video.rowBytes),
    (64, input.video.width),
    (72, input.video.height),
    (80, input.video.depth),
    (96, dtVirtual),
    (1136, input.bootFlags),
    (1144, input.actualMemorySize)]

def writeArgs (input : Arm64BootArgsInput) (dtVirtual : Nat) : Result Bytes := do
  let bytes := List.replicate arm64BootArgsSize 0
  let bytes ← writeField 2 bytes (0, 2)
  let bytes ← writeField 2 bytes (2, 2)
  let bytes ← (wordFields input dtVirtual).foldlM (writeField 8) bytes
  let bytes ← writeField 4 bytes (88, input.machineType)
  let bytes ← writeField 4 bytes (104, input.deviceTree.length)
  copyFrom bytes 108 (108 + (asBytes input.commandLine).length) (asBytes input.commandLine)

def encodeArm64BootArgs (input : Arm64BootArgsInput) : Result Arm64BootArgsEncoding := do
  checkCommandLine input.commandLine
  rejectIf (andNot input.bootFlags arm64DarkBoot ≠ 0) .unsupportedBootFlags
  let ranges ← declaredRanges input
  checkDram input ranges.ram
  checkHandoff ranges
  let offset ← ofOption .invalidDeviceTree (checkedSub ranges.dt.start ranges.ram.start)
  let dtVirtual ← ofOption .invalidVirtualRange (checkedAdd input.virtualBase offset)
  let bytes ← writeArgs input dtVirtual
  pure ⟨bytes, input.bootArgsPhys, dtVirtual⟩

end Nextcore.BootArgs
