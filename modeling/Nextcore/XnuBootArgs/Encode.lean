import Nextcore.Lib.Bytes

/-!
The x86 boot arguments (`xnu_boot_args.rs`).

The base encoder checks its ranges and writes the fields into a block of zeros. The encoder for
filesets runs the base encoder first and writes three more fields; it adds the ends of the ranges
up again, with no guard.
-/

namespace Nextcore.XnuBootArgs

open Checked Checked.Outcome

def bootArgsSize : Nat := 4096
def maxCommandLine : Nat := 1023
def pageSize : Nat := 4096
def lowAddressLimit : Nat := 2 ^ 32

structure XnuBootArgsInput where
  memoryMapPhys : Nat
  memoryMapSize : Nat
  memoryMapDescriptorSize : Nat
  memoryMapDescriptorVersion : Nat
  deviceTreePhys : Nat
  deviceTreeSize : Nat
  kernelPhys : Nat
  kernelSize : Nat
  physicalMemorySize : Nat
  efiSystemTablePhys : Nat
  commandLine : String
  deriving DecidableEq

structure XnuFilesetBootArgsInput where
  common : XnuBootArgsInput
  collectionHeaderPhys : Nat
  collectionHeaderSize : Nat
  kernelSlide : Nat
  deriving DecidableEq

inductive BootArgsError where
  | invalidCommandLine
  | invalidMemoryMap
  | invalidDeviceTree
  | invalidKernelRange
  | invalidPhysicalMemory
  | invalidEfiSystemTable
  | handoffOutsideKernel
  | overlappingHandoff
  | invalidCollectionHeader
  deriving DecidableEq, Repr

abbrev Result (α : Type) := Outcome BootArgsError α

/-! ### Ranges -/

/-- The start and the size of a range as words of 32 bits, and its end. -/
structure LowRange where
  phys : Nat
  size : Nat
  stop : Nat
  deriving DecidableEq, Repr

def lowRange (phys size : Nat) (error : BootArgsError) : Result LowRange := do
  let stop ← ofOption error (checkedAdd phys size)
  rejectIf (phys = 0 ∨ size = 0 ∨ stop > lowAddressLimit) error
  let lowPhys ← tryU32 phys error
  let lowSize ← tryU32 size error
  pure ⟨lowPhys, lowSize, stop⟩

/-- `kernel_end.checked_add(PAGE_SIZE - 1).map(|end| end & !(PAGE_SIZE - 1))`. -/
def pageEnd (kernelEnd : Nat) : Option Nat :=
  (checkedAdd kernelEnd (pageSize - 1)).map fun stop => andNot stop (pageSize - 1)

/-! ### The fields -/

/-- `bytes[offset..offset + src.len()].copy_from_slice(src)`. -/
def writeAt (bytes : Bytes) (offset : Nat) (src : Bytes) : Result Bytes :=
  copyFrom bytes offset (offset + src.length) src

def writeU32 (bytes : Bytes) (offset value : Nat) : Result Bytes :=
  writeAt bytes offset (toLeBytes 4 value)

/-- The ranges of the memory map, of the device tree and of the kernel. -/
structure LowRanges where
  map : LowRange
  dt : LowRange
  kernel : LowRange
  deriving DecidableEq, Repr

/-- The fields of four bytes, with their offsets. -/
def lowFields (input : XnuBootArgsInput) (ranges : LowRanges) (systemTable : Nat) :
    List (Nat × Nat) :=
  [(0x408, ranges.map.phys),
    (0x40c, ranges.map.size),
    (0x410, input.memoryMapDescriptorSize),
    (0x414, input.memoryMapDescriptorVersion),
    (0x430, ranges.dt.phys),
    (0x434, ranges.dt.size),
    (0x438, ranges.kernel.phys),
    (0x43c, ranges.kernel.size),
    (0x450, systemTable)]

/-! ### The encoders -/

def checkCommandLine (commandLine : String) : Result Unit :=
  rejectIf ((asBytes commandLine).length > maxCommandLine ∨
    (asBytes commandLine).any (fun b => 128 ≤ b) = true ∨ 0 ∈ asBytes commandLine)
    .invalidCommandLine

/-- The checks of the ranges by themselves. -/
def checkRanges (input : XnuBootArgsInput) : Result LowRanges := do
  let stride := input.memoryMapDescriptorSize
  rejectIf (stride < 40 ∨ stride % 8 ≠ 0 ∨ input.memoryMapDescriptorVersion ≠ 1 ∨
    input.memoryMapPhys % 8 ≠ 0 ∨ input.memoryMapSize % stride ≠ 0) .invalidMemoryMap
  let map ← lowRange input.memoryMapPhys input.memoryMapSize .invalidMemoryMap
  rejectIf (input.deviceTreePhys % 4 ≠ 0 ∨ input.deviceTreeSize < 8 ∨
    input.deviceTreeSize % 4 ≠ 0) .invalidDeviceTree
  let dt ← lowRange input.deviceTreePhys input.deviceTreeSize .invalidDeviceTree
  let kernel ← lowRange input.kernelPhys input.kernelSize .invalidKernelRange
  rejectIf (input.kernelPhys % pageSize ≠ 0 ∨
    (pageEnd kernel.stop).all (fun stop => lowAddressLimit ≤ stop) = true) .invalidKernelRange
  pure ⟨map, dt, kernel⟩

def writeBlock (input : XnuBootArgsInput) (ranges : LowRanges) (systemTable : Nat) :
    Result Bytes := do
  let bytes := List.replicate bootArgsSize 0
  let bytes ← writeAt bytes 2 (toLeBytes 2 2)
  let bytes ← writeAt bytes 4 [64]
  let bytes ← writeAt bytes 8 (asBytes input.commandLine)
  let bytes ← (lowFields input ranges systemTable).foldlM
    (fun bytes field => writeU32 bytes field.1 field.2) bytes
  writeAt bytes 0x478 (toLeBytes 8 input.physicalMemorySize)

def encodeBootArgs (input : XnuBootArgsInput) : Result Bytes := do
  checkCommandLine input.commandLine
  let ranges ← checkRanges input
  rejectIf (input.memoryMapPhys < input.kernelPhys ∨ ranges.map.stop > ranges.kernel.stop ∨
    input.deviceTreePhys < input.kernelPhys ∨ ranges.dt.stop > ranges.kernel.stop)
    .handoffOutsideKernel
  rejectIf (input.memoryMapPhys < ranges.dt.stop ∧ input.deviceTreePhys < ranges.map.stop)
    .overlappingHandoff
  rejectIf (input.physicalMemorySize = 0 ∨
    checkedAdd input.physicalMemorySize lowAddressLimit = none) .invalidPhysicalMemory
  rejectIf (input.efiSystemTablePhys = 0 ∨ input.efiSystemTablePhys % 8 ≠ 0)
    .invalidEfiSystemTable
  let systemTable ← tryU32 input.efiSystemTablePhys .invalidEfiSystemTable
  writeBlock input ranges systemTable

def encodeFilesetBootArgs (input : XnuFilesetBootArgsInput) : Result Bytes := do
  let bytes ← encodeBootArgs input.common
  rejectIf (input.collectionHeaderPhys % 8 ≠ 0 ∨ input.collectionHeaderSize < 32)
    .invalidCollectionHeader
  let header ← lowRange input.collectionHeaderPhys input.collectionHeaderSize
    .invalidCollectionHeader
  let common := input.common
  let kernelEnd ← add common.kernelPhys common.kernelSize
  let mapEnd ← add common.memoryMapPhys common.memoryMapSize
  let dtEnd ← add common.deviceTreePhys common.deviceTreeSize
  rejectIf (input.collectionHeaderPhys < common.kernelPhys ∨ header.stop > kernelEnd)
    .invalidCollectionHeader
  rejectIf ((input.collectionHeaderPhys < mapEnd ∧ common.memoryMapPhys < header.stop) ∨
    (input.collectionHeaderPhys < dtEnd ∧ common.deviceTreePhys < header.stop)) .overlappingHandoff
  let bytes ← writeAt bytes 0 (toLeBytes 2 1)
  let bytes ← writeU32 bytes 1108 input.kernelSlide
  writeAt bytes 1256 (toLeBytes 8 input.collectionHeaderPhys)

end Nextcore.XnuBootArgs
