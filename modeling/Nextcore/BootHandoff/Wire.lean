import Nextcore.CoreError
import Nextcore.Lib.Text

/-!
The boot argument buffer (`src/handoff.rs`): a header of 56 bytes, and the memory map, the
command line and the device tree behind it.

Offsets and sizes are words of 32 bits. The writer adds them up with no guard and takes the
lengths modulo the word; the reader widens them before it adds, and stops reading the memory
map where an entry leaves the data.
-/

namespace Nextcore.BootHandoff

open Checked Checked.Outcome

abbrev Result (α : Type) := Outcome CoreError α

def bootArgsMagic : UInt32 := 0x4D656D41

inductive MemoryKind where
  | efiReserved
  | efiLoaderCode
  | efiLoaderData
  | efiBootServicesCode
  | efiBootServicesData
  | efiRuntimeServicesCode
  | efiRuntimeServicesData
  | efiConventional
  | efiUnusable
  | efiACPIReclaim
  | efiACPINVS
  | efiMemoryMap
  | efiPersistent
  deriving DecidableEq, Repr

/-- `kind as u32`. -/
def MemoryKind.toU32 : MemoryKind → UInt32
  | .efiReserved => 0
  | .efiLoaderCode => 1
  | .efiLoaderData => 2
  | .efiBootServicesCode => 3
  | .efiBootServicesData => 4
  | .efiRuntimeServicesCode => 5
  | .efiRuntimeServicesData => 6
  | .efiConventional => 7
  | .efiUnusable => 8
  | .efiACPIReclaim => 9
  | .efiACPINVS => 10
  | .efiMemoryMap => 11
  | .efiPersistent => 12

def MemoryKind.fromU32 (v : UInt32) : Option MemoryKind :=
  match v.toNat with
  | 0 => some .efiReserved
  | 1 => some .efiLoaderCode
  | 2 => some .efiLoaderData
  | 3 => some .efiBootServicesCode
  | 4 => some .efiBootServicesData
  | 5 => some .efiRuntimeServicesCode
  | 6 => some .efiRuntimeServicesData
  | 7 => some .efiConventional
  | 8 => some .efiUnusable
  | 9 => some .efiACPIReclaim
  | 10 => some .efiACPINVS
  | 11 => some .efiMemoryMap
  | 12 => some .efiPersistent
  | _ => none

@[simp] theorem MemoryKind.fromU32_toU32 (kind : MemoryKind) : fromU32 kind.toU32 = some kind := by
  cases kind <;> rfl

structure MemoryEntry where
  base : UInt64
  size : UInt64
  kind : MemoryKind
  deriving DecidableEq

structure MemoryMap where
  entries : List MemoryEntry
  totalSize : UInt64
  deriving DecidableEq

structure DeviceTreeBuf where
  data : Bytes
  deriving DecidableEq

structure BootArgs where
  magic : UInt32
  version : UInt32
  flags : UInt64
  memoryMap : MemoryMap
  kernelBase : UInt64
  kernelSize : UInt64
  commandLine : String
  deviceTree : Option DeviceTreeBuf
  deriving DecidableEq

/-- `HEADER_SIZE`. -/
def headerSize : Nat := 56

/-! ### Writing -/

/-- The 20 bytes of an entry. -/
def MemoryEntry.toBytes (e : MemoryEntry) : Bytes :=
  packWords [(8, e.base.toNat), (8, e.size.toNat), (4, e.kind.toU32.toNat)]

/-- `args.device_tree.map(..).unwrap_or(&[])`. -/
def BootArgs.dtBytes (args : BootArgs) : Bytes := (args.deviceTree.map (·.data)).getD []

/-- `n as u32`. -/
def asU32 (n : Nat) : Nat := n % 2 ^ 32

def serializeBootArgs (args : BootArgs) : Result Bytes := do
  let memoryMapEntries := args.memoryMap.entries.flatMap MemoryEntry.toBytes
  let cmdBytes := asBytes args.commandLine
  let dtBytes := args.dtBytes
  let memoryMapOffset := asU32 headerSize
  let memoryMapSize := asU32 memoryMapEntries.length
  let commandLineOffset ← addU32 memoryMapOffset memoryMapSize
  let commandLineSize := asU32 cmdBytes.length
  let deviceTreeOffset ← addU32 commandLineOffset commandLineSize
  let deviceTreeSize := asU32 dtBytes.length
  let header := packWords
    [(4, args.magic.toNat), (4, args.version.toNat), (8, args.flags.toNat), (4, memoryMapOffset),
      (4, memoryMapSize), (8, args.kernelBase.toNat), (8, args.kernelSize.toNat),
      (4, commandLineOffset), (4, commandLineSize), (4, deviceTreeOffset), (4, deviceTreeSize)]
  pure (header ++ (memoryMapEntries ++ (cmdBytes ++ dtBytes)))

/-! ### Reading -/

def readU32Le (data : Bytes) (offset : Nat) : Result UInt32 := do
  let stop ← add offset 4
  rejectIf (stop > data.length) (.handoff "truncated read u32")
  let bytes ← index data offset stop
  pure (UInt32.ofNat (fromLeBytes bytes))

def readU64Le (data : Bytes) (offset : Nat) : Result UInt64 := do
  let stop ← add offset 8
  rejectIf (stop > data.length) (.handoff "truncated read u64")
  let bytes ← index data offset stop
  pure (UInt64.ofNat (fromLeBytes bytes))

/-- One entry of the memory map. -/
def readEntry (data : Bytes) (baseOff : Nat) : Result MemoryEntry := do
  let base ← readU64Le data baseOff
  let at_size ← add baseOff 8
  let size ← readU64Le data at_size
  let at_kind ← add baseOff 16
  let kindRaw ← readU32Le data at_kind
  let kind ← ofOption (.handoff s!"unknown memory kind: {kindRaw}") (MemoryKind.fromU32 kindRaw)
  pure ⟨base, size, kind⟩

/-- The entries from the `i`-th on, when `left` of them remain. The loop ends early where an
entry would leave the data. -/
def readEntries (data : Bytes) (memoryMapOffset i : Nat) : Nat → Result (List MemoryEntry)
  | 0 => pure []
  | left + 1 => do
    let step ← mul i 20
    let baseOff ← add memoryMapOffset step
    let stop ← add baseOff 20
    if stop > data.length then pure []
    else do
      let entry ← readEntry data baseOff
      let rest ← readEntries data memoryMapOffset (i + 1) left
      pure (entry :: rest)

/-- The device tree, which is absent when its size is zero. -/
def readDeviceTree (data : Bytes) (offset size : Nat) : Result (Option DeviceTreeBuf) :=
  if size > 0 then do
    let dtEnd ← add offset size
    rejectIf (dtEnd > data.length) (.handoff "device tree extends beyond data")
    let tree ← index data offset dtEnd
    pure (some ⟨tree⟩)
  else pure none

def deserializeBootArgs (data : Bytes) : Result BootArgs := do
  rejectIf (data.length < headerSize)
    (.handoff s!"buffer too short: need {headerSize} bytes, have {data.length}")
  let magic ← readU32Le data 0
  rejectIf (magic ≠ bootArgsMagic) (.invalidMagic bootArgsMagic.toNat magic.toNat)
  let version ← readU32Le data 4
  let flags ← readU64Le data 8
  let memoryMapOffset ← readU32Le data 16
  let memoryMapSize ← readU32Le data 20
  let kernelBase ← readU64Le data 24
  let kernelSize ← readU64Le data 32
  let commandLineOffset ← readU32Le data 40
  let commandLineSize ← readU32Le data 44
  let deviceTreeOffset ← readU32Le data 48
  let deviceTreeSize ← readU32Le data 52
  let entries ← readEntries data memoryMapOffset.toNat 0 (memoryMapSize.toNat / 20)
  let totalSize ← sumFrom 0 (entries.map (·.size.toNat))
  let commandLineEnd ← add commandLineOffset.toNat commandLineSize.toNat
  rejectIf (commandLineEnd > data.length) (.handoff "command line extends beyond data")
  let commandLine ← index data commandLineOffset.toNat commandLineEnd
  let deviceTree ← readDeviceTree data deviceTreeOffset.toNat deviceTreeSize.toNat
  pure
    { magic, version, flags, memoryMap := ⟨entries, UInt64.ofNat totalSize⟩, kernelBase, kernelSize,
      commandLine := fromUtf8Lossy commandLine, deviceTree }

end Nextcore.BootHandoff
