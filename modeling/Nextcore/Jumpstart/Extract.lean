import Nextcore.Lib.Bytes

/-!
Extraction of the APFS EFI jumpstart driver (`src/apfs_jumpstart.rs`).

The reader is any implementation of `ReadAt`, with a state of its own. A `Session` is a reader
and the calls made to it so far; the list of calls is kept for the proofs alone. A `usize` is 64
bits wide, and allocation does not fail.
-/

namespace Nextcore.Jumpstart

open Checked Checked.Outcome Checked.Exec

def nxMagic : Nat := 0x4253584e
def jsdrMagic : Nat := 0x5244534a
def minBlockSize : Nat := 4096
def maxBlockSize : Nat := 65536
def minContainerBytes : Nat := 1024 * 1024
def nxJumpstart : Nat := 1272
def nxFusionUuid : Nat := 1280
def jsdrExtents : Nat := 176
def extentSize : Nat := 16

/-! ### Readers -/

/-- A call writes to the buffer that it is given, whose length stays as it is. -/
class ReadAt (R : Type) where
  Error : Type
  readExactAt : R → Nat → Bytes → (Except Error Unit × Bytes) × R
  length_readExactAt : ∀ reader offset out, (readExactAt reader offset out).1.2.length = out.length

/-- A call: where it reads, how many bytes, whether the reader reported success, and the bytes
then in the buffer. -/
structure Call where
  offset : Nat
  size : Nat
  success : Bool
  bytes : Bytes
  deriving DecidableEq

structure Session (R : Type) where
  reader : R
  calls : List Call

structure JumpstartLimits where
  maxDriverBytes : Nat
  maxExtents : Nat
  deriving DecidableEq, Repr

def JumpstartLimits.default : JumpstartLimits := ⟨16 * 1024 * 1024, 1024⟩

structure JumpstartExtent where
  startBlock : Nat
  blockCount : Nat
  deriving DecidableEq, Repr

structure JumpstartDriver where
  bytes : Bytes
  blockSize : Nat
  containerBlockCount : Nat
  jumpstartBlock : Nat
  containerUuid : Bytes
  extents : List JumpstartExtent
  deriving DecidableEq

inductive JumpstartError (ε : Type) where
  | io (error : ε)
  | outOfBounds
  | arithmeticOverflow
  | allocation
  | invalidLimits
  | invalidBlockSize (size : Nat)
  | invalidContainerSize
  | sourceChanged
  | badMagic (jumpstart : Bool)
  | badChecksum (jumpstart : Bool)
  | invalidObject (jumpstart : Bool)
  | unsupportedFusion
  | unsupportedFeatures (features : Nat)
  | noJumpstart
  | negativeAddress
  | unsupportedVersion (version : Nat)
  | invalidFileLength
  | driverTooLarge
  | invalidExtentCount
  | tooManyExtents
  | extentTableOutOfBounds
  | emptyExtent
  | insufficientExtentCapacity
  deriving DecidableEq, Repr

abbrev Result (ε α : Type) := Outcome (JumpstartError ε) α

section Checks

variable {ε : Type}

/-! ### Words -/

/-- The little-endian word of `width` bytes; a word that leaves the bytes is a panic. -/
def le (width : Nat) (bytes : Bytes) (offset : Nat) : Outcome ε Nat := do
  let stop ← add offset width
  let word ← index bytes offset stop
  pure (fromLeBytes word)

def le32 (bytes : Bytes) (offset : Nat) : Outcome ε Nat := le 4 bytes offset
def le64 (bytes : Bytes) (offset : Nat) : Outcome ε Nat := le 8 bytes offset

/-! ### Check words -/

def modulus : Nat := 2 ^ 32 - 1

/-- One word of the object: the sum, and the sum of the sums so far. -/
def fletcherStep (sums : Nat × Nat) (word : Bytes) : Outcome ε (Nat × Nat) := do
  let sum ← add sums.1 (fromLeBytes word)
  let prefixes ← add sums.2 (sum % modulus)
  pure (sum % modulus, prefixes % modulus)

def fletcher64Checksum (object : Bytes) : Outcome ε (Option Nat) :=
  if object.length < 8 ∨ object.length % 4 ≠ 0 then pure none
  else do
    let payload ← indexFrom object 8
    let sums ← (chunksExact payload 4).foldlM fletcherStep (0, 0)
    let both ← add sums.1 sums.2
    let low ← sub modulus (both % modulus)
    let lowered ← add sums.1 low
    let high ← sub modulus (lowered % modulus)
    let shifted ← shl high 32
    pure (some (shifted ||| low))

/-! ### Checks of an object -/

/-- The fields behind the magic; the object is long enough for them when it has that. -/
def checkObject (block : Bytes) (magic objectType : Nat) (jumpstart : Bool)
    (physicalOid : Option Nat) : Result ε Unit := do
  let checksum ← fletcher64Checksum block
  let stored ← le64 block 0
  rejectIf (checksum ≠ some stored) (.badChecksum jumpstart)
  let found ← le32 block 32
  rejectIf (found ≠ magic) (.badMagic jumpstart)
  let kind ← le32 block 24
  let storage := kind &&& 0xc0000000
  let subtype ← le32 block 28
  let xid ← le64 block 16
  let oid ← le64 block 8
  rejectIf (kind &&& 0xffff ≠ objectType ∨ kind &&& 0x3fff0000 ≠ 0 ∨ storage = 0xc0000000 ∨
    subtype ≠ 0 ∨ xid = 0 ∨
      physicalOid.any (fun physical => storage ≠ 0x40000000 ∨ oid ≠ physical))
    (.invalidObject jumpstart)

def positivePaddr (raw : Nat) : Result ε Nat := do
  rejectIf (raw > 2 ^ 63 - 1) .negativeAddress
  pure raw

/-- The offset of a range of blocks that is inside the container. -/
def blockRange (start count blockCount blockSize : Nat) : Result ε Nat := do
  let stop ← ofOption .arithmeticOverflow (checkedAdd start count)
  rejectIf (stop > blockCount) .outOfBounds
  ofOption .arithmeticOverflow (checkedMul start blockSize)

/-! ### The parts between the reads -/

/-- The block size of the prefix. -/
def selectBlockSize (front : Bytes) : Result ε Nat := do
  let blockSize ← le32 front 36
  rejectIf (¬ (minBlockSize ≤ blockSize ∧ blockSize ≤ maxBlockSize) ∨ ¬ blockSize.isPowerOfTwo)
    (.invalidBlockSize blockSize)
  pure blockSize

/-- What the superblock says. -/
structure Container where
  blockSize : Nat
  blockCount : Nat
  containerBytes : Nat
  uuid : Bytes
  jumpstartBlock : Nat
  jumpstartOffset : Nat

/-- The check of the superblock, after the prefix was read again with the rest of the block. -/
def checkContainer (partitionLen blockSize : Nat) (front block : Bytes) : Result ε Container := do
  let again ← index block 0 front.length
  rejectIf (again ≠ front) .sourceChanged
  checkObject block nxMagic 1 false none
  let blockCount ← le64 block 40
  let containerBytes ← ofOption .arithmeticOverflow (checkedMul blockCount blockSize)
  rejectIf (containerBytes < minContainerBytes) .invalidContainerSize
  rejectIf (containerBytes > partitionLen) .outOfBounds
  let incompatible ← le64 block 64
  rejectIf (incompatible &&& 0x100 ≠ 0) .unsupportedFusion
  let features ← le64 block 48
  rejectIf (features &&& 2 ≠ 0) .unsupportedFusion
  let fusionUuid ← index block nxFusionUuid (nxFusionUuid + 16)
  rejectIf (fusionUuid.any (· ≠ 0)) .unsupportedFusion
  let fusion ← index block 1352 1384
  rejectIf (fusion.any (· ≠ 0)) .unsupportedFusion
  rejectIf (incompatible ≠ 2) (.unsupportedFeatures incompatible)
  let uuid ← index block 72 88
  let raw ← le64 block nxJumpstart
  let jumpstartBlock ← positivePaddr raw
  rejectIf (jumpstartBlock = 0) .noJumpstart
  let jumpstartOffset ← blockRange jumpstartBlock 1 blockCount blockSize
  pure { blockSize, blockCount, containerBytes, uuid, jumpstartBlock, jumpstartOffset }

/-- One entry of the extent table, behind the extents and the capacity so far. -/
def parseExtent (c : Container) (listed : List JumpstartExtent × Nat) (entry : Bytes) :
    Result ε (List JumpstartExtent × Nat) := do
  let raw ← le64 entry 0
  let startBlock ← positivePaddr raw
  let count ← le64 entry 8
  rejectIf (count = 0) .emptyExtent
  let _ ← blockRange startBlock count c.blockCount c.blockSize
  let size ← ofOption .arithmeticOverflow (checkedMul count c.blockSize)
  let capacity ← ofOption .arithmeticOverflow (checkedAdd listed.2 size)
  pure (listed.1 ++ [⟨startBlock, count⟩], capacity)

/-- What the jumpstart record says. -/
structure JumpstartRecord where
  fileLen : Nat
  extents : List JumpstartExtent

def checkRecord (limits : JumpstartLimits) (c : Container) (block : Bytes) :
    Result ε JumpstartRecord := do
  checkObject block jsdrMagic 0x14 true (some c.jumpstartBlock)
  let version ← le32 block 36
  rejectIf (version ≠ 1) (.unsupportedVersion version)
  let fileLen ← le32 block 40
  rejectIf (fileLen = 0) .invalidFileLength
  rejectIf (fileLen > limits.maxDriverBytes) .driverTooLarge
  let count ← le32 block 44
  rejectIf (count = 0) .invalidExtentCount
  rejectIf (count > limits.maxExtents) .tooManyExtents
  let tableEnd ← ofOption .arithmeticOverflow
    ((checkedMul count extentSize).bind fun bytes => checkedAdd jsdrExtents bytes)
  rejectIf (tableEnd > block.length) .extentTableOutOfBounds
  let table ← index block jsdrExtents tableEnd
  let listed ← (chunksExact table extentSize).foldlM (parseExtent c) ([], 0)
  rejectIf (listed.2 < fileLen) .insufficientExtentCapacity
  pure ⟨fileLen, listed.1⟩

/-- `debug_assert!`. -/
def debugAssert (p : Prop) [Decidable p] : Result ε Unit := if p then pure () else .panic

end Checks

/-! ### Reads -/

section Reads

variable {R : Type} [ReadAt R]

/-- A method of a session. -/
abbrev Reading (R : Type) [ReadAt R] (α : Type) : Type :=
  Exec (Session R) (JumpstartError (ReadAt.Error R)) α

/-- `reader.read_exact_at(offset, out)`, with the buffer that it leaves. -/
def readExactAt (offset : Nat) (out : Bytes) : Reading R Bytes := fun s =>
  match ReadAt.readExactAt s.reader offset out with
  | ((.ok (), bytes), reader) =>
      (.ok bytes, ⟨reader, s.calls ++ [⟨offset, out.length, true, bytes⟩]⟩)
  | ((.error e, bytes), reader) =>
    (.err (.io e), ⟨reader, s.calls ++ [⟨offset, out.length, false, bytes⟩]⟩)

def readBounded (limit offset : Nat) (out : Bytes) : Reading R Bytes := do
  let stop ← lift (ofOption .arithmeticOverflow (checkedAdd offset out.length))
  lift (rejectIf (stop > limit) .outOfBounds)
  readExactAt offset out

/-! ### The copy -/

/-- What the copy loop carries: the file, the buffer of one block, and the bytes written. -/
structure Copy where
  bytes : Bytes
  block : Bytes
  written : Nat

variable (c : Container) (fileLen : Nat)

/-- One block of an extent. -/
def copyBlock (extent : JumpstartExtent) (index' : Nat) (copy : Copy) : Reading R Copy := do
  let address ← lift (ofOption .arithmeticOverflow (checkedAdd extent.startBlock index'))
  let offset ← lift (blockRange address 1 c.blockCount c.blockSize)
  let block ← readBounded c.containerBytes offset copy.block
  let left ← lift (sub fileLen copy.written)
  let count := min left block.length
  let stop ← lift (add copy.written count)
  let source ← lift (index block 0 count)
  let bytes ← lift (copyFrom copy.bytes copy.written stop source)
  pure ⟨bytes, block, stop⟩

/-- The loop over the blocks of an extent, `n` of them from an index on. -/
def copyBlocks (extent : JumpstartExtent) : Nat → Nat → Copy → Reading R Copy
  | 0, _, copy => pure copy
  | n + 1, index', copy => do
    let copy ← copyBlock c fileLen extent index' copy
    copyBlocks extent n (index' + 1) copy

/-- The loop over the extents, which ends early once the file is complete. -/
def copyExtents : List JumpstartExtent → Copy → Reading R Copy
  | [], copy => pure copy
  | extent :: rest, copy => do
    let remaining ← lift (sub fileLen copy.written)
    if remaining = 0 then pure copy
    else do
      let needed := divCeil remaining c.blockSize
      let copy ← copyBlocks c fileLen extent (min extent.blockCount needed) 0 copy
      copyExtents rest copy

end Reads

def extractJumpstart {R : Type} [ReadAt R] (partitionLen : Nat) (limits : JumpstartLimits) :
    Reading R JumpstartDriver := do
  lift (rejectIf (limits.maxDriverBytes = 0 ∨ limits.maxExtents = 0) .invalidLimits)
  let front ← readBounded partitionLen 0 (List.replicate 40 0)
  let blockSize ← lift (selectBlockSize front)
  let block ← readBounded partitionLen 0 (List.replicate blockSize 0)
  let c ← lift (checkContainer partitionLen blockSize front block)
  let block ← readBounded c.containerBytes c.jumpstartOffset block
  let record ← lift (checkRecord limits c block)
  let copy ← copyExtents c record.fileLen record.extents
    ⟨List.replicate record.fileLen 0, block, 0⟩
  lift (debugAssert (copy.written = record.fileLen))
  pure { bytes := copy.bytes, blockSize := c.blockSize, containerBlockCount := c.blockCount,
         jumpstartBlock := c.jumpstartBlock, containerUuid := c.uuid, extents := record.extents }

end Nextcore.Jumpstart
