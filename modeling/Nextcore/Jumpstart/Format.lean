import Nextcore.Jumpstart.Content
import Nextcore.Jumpstart.CheckWords

/-!
The format of a partition with a jumpstart driver.

`Bootable` says of the bytes of a partition alone when there is a driver to extract, and `driverOf`
what it is. Each check of the extraction passes exactly when its part of the format is there
(`checkContainer_iff`, `checkRecord_iff`). Addresses below zero need no part of their own: what is
inside the container is not below zero.
-/

namespace Nextcore.Jumpstart

open Checked Checked.Outcome Checked.Exec Fletcher

/-- An object of the container, by its header. -/
structure ObjectOk (block : Bytes) (magic objectType : Nat) (physicalOid : Option Nat) : Prop where
  checksum : wordAt 8 block 0 = combined (positional block)
  magic : wordAt 4 block 32 = magic
  type : wordAt 4 block 24 &&& 0xffff = objectType
  flags : wordAt 4 block 24 &&& 0x3fff0000 = 0
  storage : wordAt 4 block 24 &&& 0xc0000000 ≠ 0xc0000000
  subtype : wordAt 4 block 28 = 0
  xid : wordAt 8 block 16 ≠ 0
  physical : ∀ oid, physicalOid = some oid →
    wordAt 4 block 24 &&& 0xc0000000 = 0x40000000 ∧ wordAt 8 block 8 = oid

/-- The superblock of a container on a single device, which is in the partition. -/
structure Superblock (partitionLen blockSize : Nat) (block : Bytes) : Prop where
  object : ObjectOk block nxMagic 1 none
  large : minContainerBytes ≤ wordAt 8 block 40 * blockSize
  inside : wordAt 8 block 40 * blockSize ≤ partitionLen
  incompatible : wordAt 8 block 64 = 2
  features : wordAt 8 block 48 &&& 2 = 0
  fusionUuid : ∀ b ∈ window block nxFusionUuid 16, b = 0
  fusion : ∀ b ∈ window block 1352 32, b = 0
  jumpstart : 0 < wordAt 8 block nxJumpstart ∧ wordAt 8 block nxJumpstart < wordAt 8 block 40

/-- What a superblock says. -/
def containerOf (blockSize : Nat) (block : Bytes) : Container where
  blockSize
  blockCount := wordAt 8 block 40
  containerBytes := wordAt 8 block 40 * blockSize
  uuid := window block 72 16
  jumpstartBlock := wordAt 8 block nxJumpstart
  jumpstartOffset := wordAt 8 block nxJumpstart * blockSize

/-- A jumpstart record whose extents are in the container and have room for the file. -/
structure RecordFits (limits : JumpstartLimits) (c : Container) (block : Bytes) : Prop where
  object : ObjectOk block jsdrMagic 0x14 (some c.jumpstartBlock)
  version : wordAt 4 block 36 = 1
  length : 0 < wordAt 4 block 40 ∧ wordAt 4 block 40 ≤ limits.maxDriverBytes
  count : 0 < wordAt 4 block 44 ∧ wordAt 4 block 44 ≤ limits.maxExtents
  table : 176 + 16 * wordAt 4 block 44 ≤ block.length
  each : ∀ e ∈ listedExtents block, e.Inside c.blockCount
  word : blocksIn (listedExtents block) * c.blockSize < 2 ^ 64
  capacity : wordAt 4 block 40 ≤ blocksIn (listedExtents block) * c.blockSize

/-- What a jumpstart record says. -/
def recordOf (block : Bytes) : JumpstartRecord := ⟨wordAt 4 block 40, listedExtents block⟩

section Partition

variable (image : Nat → UInt8)

/-- The block size that the first bytes of a partition give. -/
def blockSizeOf : Nat := wordAt 4 (slab image 0 40) 36

/-- The container that a partition starts with. -/
def containerAt : Container := containerOf (blockSizeOf image) (slab image 0 (blockSizeOf image))

/-- The block of the jumpstart record. -/
def recordBlock : Bytes := slab image (containerAt image).jumpstartOffset (blockSizeOf image)

/-- A partition with a driver to extract. -/
structure Bootable (partitionLen : Nat) (limits : JumpstartLimits) : Prop where
  allowed : limits.maxDriverBytes ≠ 0 ∧ limits.maxExtents ≠ 0
  blockSize : minBlockSize ≤ blockSizeOf image ∧ blockSizeOf image ≤ maxBlockSize
  pow : (blockSizeOf image).isPowerOfTwo
  superblock : Superblock partitionLen (blockSizeOf image) (slab image 0 (blockSizeOf image))
  record : RecordFits limits (containerAt image) (recordBlock image)

/-- The driver of such a partition: the front of what its extents hold. -/
def driverOf : JumpstartDriver where
  bytes := ((listedExtents (recordBlock image)).flatMap
    (extentBytes image (blockSizeOf image))).take (wordAt 4 (recordBlock image) 40)
  blockSize := blockSizeOf image
  containerBlockCount := (containerAt image).blockCount
  jumpstartBlock := (containerAt image).jumpstartBlock
  containerUuid := (containerAt image).uuid
  extents := listedExtents (recordBlock image)

end Partition

/-! ### Checks -/

section Checks

variable {ε : Type} {block front : Bytes} {partitionLen blockSize : Nat} {c : Container}
  {limits : JumpstartLimits}

theorem le32_of {offset : Nat} (word : offset + 4 < 2 ^ 64) (inside : offset + 4 ≤ block.length) :
    (le32 block offset : Outcome ε Nat) = .ok (wordAt 4 block offset) :=
  le_eq_ok.mpr ⟨⟨word, inside⟩, rfl⟩

theorem le64_of {offset : Nat} (word : offset + 8 < 2 ^ 64) (inside : offset + 8 ≤ block.length) :
    (le64 block offset : Outcome ε Nat) = .ok (wordAt 8 block offset) :=
  le_eq_ok.mpr ⟨⟨word, inside⟩, rfl⟩

/-- The check words pass when they are those of the payload. -/
theorem checksumPasses_iff (long : 8 ≤ block.length) (whole : block.length % 4 = 0) :
    ChecksumPasses ε block ↔ wordAt 8 block 0 = combined (positional block) := by
  rw [ChecksumPasses, fletcher64Checksum_eq long whole, sums_payloadWords, ok.injEq,
    Option.some.injEq, eq_comm]

/-- A block size has no part of a word. -/
theorem blockSize_mod_four (large : 4096 ≤ blockSize) (pow : blockSize.isPowerOfTwo) :
    blockSize % 4 = 0 := by
  obtain ⟨k, rfl⟩ := pow
  have two : 2 ≤ k := by
    by_contra small
    have bound : 2 ^ k ≤ 2 ^ 2 := Nat.pow_le_pow_right (by decide) (by omega)
    omega
  exact Nat.mod_eq_zero_of_dvd (Nat.pow_dvd_pow 2 two)

/-- An object is accepted by its header. -/
theorem checkObject_iff (long : 36 ≤ block.length) (whole : block.length % 4 = 0)
    {magic objectType : Nat} {jumpstart : Bool} {physicalOid : Option Nat} :
    (checkObject block magic objectType jumpstart physicalOid : Result ε Unit) = .ok () ↔
      ObjectOk block magic objectType physicalOid := by
  have stored : (le64 block 0 : Result ε Nat) = .ok _ := le64_of (by decide) (by omega)
  have oid : (le64 block 8 : Result ε Nat) = .ok _ := le64_of (by decide) (by omega)
  have xid : (le64 block 16 : Result ε Nat) = .ok _ := le64_of (by decide) (by omega)
  have kind : (le32 block 24 : Result ε Nat) = .ok _ := le32_of (by decide) (by omega)
  have subtype : (le32 block 28 : Result ε Nat) = .ok _ := le32_of (by decide) (by omega)
  have found : (le32 block 32 : Result ε Nat) = .ok _ := le32_of (by decide) (by omega)
  simp only [checkObject, bind_eq_ok, stored, oid, xid, kind, subtype, found, ok.injEq,
    exists_eq_left', rejectIf_eq_ok, exists_const, not_or, not_not, Option.any_eq_true,
    decide_eq_true_eq, not_exists, not_and]
  have passes : ChecksumPasses (JumpstartError ε) block ↔ _ :=
    checksumPasses_iff (by omega) whole
  constructor
  · rintro ⟨_, computed, rfl, magic, type, flags, storage, subtype, xid, physical⟩
    exact ⟨passes.mp computed, magic, type, flags, storage, subtype, xid, physical⟩
  · rintro ⟨words, magic, type, flags, storage, subtype, xid, physical⟩
    exact ⟨_, passes.mpr words, rfl, magic, type, flags, storage, subtype, xid, physical⟩

theorem positivePaddr_of {raw : Nat} (small : raw < 2 ^ 63) :
    (positivePaddr raw : Result ε Nat) = .ok raw := by
  rw [positivePaddr, rejectIf_of_not _ (by omega)]
  rfl

theorem blockRange_of {start count blockCount blockSize : Nat} (inside : start + count ≤ blockCount)
    (positive : 0 < blockSize) (word : blockCount * blockSize < 2 ^ 64) :
    (blockRange start count blockCount blockSize : Result ε Nat) = .ok (start * blockSize) := by
  have all : start * blockSize ≤ blockCount * blockSize := Nat.mul_le_mul_right _ (by omega)
  have count_le : blockCount ≤ blockCount * blockSize := Nat.le_mul_of_pos_right _ positive
  rw [blockRange, checkedAdd_of_lt (by omega), ofOption_some, bind_ok,
    rejectIf_of_not _ (Nat.not_lt.mpr inside), bind_ok, ofOption_eq_ok, checkedMul_eq_some]
  exact ⟨by omega, rfl⟩

theorem selectBlockSize_iff (long : 40 ≤ front.length) :
    (selectBlockSize front : Result ε Nat) = .ok blockSize ↔
      (minBlockSize ≤ blockSize ∧ blockSize ≤ maxBlockSize) ∧ blockSize.isPowerOfTwo ∧
        blockSize = wordAt 4 front 36 := by
  have size : (le32 front 36 : Result ε Nat) = .ok _ := le32_of (by decide) (by omega)
  simp only [selectBlockSize, bind_eq_ok, size, ok.injEq, exists_eq_left', rejectIf_eq_ok,
    exists_const, not_or, not_not, pure_eq]
  constructor
  · rintro ⟨⟨within, pow⟩, rfl⟩
    exact ⟨within, pow, rfl⟩
  · rintro ⟨within, pow, rfl⟩
    exact ⟨⟨within, pow⟩, rfl⟩

theorem not_any_ne_zero {bytes : Bytes} :
    ¬ (bytes.any fun b => decide (b ≠ 0)) = true ↔ ∀ b ∈ bytes, b = 0 := by
  simp

/-- The superblock is accepted when it is one, and it has not changed since its front was read. -/
theorem checkContainer_iff (partition : partitionLen < 2 ^ 64) (short : front.length = 40)
    (large : 4096 ≤ blockSize) (whole : blockSize % 4 = 0) (length : block.length = blockSize) :
    (checkContainer partitionLen blockSize front block : Result ε Container) = .ok c ↔
      window block 0 40 = front ∧ Superblock partitionLen blockSize block ∧
        c = containerOf blockSize block := by
  have count : (le64 block 40 : Result ε Nat) = .ok _ := le64_of (by decide) (by omega)
  have features : (le64 block 48 : Result ε Nat) = .ok _ := le64_of (by decide) (by omega)
  have incompatible : (le64 block 64 : Result ε Nat) = .ok _ := le64_of (by decide) (by omega)
  have raw : (le64 block nxJumpstart : Result ε Nat) = .ok _ :=
    le64_of (by decide) (by rw [nxJumpstart]; omega)
  have again : (index block 0 40 : Result ε Bytes) = .ok (window block 0 40) :=
    index_of_le (Nat.zero_le _) (by omega)
  have fusionUuid : (index block nxFusionUuid (nxFusionUuid + 16) : Result ε Bytes) =
      .ok (window block nxFusionUuid 16) :=
    index_of_le (Nat.le_add_right _ _) (by rw [nxFusionUuid]; omega)
  have fusion : (index block 1352 1384 : Result ε Bytes) = .ok (window block 1352 32) :=
    index_of_le (by decide) (by omega)
  have uuid : (index block 72 88 : Result ε Bytes) = .ok (window block 72 16) :=
    index_of_le (by decide) (by omega)
  have object : (checkObject block nxMagic 1 false none : Result ε Unit) = .ok () ↔ _ :=
    checkObject_iff (by omega) (by omega)
  simp only [checkContainer, bind_eq_ok, count, features, incompatible, raw, again, fusionUuid,
    fusion, uuid, object, ok.injEq, exists_eq_left', rejectIf_eq_ok, exists_const, not_not, short,
    ofOption_eq_ok, checkedMul_eq_some, pure_eq, not_any_ne_zero]
  constructor
  · rintro ⟨same, header, _, ⟨_, rfl⟩, size, inside, _, bare, zeros, zeros', plain, block', address,
      positive, _, ranged, rfl⟩
    obtain rfl := positivePaddr_eq_ok address
    obtain ⟨below, rfl⟩ := blockRange_eq_ok ranged
    exact ⟨same, ⟨header, Nat.not_lt.mp size, Nat.not_lt.mp inside, plain, bare, zeros, zeros',
      Nat.pos_of_ne_zero positive, below⟩, rfl⟩
  · rintro ⟨same, ok, rfl⟩
    have word := Nat.lt_of_le_of_lt ok.inside partition
    obtain ⟨positive, below⟩ := ok.jumpstart
    -- A block of at least 4 KiB for each block number that the container has.
    have blocks : wordAt 8 block 40 * 4096 ≤ wordAt 8 block 40 * blockSize :=
      Nat.mul_le_mul_left _ large
    refine ⟨same, ok.object, _, ⟨word, rfl⟩, Nat.not_lt.mpr ok.large, Nat.not_lt.mpr ok.inside, ?_,
      ok.features, ok.fusionUuid, ok.fusion, ok.incompatible, _, positivePaddr_of (by omega),
      Nat.pos_iff_ne_zero.mp positive, _, blockRange_of below (by omega) word, rfl⟩
    rw [ok.incompatible]
    decide

/-- In a container of blocks of at least 4 KiB an extent needs no check of its sign. -/
theorem parseExtent_of (sized : Sized c) (large : 4096 ≤ c.blockSize)
    {listed : List JumpstartExtent × Nat} {entry : Bytes} (whole : entry.length = 16)
    (inside : (extentOf entry).Inside c.blockCount)
    (word : listed.2 + (extentOf entry).blockCount * c.blockSize < 2 ^ 64) :
    (parseExtent c listed entry : Result ε (List JumpstartExtent × Nat)) =
      .ok (listed.1 ++ [extentOf entry],
        listed.2 + (extentOf entry).blockCount * c.blockSize) := by
  obtain ⟨nonempty, stop⟩ := inside
  dsimp only [extentOf] at nonempty stop word ⊢
  have product := sized.word
  rw [sized.size] at product
  have blocks : c.blockCount * 4096 ≤ c.blockCount * c.blockSize := Nat.mul_le_mul_left _ large
  rw [parseExtent, le64_of (by decide) (by omega), bind_ok, positivePaddr_of (by omega), bind_ok,
    le64_of (by decide) (by omega), bind_ok, rejectIf_of_not _ (by omega), bind_ok,
    blockRange_of stop sized.positive product, bind_ok,
    checkedMul_eq_some.mpr ⟨by omega, rfl⟩, ofOption_some, bind_ok, checkedAdd_of_lt word,
    ofOption_some, bind_ok]
  rfl

theorem parseExtents_of (sized : Sized c) (large : 4096 ≤ c.blockSize) {entries : List Bytes}
    {listed : List JumpstartExtent × Nat} (whole : ∀ entry ∈ entries, entry.length = 16)
    (inside : ∀ e ∈ entries.map extentOf, e.Inside c.blockCount)
    (word : listed.2 + blocksIn (entries.map extentOf) * c.blockSize < 2 ^ 64) :
    (entries.foldlM (parseExtent c) listed : Result ε (List JumpstartExtent × Nat)) =
      .ok (listed.1 ++ entries.map extentOf,
        listed.2 + blocksIn (entries.map extentOf) * c.blockSize) := by
  induction entries generalizing listed with
  | nil => simp [blocksIn]
  | cons entry rest ih =>
      obtain ⟨whole, whole'⟩ := List.forall_mem_cons.mp whole
      obtain ⟨first, others⟩ := List.forall_mem_cons.mp inside
      have sum : blocksIn ((entry :: rest).map extentOf) * c.blockSize =
          (extentOf entry).blockCount * c.blockSize +
            blocksIn (rest.map extentOf) * c.blockSize := by
        rw [← Nat.add_mul]
        rfl
      rw [sum] at word ⊢
      rw [List.foldlM_cons, parseExtent_of sized large whole first (by omega), bind_ok,
        ih whole' others (by dsimp only; omega)]
      dsimp only
      rw [List.append_assoc, Nat.add_assoc, List.map_cons, List.singleton_append]

/-- The capacity of the extents stays a word. -/
theorem word_of_parseExtents {entries : List Bytes} {listed listed' : List JumpstartExtent × Nat}
    (start : listed.2 < 2 ^ 64)
    (done : (entries.foldlM (parseExtent c) listed : Result ε (List JumpstartExtent × Nat)) =
      .ok listed') : listed'.2 < 2 ^ 64 := by
  induction entries generalizing listed with
  | nil =>
      cases done
      exact start
  | cons entry rest ih =>
      rw [List.foldlM_cons] at done
      obtain ⟨next, first, others⟩ := bind_eq_ok.mp done
      refine ih ?_ others
      simp only [parseExtent, bind_eq_ok, ofOption_eq_ok, checkedAdd_eq_some, pure_eq,
        ok.injEq] at first
      obtain ⟨_, _, _, _, _, _, _, _, _, _, _, _, _, ⟨word, rfl⟩, rfl⟩ := first
      exact word

/-- The record is accepted when it fits. -/
theorem checkRecord_iff (sized : Sized c) (large : 4096 ≤ c.blockSize)
    (whole : c.blockSize % 4 = 0) (length : block.length = c.blockSize)
    (small : c.blockSize ≤ 65536) {record : JumpstartRecord} :
    (checkRecord limits c block : Result ε JumpstartRecord) = .ok record ↔
      RecordFits limits c block ∧ record = recordOf block := by
  have version : (le32 block 36 : Result ε Nat) = .ok _ := le32_of (by decide) (by omega)
  have fileLen : (le32 block 40 : Result ε Nat) = .ok _ := le32_of (by decide) (by omega)
  have count : (le32 block 44 : Result ε Nat) = .ok _ := le32_of (by decide) (by omega)
  have object : (checkObject block jsdrMagic 0x14 true (some c.jumpstartBlock) : Result ε Unit) =
      .ok () ↔ _ := checkObject_iff (by omega) (by omega)
  simp only [checkRecord, bind_eq_ok, version, fileLen, count, object, ok.injEq, exists_eq_left',
    rejectIf_eq_ok, exists_const, not_not, ofOption_eq_ok, Option.bind_eq_some_iff,
    checkedMul_eq_some, checkedAdd_eq_some, index_eq_ok, pure_eq, Nat.not_lt]
  constructor
  · rintro ⟨header, version, positive, limit, some_extents, few, _, ⟨_, ⟨_, rfl⟩, _, rfl⟩, fits, _,
      ⟨_, rfl⟩, listed, parsed, room, rfl⟩
    rw [Nat.add_sub_cancel_left] at parsed
    have word := word_of_parseExtents (by decide) parsed
    obtain ⟨appended, inside, summed⟩ := parseExtents_eq_ok parsed
    rw [List.nil_append] at appended
    rw [Nat.zero_add] at summed
    rw [summed] at word room
    have entries : (chunksExact (window block jsdrExtents (wordAt 4 block 44 * extentSize))
        extentSize).map extentOf = listedExtents block := map_extentOf_table fits
    rw [entries] at appended inside word room
    refine ⟨⟨header, version, ⟨Nat.pos_of_ne_zero positive, limit⟩,
      ⟨Nat.pos_of_ne_zero some_extents, few⟩, ?_, inside, word, room⟩, ?_⟩
    · rwa [Nat.mul_comm]
    · rw [recordOf, appended]
  · rintro ⟨fits, rfl⟩
    have table := fits.table
    have entries := @map_extentOf_table block _ (by rwa [Nat.mul_comm] at table)
    have parsed : ((chunksExact (window block 176 (wordAt 4 block 44 * 16)) 16).foldlM
        (parseExtent c) ([], 0) : Result ε (List JumpstartExtent × Nat)) = .ok _ :=
      parseExtents_of sized large (fun entry mem => length_of_mem_chunksExact mem)
        (by rw [entries]; exact fits.each) (by rw [entries, Nat.zero_add]; exact fits.word)
    rw [entries, List.nil_append, Nat.zero_add] at parsed
    refine ⟨fits.object, fits.version, Nat.pos_iff_ne_zero.mp fits.length.1, fits.length.2,
      Nat.pos_iff_ne_zero.mp fits.count.1, fits.count.2, _,
      ⟨_, ⟨?_, rfl⟩, ?_, rfl⟩, ?_, _, ⟨⟨Nat.le_add_right _ _, ?_⟩, rfl⟩,
      (listedExtents block, _), ?_, fits.capacity, rfl⟩
    · rw [extentSize]
      omega
    · rw [extentSize, jsdrExtents]
      omega
    · rw [extentSize, jsdrExtents]
      omega
    · rw [extentSize, jsdrExtents]
      omega
    · rw [Nat.add_sub_cancel_left]
      exact parsed

end Checks

end Nextcore.Jumpstart
