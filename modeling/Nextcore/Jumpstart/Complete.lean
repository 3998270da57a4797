import Nextcore.Jumpstart.Format

/-!
What an extraction from an honest reader returns.

A reader that answers every call inside the partition from its bytes (`Honest`) is never refused
behind the checks: a partition in the format gives its driver, and every other partition an error
(`extractJumpstart_iff`).
-/

namespace Nextcore.Jumpstart

open Checked Checked.Outcome Checked.Exec Fletcher

/-- Every call inside the partition is answered, with the bytes that are there. -/
def Honest (R : Type) [ReadAt R] (image : Nat → UInt8) (partitionLen : Nat) : Prop :=
  ∀ (reader : R) (offset : Nat) (out : Bytes), offset + out.length ≤ partitionLen →
    (ReadAt.readExactAt reader offset out).1 = (.ok (), slab image offset out.length)

theorem copyFrom_ne_err {ε : Type} {bytes src : Bytes} {start stop : Nat} {e : ε} :
    copyFrom bytes start stop src ≠ .err e := by
  unfold copyFrom
  split <;> simp

theorem window_slab {image : Nat → UInt8} {size size' : Nat} (inside : size ≤ size') :
    window (slab image 0 size') 0 size = slab image 0 size := by
  obtain ⟨rest, rfl⟩ := Nat.exists_eq_add_of_le inside
  rw [slab_add, window, List.drop_zero, List.take_left' (length_slab ..)]

section Reading

variable {R : Type} [ReadAt R] {image : Nat → UInt8} {partitionLen : Nat} {s : Session R}
  {c : Container} {fileLen : Nat} {extent : JumpstartExtent} {copy : Copy}

/-- A read inside the partition returns what is there. -/
theorem serves_readBounded (honest : Honest R image partitionLen) {limit offset : Nat} {out : Bytes}
    (partition : partitionLen < 2 ^ 64) (limited : limit ≤ partitionLen)
    (inside : offset + out.length ≤ limit) (consistent : Consistent image s.calls) :
    Serves (readBounded limit offset out) s fun bytes t =>
      bytes = slab image offset out.length ∧ Consistent image t.calls := by
  have answered := honest s.reader offset out (by omega)
  refine Serves.after_ok (ofOption_eq_ok.mpr (checkedAdd_eq_some.mpr ⟨by omega, rfl⟩)) ?_
  refine Serves.after_ok (rejectIf_of_not _ (Nat.not_lt.mpr inside)) ?_
  rw [Serves, on, readExactAt]
  generalize ReadAt.readExactAt s.reader offset out = answer at answered
  obtain ⟨⟨result, bytes⟩, reader⟩ := answer
  cases answered
  refine ⟨rfl, List.forall_mem_append.mpr ⟨consistent, ?_⟩⟩
  exact List.forall_mem_singleton.mpr fun _ => rfl

/-- The blocks of an extent inside the container are read. -/
theorem serves_copyBlock (honest : Honest R image partitionLen) (partition : partitionLen < 2 ^ 64)
    (sized : Sized c) (limited : c.containerBytes ≤ partitionLen)
    (inside : extent.Inside c.blockCount) {index' : Nat} (below : index' < extent.blockCount)
    (room : copy.block.length = c.blockSize) (consistent : Consistent image s.calls) :
    Serves (copyBlock c fileLen extent index' copy) s fun copy' t =>
      copy'.block.length = c.blockSize ∧ Consistent image t.calls := by
  have word := sized.word
  rw [sized.size] at word
  have blocks : c.blockCount ≤ c.blockCount * c.blockSize :=
    Nat.le_mul_of_pos_right _ sized.positive
  have stop := inside.2
  have next : extent.startBlock + index' + 1 ≤ c.blockCount := by omega
  have fits :
    (extent.startBlock + index') * c.blockSize + copy.block.length ≤ c.containerBytes := by
    rw [room, sized.size, ← Nat.succ_mul]
    exact Nat.mul_le_mul_right _ next
  rw [copyBlock]
  refine Serves.after_ok (ofOption_eq_ok.mpr (checkedAdd_eq_some.mpr ⟨by omega, rfl⟩)) ?_
  refine Serves.after_ok (blockRange_of next sized.positive word) ?_
  refine (serves_readBounded honest partition limited fits consistent).bind ?_
  rintro block t ⟨rfl, consistent'⟩
  refine Serves.lift_bind (fun _ => expect_ne_err) fun _ _ => ?_
  refine Serves.lift_bind (fun _ => expect_ne_err) fun _ _ => ?_
  refine Serves.lift_bind (fun _ => index_ne_err) fun _ _ => ?_
  refine Serves.lift_bind (fun _ => copyFrom_ne_err) fun _ _ => serves_pure ⟨?_, consistent'⟩
  rw [length_slab, room]

theorem serves_copyBlocks (honest : Honest R image partitionLen) (partition : partitionLen < 2 ^ 64)
    (sized : Sized c) (limited : c.containerBytes ≤ partitionLen)
    (inside : extent.Inside c.blockCount) {n index' : Nat} (below : index' + n ≤ extent.blockCount)
    (room : copy.block.length = c.blockSize) (consistent : Consistent image s.calls) :
    Serves (copyBlocks c fileLen extent n index' copy) s fun copy' t =>
      copy'.block.length = c.blockSize ∧ Consistent image t.calls := by
  induction n generalizing index' copy s with
  | zero => exact serves_pure ⟨room, consistent⟩
  | succ n ih =>
      refine (serves_copyBlock honest partition sized limited inside (by omega) room
        consistent).bind fun copy' t ⟨room', consistent'⟩ => ?_
      exact ih (by omega) room' consistent'

theorem serves_copyExtents (honest : Honest R image partitionLen)
    (partition : partitionLen < 2 ^ 64) (sized : Sized c)
    (limited : c.containerBytes ≤ partitionLen) {extents : List JumpstartExtent}
    (inside : ∀ e ∈ extents, e.Inside c.blockCount) (room : copy.block.length = c.blockSize)
    (consistent : Consistent image s.calls) :
    Serves (copyExtents c fileLen extents copy) s fun _ t => Consistent image t.calls := by
  induction extents generalizing copy s with
  | nil => exact serves_pure consistent
  | cons extent rest ih =>
      obtain ⟨first, others⟩ := List.forall_mem_cons.mp inside
      rw [copyExtents]
      refine Serves.lift_bind (fun _ => expect_ne_err) fun remaining _ => ?_
      split
      · exact serves_pure consistent
      · refine (serves_copyBlocks honest partition sized limited first ?_ room consistent).bind
          fun copy' t kept => ih others kept.1 kept.2
        rw [Nat.zero_add]
        exact Nat.min_le_left _ _

/-- A read that returns has returned what is there. -/
theorem slab_of_readBounded (honest : Honest R image partitionLen) {limit offset : Nat}
    {out bytes : Bytes} {t : Session R} (limited : limit ≤ partitionLen)
    (read : (readBounded limit offset out).on s = (.ok bytes, t)) :
    bytes = slab image offset out.length ∧ offset + out.length ≤ limit := by
  simp only [readBounded, lift, on_look_bind_eq_ok, rejectIf_eq_ok, Nat.not_lt, ofOption_eq_ok,
    checkedAdd_eq_some] at read
  obtain ⟨_, ⟨_, rfl⟩, _, inside, read⟩ := read
  have answered := honest s.reader offset out (by omega)
  rw [on, readExactAt] at read
  generalize ReadAt.readExactAt s.reader offset out = answer at answered read
  obtain ⟨⟨result, found⟩, reader⟩ := answer
  cases answered
  cases read
  exact ⟨rfl, inside⟩

end Reading

section Extraction

variable {R : Type} [ReadAt R] {image : Nat → UInt8} {partitionLen : Nat}
  {limits : JumpstartLimits}

/-- The container of a superblock, as far as the copy relies on it. -/
theorem Superblock.sized {blockSize : Nat} {block : Bytes} (partition : partitionLen < 2 ^ 64)
    (positive : 0 < blockSize) (ok : Superblock partitionLen blockSize block) :
    Sized (containerOf blockSize block) :=
  ⟨rfl, Nat.lt_of_le_of_lt ok.inside partition, positive⟩

/-- A partition in the format is not refused. -/
theorem Bootable.serves (boot : Bootable image partitionLen limits)
    (honest : Honest R image partitionLen) (partition : partitionLen < 2 ^ 64) (reader : R) :
    Serves (extractJumpstart partitionLen limits) (⟨reader, []⟩ : Session R) fun driver t =>
      Consistent image t.calls ∧ ∃ bytes, driver = { driverOf image with bytes } := by
  obtain ⟨allowed, within, pow, superblock, fits⟩ := boot
  have none : Consistent image [] := fun call mem => absurd mem List.not_mem_nil
  -- Only what is said of the container and of the record is needed from here.
  rw [driverOf]
  generalize size : blockSizeOf image = blockSize at *
  generalize found : containerAt image = c at *
  generalize listed : recordBlock image = recordBytes at *
  rw [recordBlock, found, size] at listed
  rw [containerAt, size] at found
  have large : 4096 ≤ blockSize := within.1
  have small : blockSize ≤ 65536 := within.2
  have whole := blockSize_mod_four large pow
  have sized : Sized c := found ▸ superblock.sized partition (by omega)
  have same : c.blockSize = blockSize := by
    rw [← found]
    rfl
  have inside : c.containerBytes ≤ partitionLen := by
    rw [← found]
    exact superblock.inside
  have offset : c.jumpstartOffset + blockSize ≤ c.containerBytes := by
    rw [← found]
    dsimp only [containerOf]
    rw [← Nat.succ_mul]
    exact Nat.mul_le_mul_right _ superblock.jumpstart.2
  have stop : blockSize ≤ c.containerBytes := Nat.le_trans (Nat.le_add_left _ _) offset
  have checked : (checkContainer partitionLen blockSize (slab image 0 40)
      (slab image 0 blockSize) : Result (ReadAt.Error R) Container) = .ok c :=
    (checkContainer_iff partition (length_slab ..) large whole (length_slab ..)).mpr
      ⟨window_slab (by omega), superblock, found.symm⟩
  have length : recordBytes.length = c.blockSize := by
    rw [← listed, length_slab, same]
  have accepted : (checkRecord limits c recordBytes : Result (ReadAt.Error R) JumpstartRecord) =
      .ok (recordOf recordBytes) :=
    (checkRecord_iff sized (same ▸ large) (same ▸ whole) length (same ▸ small)).mpr ⟨fits, rfl⟩
  have selected : (selectBlockSize (slab image 0 40) : Result (ReadAt.Error R) Nat) =
      .ok blockSize :=
    (selectBlockSize_iff (Nat.le_of_eq (length_slab ..).symm)).mpr ⟨within, pow, size.symm⟩
  rw [extractJumpstart]
  refine Serves.after_ok (rejectIf_of_not _ (not_or.mpr allowed)) ?_
  refine (serves_readBounded honest partition (Nat.le_refl _) ?_ none).bind ?_
  · rw [List.length_replicate]
    omega
  rintro _ t ⟨rfl, consistent⟩
  rw [List.length_replicate]
  refine Serves.after_ok selected ?_
  refine (serves_readBounded honest partition (Nat.le_refl _) ?_ consistent).bind ?_
  · rw [List.length_replicate]
    omega
  rintro _ u ⟨rfl, consistent⟩
  rw [List.length_replicate]
  refine Serves.after_ok checked ?_
  refine (serves_readBounded honest partition inside ?_ consistent).bind ?_
  · rw [length_slab]
    exact offset
  rintro _ v ⟨rfl, consistent⟩
  rw [length_slab, listed]
  refine Serves.after_ok accepted ?_
  refine (serves_copyExtents honest partition sized inside fits.each length
    consistent).bind fun copy w consistent => ?_
  refine Serves.lift_bind (fun e => ?_) fun _ _ => serves_pure ⟨consistent, copy.bytes, ?_⟩
  · unfold debugAssert
    split <;> simp
  · rw [same]
    rfl

/-- A partition that gives a driver is in the format. -/
theorem bootable_of_ok (honest : Honest R image partitionLen) (partition : partitionLen < 2 ^ 64)
    {reader : R} {driver : JumpstartDriver} {t : Session R}
    (done : (extractJumpstart partitionLen limits).on ⟨reader, []⟩ = (.ok driver, t)) :
    Bootable image partitionLen limits := by
  simp only [extractJumpstart, lift, on_look_bind_eq_ok] at done
  obtain ⟨_, allowed, done⟩ := done
  rw [rejectIf_eq_ok, not_or] at allowed
  -- The prefix.
  obtain ⟨front, _, read, done⟩ := on_bind_eq_ok.mp done
  obtain ⟨rfl, _⟩ := slab_of_readBounded honest (Nat.le_refl _) read
  rw [List.length_replicate] at done
  obtain ⟨blockSize, selected, done⟩ := on_look_bind_eq_ok.mp done
  obtain ⟨within, pow, rfl⟩ :=
    (selectBlockSize_iff (Nat.le_of_eq (length_slab ..).symm)).mp selected
  obtain ⟨least, most⟩ := within
  have large : 4096 ≤ blockSizeOf image := least
  have small : blockSizeOf image ≤ 65536 := most
  have whole := blockSize_mod_four large pow
  -- The superblock.
  obtain ⟨block, _, read, done⟩ := on_bind_eq_ok.mp done
  obtain ⟨rfl, _⟩ := slab_of_readBounded honest (Nat.le_refl _) read
  rw [List.length_replicate] at done
  obtain ⟨c, checked, done⟩ := on_look_bind_eq_ok.mp done
  obtain ⟨_, superblock, rfl⟩ := (checkContainer_iff partition (length_slab ..) large whole
    (length_slab ..)).mp checked
  have sized := superblock.sized partition (by omega)
  have inside : (containerAt image).containerBytes ≤ partitionLen := superblock.inside
  -- The jumpstart record.
  obtain ⟨block, _, read, done⟩ := on_bind_eq_ok.mp done
  obtain ⟨rfl, _⟩ := slab_of_readBounded honest inside read
  rw [length_slab] at done
  obtain ⟨record, accepted, _⟩ := on_look_bind_eq_ok.mp done
  obtain ⟨fits, _⟩ := (checkRecord_iff sized large whole (length_slab ..) small).mp accepted
  exact ⟨allowed, ⟨least, most⟩, pow, superblock, fits⟩

/-- A driver with all but its bytes from another. -/
theorem fields_of_same {driver declared : JumpstartDriver} {bytes : Bytes}
    (same : driver = { declared with bytes }) :
    driver.blockSize = declared.blockSize ∧ driver.jumpstartBlock = declared.jumpstartBlock ∧
      driver.extents = declared.extents ∧ (driver.bytes = declared.bytes → driver = declared) := by
  subst same
  refine ⟨rfl, rfl, rfl, ?_⟩
  rintro rfl
  rfl

/-- What the driver of a partition has for its bytes, in its own fields. -/
theorem driverOf_bytes (image : Nat → UInt8) :
    (driverOf image).bytes =
      ((driverOf image).extents.flatMap (extentBytes image (driverOf image).blockSize)).take
        (wordAt 4 (slab image ((driverOf image).jumpstartBlock * (driverOf image).blockSize)
          (driverOf image).blockSize) 40) := by
  rw [driverOf, recordBlock, containerAt, containerOf]

/-- An extraction from an honest reader returns a driver exactly when the partition is in the
format, and that driver is the one that the format declares: neither the reader nor its state makes
a difference. -/
theorem extractJumpstart_iff (honest : Honest R image partitionLen)
    (partition : partitionLen < 2 ^ 64) (reader : R) (driver : JumpstartDriver) :
    ((extractJumpstart partitionLen limits).on (⟨reader, []⟩ : Session R)).1 = .ok driver ↔
      Bootable image partitionLen limits ∧ driver = driverOf image := by
  have runs := runs_extractJumpstart reader partitionLen limits
  have returned : Bootable image partitionLen limits →
      ((extractJumpstart partitionLen limits).on (⟨reader, []⟩ : Session R)).1 =
        .ok (driverOf image) := by
    intro boot
    obtain ⟨driver, t, done, ⟨consistent, bytes, same⟩, _, _, _, _, _, _, known⟩ :=
      (boot.serves honest partition reader).and_runs runs
    have extracted := known.extracted consistent
    obtain ⟨blockSize, jumpstart, extents, whole⟩ := fields_of_same same
    have contents := extracted.bytes
    rw [extracted.length, blockSize, jumpstart, extents, ← driverOf_bytes] at contents
    rw [done, whole contents]
  constructor
  · intro done
    have boot := bootable_of_ok honest partition (Prod.ext done rfl)
    have again := returned boot
    rw [done] at again
    exact ⟨boot, ok.inj again⟩
  · rintro ⟨boot, rfl⟩
    exact returned boot

end Extraction

/-! ### A small partition -/

section Words

/-- The partition that has these words, from its first on. -/
def imageOf (words : Nat → Nat) (offset : Nat) : UInt8 :=
  (toLeBytes 4 (words (offset / 4))).getD (offset % 4) 0

variable {words : Nat → Nat} {image : Nat → UInt8}

theorem slab_imageOf (k : Nat) : slab (imageOf words) (4 * k) 4 = toLeBytes 4 (words k) := by
  have byte {i : Nat} (below : i < 4) :
      imageOf words (4 * k + i) = (toLeBytes 4 (words k)).getD i 0 := by
    rw [imageOf, show (4 * k + i) / 4 = k by omega, show (4 * k + i) % 4 = i by omega]
  have first : imageOf words (4 * k) = (toLeBytes 4 (words k)).getD 0 0 := byte (i := 0) (by decide)
  simp [slab, List.range_succ, byte, first, toLeBytes]

theorem wordAt_slab {width start size offset : Nat} (inside : offset + width ≤ size) :
    wordAt width (slab image start size) offset =
      fromLeBytes (slab image (start + offset) width) := by
  obtain ⟨rest, rfl⟩ := Nat.exists_eq_add_of_le inside
  rw [Nat.add_assoc, slab_add, slab_add, wordAt, window, List.drop_left' (length_slab ..),
    List.take_left' (length_slab ..)]

theorem positional_slab (small : ∀ k, words k < 256 ^ 4) (k n : Nat) :
    positional (slab (imageOf words) (4 * k) (8 + 4 * n)) =
      ⟨∑ i ∈ Finset.range n, words (k + 2 + i),
        ∑ i ∈ Finset.range n, (n - i) * words (k + 2 + i)⟩ := by
  have count : (8 + 4 * n - 8) / 4 = n := by omega
  have word : ∀ i ∈ Finset.range n,
      payloadWord (slab (imageOf words) (4 * k) (8 + 4 * n)) i = words (k + 2 + i) := by
    intro i mem
    have below := Finset.mem_range.mp mem
    rw [payloadWord, wordAt_slab (by omega), show 4 * k + (8 + 4 * i) = 4 * (k + 2 + i) by omega,
      slab_imageOf, fromLeBytes_toLeBytes (small _)]
  rw [positional, payloadCount, length_slab, count, Finset.sum_congr rfl word]
  congr 1
  refine Finset.sum_congr rfl fun i mem => ?_
  rw [word i mem]

end Words

/-- 256 blocks of 4 KiB: a superblock, a jumpstart record, and a driver of five bytes. -/
def sampleWords (k : Nat) : Nat :=
  [(0, 0x2a2a580), (1, 0x3b09f12c), (4, 1), (6, 0x80000001), (8, 0x4253584e), (9, 4096),
    (10, 256), (16, 2), (318, 1), (1024, 0x6e909dea), (1025, 0xff2b0eaa), (1026, 1), (1028, 1),
    (1030, 0x40000014), (1032, 0x5244534a), (1033, 1), (1034, 5), (1035, 1), (1068, 2), (1070, 1),
    (2048, 0x00905a4d), (2049, 0x03)].foldr
      (fun word rest => bif k.beq word.1 then word.2 else rest) 0 % 256 ^ 4

theorem sampleWords_lt (k : Nat) : sampleWords k < 256 ^ 4 := Nat.mod_lt _ (by decide)

theorem superblock_sample : Superblock (1024 * 1024) 4096 (slab (imageOf sampleWords) 0 4096) := by
  have sums := positional_slab sampleWords_lt 0 1022
  exact
    { object :=
        { checksum := by
            rw [sums]
            decide +kernel
          magic := by decide +kernel
          type := by decide +kernel
          flags := by decide +kernel
          storage := by decide +kernel
          subtype := by decide +kernel
          xid := by decide +kernel
          physical := fun _ none => absurd none (Option.some_ne_none _).symm }
      large := by decide +kernel
      inside := by decide +kernel
      incompatible := by decide +kernel
      features := by decide +kernel
      fusionUuid := by decide +kernel
      fusion := by decide +kernel
      jumpstart := by decide +kernel }

theorem record_sample :
    RecordFits ⟨16, 1⟩ (containerOf 4096 (slab (imageOf sampleWords) 0 4096))
      (slab (imageOf sampleWords) 4096 4096) := by
  have sums := positional_slab sampleWords_lt 1024 1022
  exact
    { object :=
        { checksum := by
            rw [sums]
            decide +kernel
          magic := by decide +kernel
          type := by decide +kernel
          flags := by decide +kernel
          storage := by decide +kernel
          subtype := by decide +kernel
          xid := by decide +kernel
          physical := by
            intro oid found
            rw [← Option.some.inj found]
            decide +kernel }
      version := by decide +kernel
      length := by decide +kernel
      count := by decide +kernel
      table := by decide +kernel
      each := by
        intro e mem
        rw [show listedExtents (slab (imageOf sampleWords) 4096 4096) = [⟨2, 1⟩] by decide +kernel]
          at mem
        cases List.mem_singleton.mp mem
        exact ⟨by decide, by decide +kernel⟩
      word := by decide +kernel
      capacity := by decide +kernel }

theorem bootable_sample : Bootable (imageOf sampleWords) (1024 * 1024) ⟨16, 1⟩ := by
  have size : blockSizeOf (imageOf sampleWords) = 4096 := by decide +kernel
  have offset : (containerOf 4096 (slab (imageOf sampleWords) 0 4096)).jumpstartOffset = 4096 := by
    decide +kernel
  refine ⟨by decide, ?_, ?_, ?_, ?_⟩
  · rw [size]
    decide
  · rw [size]
    exact ⟨12, rfl⟩
  · rw [size]
    exact superblock_sample
  · rw [recordBlock, containerAt, size, offset]
    exact record_sample

/-- A reader of the sample. -/
structure SampleReader where

instance : ReadAt SampleReader where
  Error := Empty
  readExactAt reader offset out := ((.ok (), slab (imageOf sampleWords) offset out.length), reader)
  length_readExactAt _ _ _ := length_slab ..

theorem honest_sample : Honest SampleReader (imageOf sampleWords) (1024 * 1024) :=
  fun _ _ _ _ => rfl

theorem extractJumpstart_iff_sample :
    ((extractJumpstart (1024 * 1024) ⟨16, 1⟩).on (⟨⟨⟩, []⟩ : Session SampleReader)).1 =
        .ok (driverOf (imageOf sampleWords)) ∧
      (driverOf (imageOf sampleWords)).bytes = [0x4d, 0x5a, 0x90, 0, 3] :=
  ⟨(extractJumpstart_iff honest_sample (by decide) ⟨⟩ _).mpr ⟨bootable_sample, rfl⟩,
    by decide +kernel⟩

end Nextcore.Jumpstart
