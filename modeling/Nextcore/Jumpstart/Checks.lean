import Nextcore.Jumpstart.Extract

/-!
What the checks between the reads decide.

None of them panics on the buffers it is given. An accepted superblock is a `ContainerOk`, and an
accepted jumpstart record a `RecordOk`: all extents that it lists are inside the container, none
of them is empty, and together they have room for the file.
-/

namespace Nextcore.Jumpstart

open Checked Checked.Outcome

/-! ### Words -/

section Words

variable {ε : Type} {bytes : Bytes} {width offset n : Nat}

theorem le_eq_ok : (le width bytes offset : Outcome ε Nat) = .ok n ↔
    (offset + width < 2 ^ 64 ∧ offset + width ≤ bytes.length) ∧ n = wordAt width bytes offset := by
  simp only [le, bind_eq_ok, add_eq_ok, index_eq_ok, pure_eq, ok.injEq]
  constructor
  · rintro ⟨_, ⟨word, rfl⟩, _, ⟨⟨_, inside⟩, rfl⟩, rfl⟩
    refine ⟨⟨word, inside⟩, ?_⟩
    rw [wordAt, Nat.add_sub_cancel_left]
  · rintro ⟨⟨word, inside⟩, rfl⟩
    refine ⟨_, ⟨word, rfl⟩, _, ⟨⟨Nat.le_add_right _ _, inside⟩, rfl⟩, ?_⟩
    rw [wordAt, Nat.add_sub_cancel_left]

theorem le_ne_panic (word : offset + width < 2 ^ 64) (inside : offset + width ≤ bytes.length) :
    (le width bytes offset : Outcome ε Nat) ≠ .panic := by
  rw [le_eq_ok.mpr ⟨⟨word, inside⟩, rfl⟩]
  exact ok_ne_panic _

theorem le32_eq (read : (le32 bytes offset : Outcome ε Nat) = .ok n) :
    n = wordAt 4 bytes offset := (le_eq_ok.mp read).2

theorem le64_eq (read : (le64 bytes offset : Outcome ε Nat) = .ok n) :
    n = wordAt 8 bytes offset := (le_eq_ok.mp read).2

end Words

/-! ### Check words -/

section Checksum

variable {ε : Type}

/-- The sums of the check words are reduced after each word. -/
structure Reduced (sums : Nat × Nat) : Prop where
  sum : sums.1 < modulus
  prefixes : sums.2 < modulus

theorem fletcherStep_calm {sums : Nat × Nat} {word : Bytes} (reduced : Reduced sums)
    (short : word.length = 4) :
    (fletcherStep sums word : Outcome ε (Nat × Nat)) ≠ .panic ∧
      ∀ sums', (fletcherStep sums word : Outcome ε (Nat × Nat)) = .ok sums' → Reduced sums' := by
  obtain ⟨first, second⟩ := reduced
  have value := fromLeBytes_lt word
  have positive : 0 < modulus := by decide
  have small : modulus < 2 ^ 32 := by decide
  rw [short] at value
  constructor
  · refine bind_ne_panic (add_ne_panic_iff.mpr (by omega)) fun sum _ => ?_
    have below := Nat.mod_lt sum positive
    exact bind_ne_panic (add_ne_panic_iff.mpr (by omega)) fun prefixes _ => ok_ne_panic _
  · intro sums' done
    obtain ⟨sum, _, done⟩ := bind_eq_ok.mp done
    obtain ⟨prefixes, _, done⟩ := bind_eq_ok.mp done
    cases done
    exact ⟨Nat.mod_lt _ positive, Nat.mod_lt _ positive⟩

/-- No operation on the sums leaves the word. -/
theorem fletcher64Checksum_ne_panic {object : Bytes} :
    (fletcher64Checksum object : Outcome ε (Option Nat)) ≠ .panic := by
  rw [fletcher64Checksum]
  split
  · exact ok_ne_panic _
  · next long =>
      have positive : 0 < modulus := by decide
      have small : modulus < 2 ^ 32 := by decide
      refine bind_ne_panic (index_ne_panic_iff.mpr ⟨by omega, Nat.le_refl _⟩) fun payload _ => ?_
      have start : Reduced (0, 0) := ⟨positive, positive⟩
      obtain ⟨calm, kept⟩ := foldlM_calm start fun sums reduced word mem =>
        fletcherStep_calm (ε := ε) reduced (length_of_mem_chunksExact mem)
      refine bind_ne_panic calm fun sums summed => ?_
      obtain ⟨first, second⟩ := kept sums summed
      refine bind_ne_panic (add_ne_panic_iff.mpr (by omega)) fun both _ => ?_
      have reduced := Nat.mod_lt both positive
      refine bind_ne_panic (sub_ne_panic_iff.mpr (by omega)) fun low lowered => ?_
      obtain ⟨_, rfl⟩ := sub_eq_ok.mp lowered
      refine bind_ne_panic (add_ne_panic_iff.mpr (by omega)) fun rest _ => ?_
      have reduced' := Nat.mod_lt rest positive
      refine bind_ne_panic (sub_ne_panic_iff.mpr (by omega)) fun high _ => ?_
      exact bind_ne_panic (shl_ne_panic_iff.mpr (by decide)) fun _ _ => ok_ne_panic _

/-- The stored check words of an object are those of its contents. -/
def ChecksumPasses (ε : Type) (block : Bytes) : Prop :=
  (fletcher64Checksum block : Outcome ε (Option Nat)) = .ok (some (wordAt 8 block 0))

variable {block : Bytes} {magic objectType : Nat} {jumpstart : Bool} {physicalOid : Option Nat}

theorem checkObject_ne_panic (long : 36 ≤ block.length) :
    (checkObject block magic objectType jumpstart physicalOid : Result ε Unit) ≠ .panic := by
  rw [checkObject]
  refine bind_ne_panic fletcher64Checksum_ne_panic fun checksum _ => ?_
  refine bind_ne_panic (le_ne_panic (by decide) (by omega)) fun stored _ => ?_
  refine bind_ne_panic rejectIf_ne_panic fun _ _ => ?_
  refine bind_ne_panic (le_ne_panic (by decide) (by omega)) fun found _ => ?_
  refine bind_ne_panic rejectIf_ne_panic fun _ _ => ?_
  refine bind_ne_panic (le_ne_panic (by decide) (by omega)) fun kind _ => ?_
  refine bind_ne_panic (le_ne_panic (by decide) (by omega)) fun subtype _ => ?_
  refine bind_ne_panic (le_ne_panic (by decide) (by omega)) fun xid _ => ?_
  exact bind_ne_panic (le_ne_panic (by decide) (by omega)) fun oid _ => rejectIf_ne_panic

theorem checkObject_eq_ok
    (done : (checkObject block magic objectType jumpstart physicalOid : Result ε Unit) = .ok ()) :
    ChecksumPasses (JumpstartError ε) block := by
  rw [checkObject] at done
  obtain ⟨checksum, computed, done⟩ := bind_eq_ok.mp done
  obtain ⟨stored, read, done⟩ := bind_eq_ok.mp done
  obtain ⟨_, same, _⟩ := bind_eq_ok.mp done
  rw [rejectIf_eq_ok, not_not] at same
  rw [ChecksumPasses, computed, same, le64_eq read]

end Checksum

/-! ### The superblock -/

section Container

variable {ε : Type}

theorem positivePaddr_ne_panic {raw : Nat} : (positivePaddr raw : Result ε Nat) ≠ .panic :=
  bind_ne_panic rejectIf_ne_panic fun _ _ => ok_ne_panic _

theorem positivePaddr_eq_ok {raw n : Nat} (done : (positivePaddr raw : Result ε Nat) = .ok n) :
    n = raw := by
  obtain ⟨_, _, done⟩ := bind_eq_ok.mp done
  cases done
  rfl

theorem blockRange_ne_panic {start count blockCount blockSize : Nat} :
    (blockRange start count blockCount blockSize : Result ε Nat) ≠ .panic := by
  refine bind_ne_panic ofOption_ne_panic fun stop _ => ?_
  exact bind_ne_panic rejectIf_ne_panic fun _ _ => ofOption_ne_panic

theorem blockRange_eq_ok {start count blockCount blockSize offset : Nat}
    (done : (blockRange start count blockCount blockSize : Result ε Nat) = .ok offset) :
    start + count ≤ blockCount ∧ offset = start * blockSize := by
  rw [blockRange] at done
  obtain ⟨stop, added, done⟩ := bind_eq_ok.mp done
  rw [ofOption_eq_ok, checkedAdd_eq_some] at added
  obtain ⟨_, rfl⟩ := added
  obtain ⟨_, inside, done⟩ := bind_eq_ok.mp done
  rw [ofOption_eq_ok, checkedMul_eq_some] at done
  exact ⟨Nat.not_lt.mp (rejectIf_eq_ok.mp inside), done.2.symm⟩

theorem selectBlockSize_ne_panic {front : Bytes} (long : 40 ≤ front.length) :
    (selectBlockSize front : Result ε Nat) ≠ .panic := by
  refine bind_ne_panic (le_ne_panic (by decide) (by omega)) fun blockSize _ => ?_
  exact bind_ne_panic rejectIf_ne_panic fun _ _ => ok_ne_panic _

theorem selectBlockSize_eq_ok {front : Bytes} {blockSize : Nat}
    (done : (selectBlockSize front : Result ε Nat) = .ok blockSize) :
    blockSize = wordAt 4 front 36 ∧ 4096 ≤ blockSize ∧ blockSize ≤ 65536 := by
  rw [selectBlockSize] at done
  obtain ⟨size, read, done⟩ := bind_eq_ok.mp done
  obtain ⟨_, valid, done⟩ := bind_eq_ok.mp done
  cases done
  rw [rejectIf_eq_ok, not_or, not_not] at valid
  exact ⟨le32_eq read, valid.1⟩

/-- An accepted superblock. -/
structure ContainerOk (ε : Type) (partitionLen blockSize : Nat) (block : Bytes) (c : Container) :
    Prop where
  checksum : ChecksumPasses (JumpstartError ε) block
  block_size : c.blockSize = blockSize
  block_count : c.blockCount = wordAt 8 block 40
  size : c.containerBytes = c.blockCount * c.blockSize
  word : c.containerBytes < 2 ^ 64
  inside : c.containerBytes ≤ partitionLen
  jumpstart : c.jumpstartBlock + 1 ≤ c.blockCount
  offset : c.jumpstartOffset = c.jumpstartBlock * c.blockSize
  block : c.jumpstartBlock = wordAt 8 block 1272

variable {partitionLen blockSize : Nat} {front block : Bytes}

theorem checkContainer_ne_panic (short : front.length = 40) (long : 4096 ≤ block.length) :
    (checkContainer partitionLen blockSize front block : Result ε Container) ≠ .panic := by
  rw [checkContainer]
  refine bind_ne_panic (index_ne_panic_iff.mpr (by omega)) fun again _ => ?_
  refine bind_ne_panic rejectIf_ne_panic fun _ _ => ?_
  refine bind_ne_panic (checkObject_ne_panic (by omega)) fun _ _ => ?_
  refine bind_ne_panic (le_ne_panic (by decide) (by omega)) fun blockCount _ => ?_
  refine bind_ne_panic ofOption_ne_panic fun containerBytes _ => ?_
  refine bind_ne_panic rejectIf_ne_panic fun _ _ => ?_
  refine bind_ne_panic rejectIf_ne_panic fun _ _ => ?_
  refine bind_ne_panic (le_ne_panic (by decide) (by omega)) fun incompatible _ => ?_
  refine bind_ne_panic rejectIf_ne_panic fun _ _ => ?_
  refine bind_ne_panic (le_ne_panic (by decide) (by omega)) fun features _ => ?_
  refine bind_ne_panic rejectIf_ne_panic fun _ _ => ?_
  refine bind_ne_panic (index_ne_panic_iff.mpr (by rw [nxFusionUuid]; omega)) fun uuid _ => ?_
  refine bind_ne_panic rejectIf_ne_panic fun _ _ => ?_
  refine bind_ne_panic (index_ne_panic_iff.mpr (by omega)) fun fusion _ => ?_
  refine bind_ne_panic rejectIf_ne_panic fun _ _ => ?_
  refine bind_ne_panic rejectIf_ne_panic fun _ _ => ?_
  refine bind_ne_panic (index_ne_panic_iff.mpr (by omega)) fun uuid _ => ?_
  refine bind_ne_panic (le_ne_panic (by decide) (by rw [nxJumpstart]; omega)) fun raw _ => ?_
  refine bind_ne_panic positivePaddr_ne_panic fun jumpstartBlock _ => ?_
  refine bind_ne_panic rejectIf_ne_panic fun _ _ => ?_
  exact bind_ne_panic blockRange_ne_panic fun _ _ => ok_ne_panic _

theorem checkContainer_eq_ok {c : Container}
    (done : (checkContainer partitionLen blockSize front block : Result ε Container) = .ok c) :
    ContainerOk ε partitionLen blockSize block c := by
  rw [checkContainer] at done
  iterate 2 obtain ⟨_, _, done⟩ := bind_eq_ok.mp done
  obtain ⟨_, checked, done⟩ := bind_eq_ok.mp done
  obtain ⟨blockCount, counted, done⟩ := bind_eq_ok.mp done
  obtain ⟨_, product, done⟩ := bind_eq_ok.mp done
  rw [ofOption_eq_ok, checkedMul_eq_some] at product
  obtain ⟨word, rfl⟩ := product
  obtain ⟨_, _, done⟩ := bind_eq_ok.mp done
  obtain ⟨_, inside, done⟩ := bind_eq_ok.mp done
  -- The features, and the fields of a fusion drive.
  iterate 10 obtain ⟨_, _, done⟩ := bind_eq_ok.mp done
  obtain ⟨raw, read, done⟩ := bind_eq_ok.mp done
  obtain ⟨jumpstartBlock, positive, done⟩ := bind_eq_ok.mp done
  obtain ⟨_, _, done⟩ := bind_eq_ok.mp done
  obtain ⟨offset, ranged, done⟩ := bind_eq_ok.mp done
  cases done
  obtain ⟨jumpstart, offset_eq⟩ := blockRange_eq_ok ranged
  exact
    { checksum := checkObject_eq_ok checked
      block_size := rfl
      block_count := le64_eq counted
      size := rfl
      word
      inside := Nat.not_lt.mp (rejectIf_eq_ok.mp inside)
      jumpstart
      offset := offset_eq
      block := (positivePaddr_eq_ok positive).trans (le64_eq read) }

end Container

/-! ### The jumpstart record -/

/-- The extent of an entry of the extent table. -/
def extentOf (entry : Bytes) : JumpstartExtent := ⟨wordAt 8 entry 0, wordAt 8 entry 8⟩

/-- The extents that a jumpstart record lists. -/
def listedExtents (block : Bytes) : List JumpstartExtent :=
  (List.range (wordAt 4 block 44)).map fun i =>
    ⟨wordAt 8 block (176 + 16 * i), wordAt 8 block (176 + 16 * i + 8)⟩

/-- The number of blocks of the extents together. -/
def blocksIn (extents : List JumpstartExtent) : Nat := (extents.map (·.blockCount)).sum

/-- An extent is not empty, and inside a container of so many blocks. -/
def JumpstartExtent.Inside (blockCount : Nat) (e : JumpstartExtent) : Prop :=
  0 < e.blockCount ∧ e.startBlock + e.blockCount ≤ blockCount

section Record

variable {ε : Type} {c : Container}

theorem parseExtent_ne_panic {listed : List JumpstartExtent × Nat} {entry : Bytes}
    (whole : entry.length = 16) :
    (parseExtent c listed entry : Result ε (List JumpstartExtent × Nat)) ≠ .panic := by
  rw [parseExtent]
  refine bind_ne_panic (le_ne_panic (by decide) (by omega)) fun raw _ => ?_
  refine bind_ne_panic positivePaddr_ne_panic fun startBlock _ => ?_
  refine bind_ne_panic (le_ne_panic (by decide) (by omega)) fun count _ => ?_
  refine bind_ne_panic rejectIf_ne_panic fun _ _ => ?_
  refine bind_ne_panic blockRange_ne_panic fun _ _ => ?_
  refine bind_ne_panic ofOption_ne_panic fun size _ => ?_
  exact bind_ne_panic ofOption_ne_panic fun capacity _ => ok_ne_panic _

theorem parseExtent_eq_ok {listed listed' : List JumpstartExtent × Nat} {entry : Bytes}
    (done : (parseExtent c listed entry : Result ε (List JumpstartExtent × Nat)) = .ok listed') :
    listed'.1 = listed.1 ++ [extentOf entry] ∧ (extentOf entry).Inside c.blockCount ∧
      listed'.2 = listed.2 + (extentOf entry).blockCount * c.blockSize := by
  rw [parseExtent] at done
  obtain ⟨raw, at_start, done⟩ := bind_eq_ok.mp done
  obtain ⟨startBlock, positive, done⟩ := bind_eq_ok.mp done
  obtain ⟨count, at_count, done⟩ := bind_eq_ok.mp done
  obtain ⟨_, nonempty, done⟩ := bind_eq_ok.mp done
  obtain ⟨_, ranged, done⟩ := bind_eq_ok.mp done
  obtain ⟨_, product, done⟩ := bind_eq_ok.mp done
  rw [ofOption_eq_ok, checkedMul_eq_some] at product
  obtain ⟨_, rfl⟩ := product
  obtain ⟨_, added, done⟩ := bind_eq_ok.mp done
  rw [ofOption_eq_ok, checkedAdd_eq_some] at added
  obtain ⟨_, rfl⟩ := added
  cases done
  obtain rfl := positivePaddr_eq_ok positive
  obtain rfl := le64_eq at_start
  obtain rfl := le64_eq at_count
  exact ⟨rfl, ⟨Nat.pos_of_ne_zero (rejectIf_eq_ok.mp nonempty), (blockRange_eq_ok ranged).1⟩, rfl⟩

/-- The loop over the extent table lists what its entries say, and adds up their blocks. -/
theorem parseExtents_eq_ok {entries : List Bytes} {listed listed' : List JumpstartExtent × Nat}
    (done : (entries.foldlM (parseExtent c) listed : Result ε (List JumpstartExtent × Nat)) =
      .ok listed') :
    listed'.1 = listed.1 ++ entries.map extentOf ∧
      (∀ e ∈ entries.map extentOf, e.Inside c.blockCount) ∧
        listed'.2 = listed.2 + blocksIn (entries.map extentOf) * c.blockSize := by
  induction entries generalizing listed with
  | nil =>
      cases done
      exact ⟨(List.append_nil _).symm, fun e mem => absurd mem List.not_mem_nil, by simp [blocksIn]⟩
  | cons entry rest ih =>
      rw [List.foldlM_cons] at done
      obtain ⟨next, first, others⟩ := bind_eq_ok.mp done
      obtain ⟨appended, inside, summed⟩ := parseExtent_eq_ok first
      obtain ⟨appended', inside', summed'⟩ := ih others
      refine ⟨?_, List.forall_mem_cons.mpr ⟨inside, inside'⟩, ?_⟩
      · rw [appended', appended, List.append_assoc]
        rfl
      · rw [summed', summed, List.map_cons, blocksIn, blocksIn, List.map_cons, List.sum_cons,
          Nat.add_mul, Nat.add_assoc]

/-- The entries of the extent table, where they are in the block. -/
theorem map_extentOf_table {block : Bytes} {count : Nat} (fits : 176 + count * 16 ≤ block.length) :
    (chunksExact (window block 176 (count * 16)) 16).map extentOf =
      (List.range count).map fun i =>
        ⟨wordAt 8 block (176 + 16 * i), wordAt 8 block (176 + 16 * i + 8)⟩ := by
  rw [chunksExact, length_window fits, Nat.mul_div_cancel _ (by decide), List.map_map]
  refine List.map_congr_left fun i mem => ?_
  have below := List.mem_range.mp mem
  have entry : ∀ offset, offset + 8 ≤ 16 →
      wordAt 8 (window (window block 176 (count * 16)) (i * 16) 16) offset =
        wordAt 8 block (176 + 16 * i + offset) := by
    intro offset inside
    rw [wordAt_window inside, wordAt_window (by omega), Nat.mul_comm i, Nat.add_assoc]
  rw [Function.comp_apply, extentOf, entry 0 (by decide), entry 8 (by decide)]
  rfl

/-- An accepted jumpstart record. -/
structure RecordOk (ε : Type) (limits : JumpstartLimits) (c : Container) (block : Bytes)
    (record : JumpstartRecord) : Prop where
  checksum : ChecksumPasses (JumpstartError ε) block
  length : record.fileLen = wordAt 4 block 40
  positive : 0 < record.fileLen
  limit : record.fileLen ≤ limits.maxDriverBytes
  small : record.fileLen < 2 ^ 32
  table : 176 + 16 * wordAt 4 block 44 ≤ block.length
  listed : record.extents = listedExtents block
  each : ∀ e ∈ record.extents, e.Inside c.blockCount
  capacity : record.fileLen ≤ blocksIn record.extents * c.blockSize

variable {limits : JumpstartLimits} {block : Bytes}

theorem checkRecord_ne_panic (long : 4096 ≤ block.length) :
    (checkRecord limits c block : Result ε JumpstartRecord) ≠ .panic := by
  rw [checkRecord]
  refine bind_ne_panic (checkObject_ne_panic (by omega)) fun _ _ => ?_
  refine bind_ne_panic (le_ne_panic (by decide) (by omega)) fun version _ => ?_
  refine bind_ne_panic rejectIf_ne_panic fun _ _ => ?_
  refine bind_ne_panic (le_ne_panic (by decide) (by omega)) fun fileLen _ => ?_
  refine bind_ne_panic rejectIf_ne_panic fun _ _ => ?_
  refine bind_ne_panic rejectIf_ne_panic fun _ _ => ?_
  refine bind_ne_panic (le_ne_panic (by decide) (by omega)) fun count _ => ?_
  refine bind_ne_panic rejectIf_ne_panic fun _ _ => ?_
  refine bind_ne_panic rejectIf_ne_panic fun _ _ => ?_
  refine bind_ne_panic ofOption_ne_panic fun tableEnd ended => ?_
  rw [ofOption_eq_ok, Option.bind_eq_some_iff] at ended
  obtain ⟨_, _, ended⟩ := ended
  obtain ⟨_, rfl⟩ := checkedAdd_eq_some.mp ended
  refine bind_ne_panic rejectIf_ne_panic fun _ fits => ?_
  rw [rejectIf_eq_ok, Nat.not_lt] at fits
  refine bind_ne_panic (index_ne_panic_iff.mpr ⟨Nat.le_add_right _ _, fits⟩) fun table _ => ?_
  have calm : (chunksExact table extentSize).foldlM (parseExtent c) ([], 0) ≠
      (.panic : Result ε (List JumpstartExtent × Nat)) :=
    foldlM_ne_panic fun listed entry mem => parseExtent_ne_panic (length_of_mem_chunksExact mem)
  refine bind_ne_panic calm fun listed _ => ?_
  exact bind_ne_panic rejectIf_ne_panic fun _ _ => ok_ne_panic _

theorem checkRecord_eq_ok {record : JumpstartRecord}
    (done : (checkRecord limits c block : Result ε JumpstartRecord) = .ok record) :
    RecordOk ε limits c block record := by
  rw [checkRecord] at done
  obtain ⟨_, checked, done⟩ := bind_eq_ok.mp done
  iterate 2 obtain ⟨_, _, done⟩ := bind_eq_ok.mp done
  obtain ⟨fileLen, at_length, done⟩ := bind_eq_ok.mp done
  have small : fileLen < 2 ^ 32 := by
    obtain ⟨⟨_, inside⟩, rfl⟩ := le_eq_ok.mp at_length
    exact wordAt_lt inside
  obtain ⟨_, positive, done⟩ := bind_eq_ok.mp done
  obtain ⟨_, limit, done⟩ := bind_eq_ok.mp done
  obtain ⟨count, at_count, done⟩ := bind_eq_ok.mp done
  obtain rfl := le32_eq at_count
  iterate 2 obtain ⟨_, _, done⟩ := bind_eq_ok.mp done
  obtain ⟨tableEnd, ended, done⟩ := bind_eq_ok.mp done
  rw [ofOption_eq_ok, Option.bind_eq_some_iff] at ended
  obtain ⟨_, product, ended⟩ := ended
  obtain ⟨_, rfl⟩ := checkedMul_eq_some.mp product
  obtain ⟨_, rfl⟩ := checkedAdd_eq_some.mp ended
  obtain ⟨_, fits, done⟩ := bind_eq_ok.mp done
  rw [rejectIf_eq_ok, Nat.not_lt] at fits
  obtain ⟨table, sliced, done⟩ := bind_eq_ok.mp done
  obtain ⟨_, rfl⟩ := index_eq_ok.mp sliced
  obtain ⟨listed, parsed, done⟩ := bind_eq_ok.mp done
  obtain ⟨_, room, done⟩ := bind_eq_ok.mp done
  cases done
  rw [Nat.add_sub_cancel_left] at parsed
  obtain ⟨appended, inside, summed⟩ := parseExtents_eq_ok parsed
  have entries := map_extentOf_table fits
  rw [List.nil_append] at appended
  rw [Nat.zero_add] at summed
  exact
    { checksum := checkObject_eq_ok checked
      length := le32_eq at_length
      positive := Nat.pos_of_ne_zero (rejectIf_eq_ok.mp positive)
      limit := Nat.not_lt.mp (rejectIf_eq_ok.mp limit)
      small
      table := by
        rw [Nat.mul_comm]
        exact fits
      listed := appended.trans entries
      each := appended ▸ inside
      capacity := by
        dsimp only
        rw [appended, ← summed]
        exact Nat.not_lt.mp (rejectIf_eq_ok.mp room) }

end Record

end Nextcore.Jumpstart
