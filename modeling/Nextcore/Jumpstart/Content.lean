import Nextcore.Jumpstart.Reads

/-!
What an extraction from an unchanging partition returns.

A partition is a function from offsets to bytes. Where the calls of an extraction are answered
from one partition (`Consistent`), the driver is the front of what its extents hold
(`Extracted`).
-/

namespace Nextcore.Jumpstart

open Checked Checked.Outcome Checked.Exec

/-- The bytes of a partition from an offset on. -/
def slab (image : Nat → UInt8) (start size : Nat) : Bytes :=
  (List.range size).map fun i => image (start + i)

/-- Every call that succeeded was answered from the partition. -/
def Consistent (image : Nat → UInt8) (calls : List Call) : Prop :=
  ∀ call ∈ calls, call.success = true → call.bytes = slab image call.offset call.size

/-- The bytes of an extent. -/
def extentBytes (image : Nat → UInt8) (blockSize : Nat) (e : JumpstartExtent) : Bytes :=
  slab image (e.startBlock * blockSize) (e.blockCount * blockSize)

/-- The driver is the file that the jumpstart record declares. -/
structure Extracted (image : Nat → UInt8) (partitionLen : Nat) (limits : JumpstartLimits)
    (driver : JumpstartDriver) : Prop where
  block_size : driver.blockSize = wordAt 4 (slab image 0 40) 36
  block_count : driver.containerBlockCount = wordAt 8 (slab image 0 driver.blockSize) 40
  container : driver.containerBlockCount * driver.blockSize ≤ partitionLen
  record : driver.jumpstartBlock < driver.containerBlockCount
  length : driver.bytes.length =
    wordAt 4 (slab image (driver.jumpstartBlock * driver.blockSize) driver.blockSize) 40
  positive : 0 < driver.bytes.length
  limit : driver.bytes.length ≤ limits.maxDriverBytes
  listed : driver.extents =
    listedExtents (slab image (driver.jumpstartBlock * driver.blockSize) driver.blockSize)
  each : ∀ e ∈ driver.extents, e.Inside driver.containerBlockCount
  bytes : driver.bytes =
    (driver.extents.flatMap (extentBytes image driver.blockSize)).take driver.bytes.length

section Slabs

variable {image : Nat → UInt8} {blockSize : Nat}

@[simp] theorem length_slab (image : Nat → UInt8) (start size : Nat) :
    (slab image start size).length = size := by
  rw [slab, List.length_map, List.length_range]

theorem slab_add (start size size' : Nat) :
    slab image start (size + size') = slab image start size ++ slab image (start + size) size' := by
  rw [slab, List.range_add, List.map_append, List.map_map]
  congr 1
  refine List.map_congr_left fun i _ => ?_
  rw [Function.comp_apply, Nat.add_assoc]

/-- An extent has the bytes of its blocks. -/
theorem extentBytes_eq (e : JumpstartExtent) :
    extentBytes image blockSize e =
      e.blocks.flatMap fun block => slab image (block * blockSize) blockSize := by
  obtain ⟨start, count⟩ := e
  rw [extentBytes, JumpstartExtent.blocks]
  dsimp only
  induction count generalizing start with
  | zero =>
      rw [Nat.zero_mul]
      rfl
  | succ count ih =>
      rw [Nat.add_comm count, Nat.add_mul, Nat.one_mul, slab_add, Nat.add_comm 1,
        List.range'_succ, List.flatMap_cons, ← ih, Nat.add_mul, Nat.one_mul]

theorem flatMap_extentBytes (extents : List JumpstartExtent) :
    extents.flatMap (extentBytes image blockSize) =
      (blocksOf extents).flatMap fun block => slab image (block * blockSize) blockSize := by
  rw [blocksOf, List.flatMap_assoc]
  congr 1
  funext e
  exact extentBytes_eq e

/-- Calls that read blocks of the partition return the bytes of the blocks. -/
theorem joined_eq {c : Container} {blocks : List Nat} {data : List Call}
    (reads : List.Forall₂ (ReadsBlock c) blocks data) (consistent : Consistent image data) :
    joined data = blocks.flatMap fun block => slab image (block * c.blockSize) c.blockSize := by
  induction reads with
  | nil => rfl
  | cons first _ ih =>
      obtain ⟨now, later⟩ := List.forall_mem_cons.mp consistent
      rw [joined, List.flatMap_cons, List.flatMap_cons, now first.success, first.offset, first.size]
      exact congrArg _ (ih later)

end Slabs

theorem Returned.extracted {ε : Type} {partitionLen : Nat} {limits : JumpstartLimits}
    {calls data : List Call} {driver : JumpstartDriver} {first second third : Call} {c : Container}
    {record : JumpstartRecord}
    (returned : Returned ε partitionLen limits calls driver first second third data c record)
    {image : Nat → UInt8} (consistent : Consistent image calls) :
    Extracted image partitionLen limits driver := by
  have mounted := returned.mounted
  have container := mounted.container
  have record_ok := returned.opened.record
  have length := returned.length
  have calls_eq := returned.calls_eq
  have driver_eq := returned.driver_eq
  subst calls_eq driver_eq
  obtain ⟨header, consistent_data⟩ := List.forall_mem_append.mp consistent
  have front : first.bytes = slab image 0 40 := by
    have from_image := header first List.mem_cons_self
    rw [mounted.first_eq] at from_image
    exact from_image rfl
  have block : second.bytes = slab image 0 c.blockSize := by
    have from_image := header second (List.mem_cons_of_mem _ List.mem_cons_self)
    rw [mounted.second_eq] at from_image
    exact from_image rfl
  have record_block : third.bytes = slab image (c.jumpstartBlock * c.blockSize) c.blockSize := by
    have from_image := header third (List.mem_cons_of_mem _ (List.mem_cons_of_mem _
      List.mem_cons_self))
    rw [returned.opened.third_eq] at from_image
    exact from_image rfl
  have copied := joined_eq returned.reads consistent_data
  have enough : record.fileLen ≤ (joined data).length := by
    rw [List.length_take] at length
    omega
  have contents : (joined data).take record.fileLen =
      (record.extents.flatMap (extentBytes image c.blockSize)).take record.fileLen := by
    rw [flatMap_extentBytes]
    -- The blocks that were not read are behind the end of the file.
    conv_rhs => rw [← List.take_append_drop (divCeil record.fileLen c.blockSize)
      (blocksOf record.extents)]
    rw [List.flatMap_append, ← copied, List.take_append_of_le_length enough]
  exact
    { block_size := front ▸ mounted.block_size
      block_count := block ▸ container.block_count
      container := container.size ▸ container.inside
      record := container.jumpstart
      length := by
        rw [length, ← record_block]
        exact record_ok.length
      positive := by
        rw [length]
        exact record_ok.positive
      limit := by
        rw [length]
        exact record_ok.limit
      listed := record_block ▸ record_ok.listed
      each := record_ok.each
      bytes := by
        rw [length]
        exact contents }

/-- For any reader, the copy loop fills the buffer of the file, so that nothing panics. Where the
calls are answered from one partition, a driver that is returned is the declared file. -/
theorem extractJumpstart_exact {R : Type} [ReadAt R] (reader : R) (partitionLen : Nat)
    (limits : JumpstartLimits) :
    ((extractJumpstart partitionLen limits).on ⟨reader, []⟩).1 ≠ .panic ∧
      ∀ driver image, ((extractJumpstart partitionLen limits).on ⟨reader, []⟩).1 = .ok driver →
        Consistent image ((extractJumpstart partitionLen limits).on ⟨reader, []⟩).2.calls →
          Extracted image partitionLen limits driver := by
  have runs := runs_extractJumpstart reader partitionLen limits
  refine ⟨runs.ne_panic, fun driver image done consistent => ?_⟩
  obtain ⟨_, _, _, _, _, _, returned⟩ := runs.of_ok done
  exact returned.extracted consistent

end Nextcore.Jumpstart
