import Nextcore.Jumpstart.Checks
import Nextcore.Lib.Trace

/-!
The calls that an extraction makes, whatever the reader answers.

Three calls read the prefix, the superblock and the jumpstart record; all others read the blocks
that the extents list, in their order and no more than the file needs (`Copied`). Each loop has
one lemma about how it ends (`runs_copyBlocks`, `runs_copyExtents`), in a value or in an error,
and `runs_extractJumpstart` puts them together.
-/

namespace Nextcore.Jumpstart

open Checked Checked.Outcome Checked.Exec

section Reads

variable {R : Type} [ReadAt R] {s : Session R}

/-! ### One call -/

theorem runs_readExactAt (offset : Nat) (out : Bytes) :
    Runs (readExactAt offset out) s
      (fun bytes t => bytes.length = out.length ∧
        t.calls = s.calls ++ [⟨offset, out.length, true, bytes⟩])
      (fun t => ∃ bytes, t.calls = s.calls ++ [⟨offset, out.length, false, bytes⟩]) := by
  have sized := ReadAt.length_readExactAt s.reader offset out
  rw [Runs, on, readExactAt]
  generalize ReadAt.readExactAt s.reader offset out = answer at sized
  obtain ⟨⟨e | u, bytes⟩, reader⟩ := answer
  · exact ⟨bytes, rfl⟩
  · exact ⟨sized, rfl⟩

/-- A call that stays inside a limit. -/
structure Call.Below (limit : Nat) (call : Call) : Prop where
  word : call.offset + call.size < 2 ^ 64
  inside : call.offset + call.size ≤ limit

/-- The read makes a call inside the limit, or none. -/
theorem runs_readBounded (limit offset : Nat) (out : Bytes) :
    Runs (readBounded limit offset out) s
      (fun bytes t => bytes.length = out.length ∧
        Call.Below limit ⟨offset, out.length, true, bytes⟩ ∧
          t.calls = s.calls ++ [⟨offset, out.length, true, bytes⟩])
      (fun t => t.calls = s.calls ∨ ∃ bytes,
        Call.Below limit ⟨offset, out.length, false, bytes⟩ ∧
          t.calls = s.calls ++ [⟨offset, out.length, false, bytes⟩]) := by
  refine Runs.lift_bind ofOption_ne_panic (.inl rfl) fun stop added => ?_
  rw [ofOption_eq_ok, checkedAdd_eq_some] at added
  obtain ⟨word, rfl⟩ := added
  refine Runs.lift_bind rejectIf_ne_panic (.inl rfl) fun _ inside => ?_
  rw [rejectIf_eq_ok, Nat.not_lt] at inside
  refine (runs_readExactAt offset out).imp ?_ ?_
  · rintro bytes t ⟨sized, logged⟩
    exact ⟨sized, ⟨word, inside⟩, logged⟩
  · rintro t ⟨bytes, logged⟩
    exact .inr ⟨bytes, ⟨word, inside⟩, logged⟩

end Reads

/-! ### The copy loop -/

/-- The blocks of an extent. -/
def JumpstartExtent.blocks (e : JumpstartExtent) : List Nat := List.range' e.startBlock e.blockCount

/-- The blocks of the extents, in listed order. -/
def blocksOf (extents : List JumpstartExtent) : List Nat := extents.flatMap JumpstartExtent.blocks

theorem length_blocksOf (extents : List JumpstartExtent) :
    (blocksOf extents).length = blocksIn extents := by
  rw [blocksOf, blocksIn, List.length_flatMap]
  simp only [JumpstartExtent.blocks, List.length_range']

/-- A call that reads one block of the container. -/
structure ReadsBlock (c : Container) (block : Nat) (call : Call) : Prop where
  inside : block + 1 ≤ c.blockCount
  offset : call.offset = block * c.blockSize
  size : call.size = c.blockSize
  length : call.bytes.length = c.blockSize
  success : call.success = true

/-- The bytes that the calls returned, one after the other. -/
def joined (calls : List Call) : Bytes := calls.flatMap (·.bytes)

theorem length_joined {c : Container} {blocks : List Nat} {data : List Call}
    (reads : List.Forall₂ (ReadsBlock c) blocks data) :
    (joined data).length = blocks.length * c.blockSize := by
  induction reads with
  | nil => exact (Nat.zero_mul _).symm
  | cons first _ ih =>
      rw [joined, List.flatMap_cons, List.length_append, first.length, List.length_cons,
        Nat.add_mul, Nat.one_mul, Nat.add_comm]
      exact congrArg (· + _) ih

/-- The blocks `done` have been copied. -/
structure Copied {R : Type} (c : Container) (fileLen : Nat) (header : List Call)
    (done : List Nat) (copy : Copy) (s : Session R) : Prop where
  room : copy.bytes.length = fileLen
  block : copy.block.length = c.blockSize
  written : copy.written = min fileLen (done.length * c.blockSize)
  short : done.length ≤ divCeil fileLen c.blockSize
  reads : ∃ data, s.calls = header ++ data ∧ List.Forall₂ (ReadsBlock c) done data ∧
    copy.bytes.take copy.written = (joined data).take fileLen

/-- The calls behind the header: as many as the file has blocks, each for one block. -/
structure FewReads {R : Type} (c : Container) (fileLen : Nat) (header : List Call)
    (s : Session R) : Prop where
  reads : ∃ data, s.calls = header ++ data ∧ data.length ≤ divCeil fileLen c.blockSize ∧
    ∀ call ∈ data, call.Below c.containerBytes ∧ call.size = c.blockSize

section Copying

variable {R : Type} [ReadAt R] {s : Session R} {c : Container} {fileLen : Nat}
  {header : List Call} {done : List Nat} {copy : Copy} {extent : JumpstartExtent}

/-- A container, as far as the copy loop relies on it. -/
structure Sized (c : Container) : Prop where
  size : c.containerBytes = c.blockCount * c.blockSize
  word : c.containerBytes < 2 ^ 64
  positive : 0 < c.blockSize

theorem ReadsBlock.below {block : Nat} {call : Call} (sized : Sized c)
    (reads : ReadsBlock c block call) : call.Below c.containerBytes := by
  have stop : call.offset + call.size ≤ c.containerBytes := by
    rw [reads.offset, reads.size, sized.size, ← Nat.succ_mul]
    exact Nat.mul_le_mul_right _ reads.inside
  exact ⟨Nat.lt_of_le_of_lt stop sized.word, stop⟩

theorem below_of_reads (sized : Sized c) {data : List Call}
    (reads : List.Forall₂ (ReadsBlock c) done data) :
    ∀ call ∈ data, call.Below c.containerBytes ∧ call.size = c.blockSize := by
  intro call mem
  obtain ⟨block, _, known⟩ := exists_of_mem_forall₂ reads mem
  exact ⟨known.below sized, known.size⟩

omit [ReadAt R] in
theorem Copied.fewReads (sized : Sized c) (copied : Copied c fileLen header done copy s) :
    FewReads c fileLen header s := by
  obtain ⟨data, calls, reads, _⟩ := copied.reads
  exact ⟨data, calls, reads.length_eq ▸ copied.short, below_of_reads sized reads⟩

omit [ReadAt R] in
/-- A read that fails is still a call for one block. -/
theorem Copied.failed (sized : Sized c) (copied : Copied c fileLen header done copy s)
    (needed : done.length < divCeil fileLen c.blockSize) {call : Call} {t : Session R}
    (below : call.Below c.containerBytes) (size : call.size = c.blockSize)
    (logged : t.calls = s.calls ++ [call]) : FewReads c fileLen header t := by
  obtain ⟨data, calls, reads, _⟩ := copied.reads
  refine ⟨data ++ [call], by rw [logged, calls, List.append_assoc], ?_, ?_⟩
  · rw [List.length_append, ← reads.length_eq]
    exact needed
  · refine List.forall_mem_append.mpr ⟨below_of_reads sized reads, ?_⟩
    exact List.forall_mem_singleton.mpr ⟨below, size⟩

/-- What the front of the file is when one block more has been written behind it. -/
theorem take_overlay_joined {bytes block front : Bytes} {written : Nat}
    (room : bytes.length = fileLen) (inside : written < fileLen) (length : front.length = written)
    (taken : bytes.take written = front.take fileLen) :
    (overlay bytes written (window block 0 (min (fileLen - written) block.length))).take
        (written + min (fileLen - written) block.length) =
      (front ++ block).take fileLen := by
  have part : (window block 0 (min (fileLen - written) block.length)).length =
      min (fileLen - written) block.length := length_window (by omega)
  have front_whole : front.take fileLen = front := List.take_of_length_le (by omega)
  have behind : window block 0 (min (fileLen - written) block.length) =
      block.take (fileLen - written) := by
    rw [window, List.drop_zero, ← List.take_eq_take_min]
  rw [overlay_eq_append (by omega), taken, front_whole, ← List.append_assoc, behind]
  rw [behind] at part
  rw [List.take_left' (by rw [List.length_append]; omega), List.take_append, front_whole, length]

/-- One block more: the call reads it, and the file grows by as much of it as it needs. -/
theorem runs_copyBlock {index' : Nat} (sized : Sized c) (small : fileLen < 2 ^ 64)
    (copied : Copied c fileLen header done copy s)
    (needed : done.length < divCeil fileLen c.blockSize) :
    Runs (copyBlock c fileLen extent index' copy) s
      (fun copy' t => Copied c fileLen header (done ++ [extent.startBlock + index']) copy' t)
      (FewReads c fileLen header) := by
  have stopped := copied.fewReads sized
  rw [copyBlock]
  refine Runs.lift_bind ofOption_ne_panic stopped fun address added => ?_
  rw [ofOption_eq_ok, checkedAdd_eq_some] at added
  obtain ⟨_, rfl⟩ := added
  refine Runs.lift_bind blockRange_ne_panic stopped fun offset ranged => ?_
  obtain ⟨inside, rfl⟩ := blockRange_eq_ok ranged
  obtain ⟨data, calls, reads, taken⟩ := copied.reads
  have unfinished := (lt_divCeil_iff sized.positive).mp needed
  have written : copy.written = done.length * c.blockSize := by
    rw [copied.written, Nat.min_eq_right (Nat.le_of_lt unfinished)]
  have room := copied.room
  refine ((runs_readBounded c.containerBytes _ copy.block).imp (fun _ _ known => known) ?_).bind ?_
  · rintro t (same | ⟨bytes, below, logged⟩)
    · exact ⟨data, same ▸ calls, reads.length_eq ▸ copied.short, below_of_reads sized reads⟩
    · exact copied.failed sized needed below copied.block logged
  rintro block t ⟨length, below, logged⟩
  have whole : block.length = c.blockSize := length.trans copied.block
  have part : (window block 0 (min (fileLen - copy.written) block.length)).length =
      min (fileLen - copy.written) block.length := length_window (by omega)
  refine Runs.after_ok (sub_of_le (by omega)) ?_
  refine Runs.after_ok (add_of_lt (by omega)) ?_
  refine Runs.after_ok (index_of_le (Nat.zero_le _) (Nat.min_le_right _ _)) ?_
  rw [Nat.sub_zero]
  refine Runs.after_ok (copyFrom_eq_ok.mpr ⟨⟨Nat.le_add_right _ _, by omega, by omega⟩, rfl⟩)
    (runs_pure ?_)
  have is_block : ReadsBlock c (extent.startBlock + index')
      ⟨(extent.startBlock + index') * c.blockSize, copy.block.length, true, block⟩ :=
    ⟨inside, rfl, copied.block, whole, rfl⟩
  exact
    { room := by
        dsimp only
        rw [length_overlay, room]
      block := whole
      written := by
        dsimp only
        rw [List.length_append, List.length_singleton, Nat.add_mul, written, whole]
        omega
      short := by
        rw [List.length_append]
        exact needed
      reads := by
        refine ⟨data ++ [_], by rw [logged, calls, List.append_assoc],
          List.rel_append reads (.cons is_block .nil), ?_⟩
        have joined_length := length_joined reads
        rw [joined, List.flatMap_append, List.flatMap_singleton]
        exact take_overlay_joined room (by omega) (by rw [written]; exact joined_length) taken }

/-- The loop over the blocks of an extent, from an index on. -/
theorem runs_copyBlocks {n index' : Nat} (sized : Sized c) (small : fileLen < 2 ^ 64)
    (copied : Copied c fileLen header done copy s)
    (needed : done.length + n ≤ divCeil fileLen c.blockSize) :
    Runs (copyBlocks c fileLen extent n index' copy) s
      (fun copy' t => Copied c fileLen header
        (done ++ List.range' (extent.startBlock + index') n) copy' t)
      (FewReads c fileLen header) := by
  induction n generalizing index' done copy s with
  | zero =>
      refine runs_pure ?_
      rwa [List.range'_zero, List.append_nil]
  | succ n ih =>
      refine (runs_copyBlock sized small copied (by omega)).bind fun copy' t once => ?_
      refine (ih once (by rw [List.length_append, List.length_singleton]; omega)).imp ?_
        fun _ failed => failed
      intro last u all
      rw [List.append_assoc] at all
      rwa [List.range'_succ]

/-- A list that is cut off and continued is cut off at the same place. -/
theorem take_take_append {α : Type} {list more : List α} {n : Nat} :
    (list.take n ++ more).take n = (list ++ more).take n := by
  rw [List.take_append, List.take_append, List.take_take, Nat.min_self, List.length_take]
  congr 2
  omega

theorem take_range' (start n k : Nat) :
    (List.range' start n).take k = List.range' start (min n k) := by
  rcases Nat.le_total n k with all | part
  · rw [List.take_range'_of_length_le all, Nat.min_eq_left all]
  · rw [List.take_range'_of_length_ge part, Nat.min_eq_right part]

/-- The loop over the extents copies the blocks that they list, as many as the file needs. -/
theorem runs_copyExtents {extents : List JumpstartExtent} (sized : Sized c)
    (small : fileLen < 2 ^ 64) (copied : Copied c fileLen header done copy s) :
    Runs (copyExtents c fileLen extents copy) s
      (fun copy' t => Copied c fileLen header
        ((done ++ blocksOf extents).take (divCeil fileLen c.blockSize)) copy' t)
      (FewReads c fileLen header) := by
  have short := copied.short
  induction extents generalizing done copy s with
  | nil =>
      refine runs_pure ?_
      rwa [blocksOf, List.flatMap_nil, List.append_nil, List.take_of_length_le short]
  | cons extent rest ih =>
      have written := copied.written
      rw [copyExtents]
      refine Runs.after_ok (sub_of_le (by omega)) ?_
      split
      · next complete =>
          -- The file is complete, so that its last block has been read.
          have all : done.length = divCeil fileLen c.blockSize := by
            have not_fewer : ¬ done.length < divCeil fileLen c.blockSize := by
              rw [lt_divCeil_iff sized.positive]
              omega
            omega
          refine runs_pure ?_
          rwa [List.take_left' all]
      · next incomplete =>
          have unfinished : done.length * c.blockSize < fileLen := by omega
          have written' : copy.written = done.length * c.blockSize := by omega
          have needed : divCeil (fileLen - copy.written) c.blockSize =
              divCeil fileLen c.blockSize - done.length := by
            rw [written', divCeil_sub (Nat.le_of_lt unfinished)]
          have few : done.length + min extent.blockCount
              (divCeil (fileLen - copy.written) c.blockSize) ≤ divCeil fileLen c.blockSize := by
            rw [needed]
            omega
          refine (runs_copyBlocks sized small copied few).bind fun copy' t once => ?_
          have part : done ++ List.range' (extent.startBlock + 0)
              (min extent.blockCount (divCeil (fileLen - copy.written) c.blockSize)) =
                (done ++ extent.blocks).take (divCeil fileLen c.blockSize) := by
            rw [needed, List.take_append, List.take_of_length_le short, JumpstartExtent.blocks,
              take_range', Nat.add_zero]
          rw [part] at once
          have later := ih once once.short
          rw [take_take_append, List.append_assoc] at later
          exact later

end Copying

/-! ### The whole extraction -/

/-- The bytes that the `k`-th call left in its buffer. -/
def answer (calls : List Call) (k : Nat) : Bytes := (calls[k]?.map Call.bytes).getD []

/-- The bounds that every trace of calls keeps. The block size, the size of the container and the
length of the file are what the calls themselves returned. -/
structure ReadsBounded (ε : Type) (partitionLen : Nat) (calls : List Call) : Prop where
  each : ∀ call ∈ calls, call.Below partitionLen ∧ call.size ≤ 65536
  container : ∀ call ∈ calls.drop 2,
    call.Below (wordAt 8 (answer calls 1) 40 * wordAt 4 (answer calls 0) 36)
  checked : 3 < calls.length →
    ChecksumPasses (JumpstartError ε) (answer calls 1) ∧
      ChecksumPasses (JumpstartError ε) (answer calls 2) ∧
        176 + 16 * wordAt 4 (answer calls 2) 44 ≤ (answer calls 2).length ∧
          ∀ e ∈ listedExtents (answer calls 2), e.Inside (wordAt 8 (answer calls 1) 40)
  count : calls.length ≤ 3 + divCeil (wordAt 4 (answer calls 2) 40) (wordAt 4 (answer calls 0) 36)

/-- The first two calls, and what was accepted of their answers. -/
structure Mounted (ε : Type) (partitionLen : Nat) (first second : Call) (c : Container) : Prop where
  first_below : first.Below partitionLen
  first_eq : first = ⟨0, 40, true, first.bytes⟩
  second_below : second.Below partitionLen
  second_eq : second = ⟨0, c.blockSize, true, second.bytes⟩
  block_size : c.blockSize = wordAt 4 first.bytes 36
  large : 4096 ≤ c.blockSize
  small : c.blockSize ≤ 65536
  container : ContainerOk ε partitionLen c.blockSize second.bytes c

/-- The call for the jumpstart record, and what was accepted of its answer. -/
structure Opened (ε : Type) (limits : JumpstartLimits) (c : Container) (third : Call)
    (record : JumpstartRecord) : Prop where
  below : third.Below c.containerBytes
  third_eq : third = ⟨c.jumpstartBlock * c.blockSize, c.blockSize, true, third.bytes⟩
  record : RecordOk ε limits c third.bytes record

/-- The calls of an extraction that returns a driver, and the driver that they give. -/
structure Returned (ε : Type) (partitionLen : Nat) (limits : JumpstartLimits) (calls : List Call)
    (driver : JumpstartDriver) (first second third : Call) (data : List Call) (c : Container)
    (record : JumpstartRecord) : Prop where
  calls_eq : calls = [first, second, third] ++ data
  mounted : Mounted ε partitionLen first second c
  opened : Opened ε limits c third record
  reads : List.Forall₂ (ReadsBlock c)
    ((blocksOf record.extents).take (divCeil record.fileLen c.blockSize)) data
  driver_eq : driver = ⟨(joined data).take record.fileLen, c.blockSize, c.blockCount,
    c.jumpstartBlock, c.uuid, record.extents⟩
  length : driver.bytes.length = record.fileLen

section Bounds

variable {ε : Type} {partitionLen : Nat} {limits : JumpstartLimits} {first second third : Call}
  {c : Container} {record : JumpstartRecord}

theorem Call.Below.trans {limit limit' : Nat} {call : Call} (below : call.Below limit)
    (le : limit ≤ limit') : call.Below limit' :=
  ⟨below.word, below.inside.trans le⟩

theorem bounded_of_few {calls : List Call} (few : calls.length ≤ 2)
    (each : ∀ call ∈ calls, call.Below partitionLen ∧ call.size ≤ 65536) :
    ReadsBounded ε partitionLen calls where
  each := each
  container := by
    rw [List.drop_of_length_le few]
    exact fun call mem => absurd mem List.not_mem_nil
  checked := fun many => absurd many (by omega)
  count := by omega

theorem bounded_of_one {call : Call} (below : call.Below partitionLen)
    (size : call.size ≤ 65536) : ReadsBounded ε partitionLen [call] :=
  bounded_of_few (Nat.le_succ 1) (List.forall_mem_singleton.mpr ⟨below, size⟩)

theorem bounded_of_two {call call' : Call} (below : call.Below partitionLen)
    (size : call.size ≤ 65536) (below' : call'.Below partitionLen) (size' : call'.size ≤ 65536) :
    ReadsBounded ε partitionLen [call, call'] :=
  bounded_of_few (Nat.le_refl 2) (List.forall_mem_cons.mpr
    ⟨⟨below, size⟩, List.forall_mem_singleton.mpr ⟨below', size'⟩⟩)

theorem Mounted.sized (mounted : Mounted ε partitionLen first second c) : Sized c :=
  ⟨mounted.container.size, mounted.container.word, by have := mounted.large; omega⟩

/-- The first two calls are bounded, whatever follows them. -/
theorem Mounted.each (mounted : Mounted ε partitionLen first second c) :
    ∀ call ∈ [first, second], call.Below partitionLen ∧ call.size ≤ 65536 := by
  refine List.forall_mem_cons.mpr ⟨⟨mounted.first_below, ?_⟩,
    List.forall_mem_singleton.mpr ⟨mounted.second_below, ?_⟩⟩
  · rw [mounted.first_eq]
    exact Nat.le_of_ble_eq_true rfl
  · rw [mounted.second_eq]
    exact mounted.small

/-- What reads one block of the container is bounded. -/
theorem Mounted.block (mounted : Mounted ε partitionLen first second c) {call : Call}
    (below : call.Below c.containerBytes) (size : call.size = c.blockSize) :
    call.Below partitionLen ∧ call.size ≤ 65536 :=
  ⟨below.trans mounted.container.inside, size ▸ mounted.small⟩

theorem Mounted.containerBytes (mounted : Mounted ε partitionLen first second c) :
    c.containerBytes = wordAt 8 second.bytes 40 * wordAt 4 first.bytes 36 := by
  rw [mounted.container.size, mounted.container.block_count, mounted.block_size]

theorem Mounted.bounded (mounted : Mounted ε partitionLen first second c)
    (below : third.Below c.containerBytes) (size : third.size = c.blockSize) :
    ReadsBounded ε partitionLen [first, second, third] where
  each := List.forall_mem_append.mpr
    ⟨mounted.each, List.forall_mem_singleton.mpr (mounted.block below size)⟩
  container := List.forall_mem_singleton.mpr (mounted.containerBytes ▸ below)
  checked := fun many => absurd many (Nat.lt_irrefl 3)
  count := Nat.le_add_right 3 _

theorem Opened.bounded (opened : Opened ε limits c third record)
    (mounted : Mounted ε partitionLen first second c) {data : List Call}
    (few : data.length ≤ divCeil record.fileLen c.blockSize)
    (each : ∀ call ∈ data, call.Below c.containerBytes ∧ call.size = c.blockSize) :
    ReadsBounded ε partitionLen ([first, second, third] ++ data) := by
  have size : third.size = c.blockSize := by rw [opened.third_eq]
  exact
    { each := List.forall_mem_append.mpr ⟨(mounted.bounded opened.below size).each,
        fun call mem => mounted.block (each call mem).1 (each call mem).2⟩
      container := by
        refine List.forall_mem_cons.mpr ⟨mounted.containerBytes ▸ opened.below, fun call mem => ?_⟩
        exact mounted.containerBytes ▸ (each call mem).1
      checked := fun _ => by
        refine ⟨mounted.container.checksum, opened.record.checksum, opened.record.table, ?_⟩
        have inside := opened.record.each
        rw [opened.record.listed, mounted.container.block_count] at inside
        exact inside
      count := by
        rw [opened.record.length, mounted.block_size] at few
        rw [List.length_append]
        exact Nat.add_le_add_left few 3 }

theorem Returned.bounded {calls data : List Call} {driver : JumpstartDriver}
    (returned : Returned ε partitionLen limits calls driver first second third data c record) :
    ReadsBounded ε partitionLen calls := by
  rw [returned.calls_eq]
  refine returned.opened.bounded returned.mounted ?_
    (below_of_reads returned.mounted.sized returned.reads)
  rw [← returned.reads.length_eq, List.length_take]
  exact Nat.min_le_left _ _

end Bounds

/-- An extraction returns a driver from the calls that it made, or fails after calls that are
bounded all the same. It does not panic: the copy loop fills the whole buffer. -/
theorem runs_extractJumpstart {R : Type} [ReadAt R] (reader : R) (partitionLen : Nat)
    (limits : JumpstartLimits) :
    Runs (extractJumpstart partitionLen limits) (⟨reader, []⟩ : Session R)
      (fun driver t => ∃ first second third data c record,
        Returned (ReadAt.Error R) partitionLen limits t.calls driver first second third data c
        record)
      (fun t => ReadsBounded (ReadAt.Error R) partitionLen t.calls) := by
  have none : ReadsBounded (ReadAt.Error R) partitionLen [] :=
    bounded_of_few (by decide) fun call mem => absurd mem List.not_mem_nil
  rw [extractJumpstart]
  refine Runs.lift_bind rejectIf_ne_panic none fun _ _ => ?_
  -- The prefix.
  refine ((runs_readBounded partitionLen 0 _).imp (fun _ _ known => known) ?_).bind ?_
  · rintro t (same | ⟨bytes, below, logged⟩)
    · rwa [same]
    · rw [logged]
      exact bounded_of_one below (by simp)
  rintro front t ⟨front_length, first_below, logged⟩
  rw [List.length_replicate] at front_length first_below logged
  have first_size : 40 ≤ 65536 := by decide
  have one : ReadsBounded (ReadAt.Error R) partitionLen t.calls := by
    rw [logged]
    exact bounded_of_one first_below first_size
  refine Runs.lift_bind (selectBlockSize_ne_panic (Nat.le_of_eq front_length.symm)) one
    fun blockSize selected => ?_
  obtain ⟨block_size, large, small⟩ := selectBlockSize_eq_ok selected
  -- The superblock.
  refine ((runs_readBounded partitionLen 0 _).imp (fun _ _ known => known) ?_).bind ?_
  · rintro u (same | ⟨bytes, below, logged'⟩)
    · rwa [same]
    · rw [logged', logged]
      exact bounded_of_two first_below first_size below (by rwa [List.length_replicate])
  rintro block u ⟨block_length, second_below, logged'⟩
  rw [List.length_replicate] at block_length second_below logged'
  have two : ReadsBounded (ReadAt.Error R) partitionLen u.calls := by
    rw [logged', logged]
    exact bounded_of_two first_below first_size second_below small
  refine Runs.lift_bind (checkContainer_ne_panic front_length (by omega)) two fun c checked => ?_
  have container := checkContainer_eq_ok checked
  obtain rfl := container.block_size
  have mounted : Mounted (ReadAt.Error R) partitionLen ⟨0, 40, true, front⟩
      ⟨0, c.blockSize, true, block⟩ c :=
    ⟨first_below, rfl, second_below, rfl, block_size, large, small, container⟩
  -- The jumpstart record.
  refine ((runs_readBounded c.containerBytes _ block).imp (fun _ _ known => known) ?_).bind ?_
  · rintro v (same | ⟨bytes, below, logged''⟩)
    · rwa [same]
    · rw [logged'', logged', logged]
      exact mounted.bounded below block_length
  rintro record_block v ⟨record_length, third_below, logged''⟩
  rw [block_length, container.offset] at third_below logged''
  have header : v.calls = [⟨0, 40, true, front⟩, ⟨0, c.blockSize, true, block⟩,
      ⟨c.jumpstartBlock * c.blockSize, c.blockSize, true, record_block⟩] := by
    rw [logged'', logged', logged]
    rfl
  have three : ReadsBounded (ReadAt.Error R) partitionLen v.calls := by
    rw [header]
    exact mounted.bounded third_below rfl
  refine Runs.lift_bind (checkRecord_ne_panic (by omega)) three fun record accepted => ?_
  have record_ok := checkRecord_eq_ok accepted
  have opened : Opened (ReadAt.Error R) limits c
      ⟨c.jumpstartBlock * c.blockSize, c.blockSize, true, record_block⟩ record :=
    ⟨third_below, rfl, record_ok⟩
  -- The driver.
  have file_small := record_ok.small
  have start : Copied c record.fileLen v.calls []
      ⟨List.replicate record.fileLen 0, record_block, 0⟩ v :=
    { room := List.length_replicate
      block := record_length.trans block_length
      written := by simp
      short := Nat.zero_le _
      reads := ⟨[], (List.append_nil _).symm, .nil, by simp [joined]⟩ }
  refine ((runs_copyExtents mounted.sized (by omega) start).imp (fun _ _ known => known) ?_).bind ?_
  · rintro w ⟨data, calls, few, each⟩
    rw [calls, header]
    exact opened.bounded mounted few each
  intro copy w copied
  rw [List.nil_append] at copied
  have enough : divCeil record.fileLen c.blockSize ≤ (blocksOf record.extents).length := by
    rw [length_blocksOf]
    refine Nat.not_lt.mp fun fewer => ?_
    have capacity := record_ok.capacity
    have below := (lt_divCeil_iff mounted.sized.positive).mp fewer
    omega
  have complete : copy.written = record.fileLen := by
    have written := copied.written
    rw [List.length_take, Nat.min_eq_left enough] at written
    have all : ¬ divCeil record.fileLen c.blockSize * c.blockSize < record.fileLen := by
      rw [← lt_divCeil_iff mounted.sized.positive]
      exact Nat.lt_irrefl _
    omega
  obtain ⟨data, calls, reads, taken⟩ := copied.reads
  have whole : copy.bytes = (joined data).take record.fileLen := by
    rwa [complete, ← copied.room, List.take_length, copied.room] at taken
  have returned : Returned (ReadAt.Error R) partitionLen limits w.calls
      ⟨copy.bytes, c.blockSize, c.blockCount, c.jumpstartBlock, c.uuid, record.extents⟩ _ _ _ data c
      record :=
    { calls_eq := by rw [calls, header]
      mounted
      opened
      reads
      driver_eq := by rw [whole]
      length := copied.room }
  exact Runs.after_ok (if_pos complete) (runs_pure ⟨_, _, _, data, c, record, returned⟩)

/-- For any reader, however it answers: every call is inside the partition and of at most one
block, the calls behind the superblock are inside the container, no block of the driver is read
before everything has been checked, and no more blocks are read than the file has. -/
theorem extractJumpstart_reads_bounded {R : Type} [ReadAt R] (reader : R) (partitionLen : Nat)
    (limits : JumpstartLimits) :
    ReadsBounded (ReadAt.Error R) partitionLen
      ((extractJumpstart partitionLen limits).on ⟨reader, []⟩).2.calls :=
  (runs_extractJumpstart reader partitionLen limits).always
    fun _ _ ⟨_, _, _, _, _, _, returned⟩ => returned.bounded

end Nextcore.Jumpstart
