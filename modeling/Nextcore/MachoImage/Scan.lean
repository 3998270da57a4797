import Nextcore.MachoImage.Parse

/-!
The loop over the load commands.

`Scan.Inv` is what it carries: where the scan stands, that every segment has been checked, and
what the commands before it have set. A command keeps it and does not panic
(`scanCommand_calm`); what a command can do is said once (`Loaded`).
-/

namespace Nextcore.MachoImage

open Checked Checked.Outcome

/-! ### Readers -/

@[simp] theorem slice_ne_panic {bytes : Bytes} {offset size : Nat} :
    slice bytes offset size ≠ .panic := sliceOr_ne_panic

@[simp] theorem read32_ne_panic {bytes : Bytes} {offset : Nat} : read32 bytes offset ≠ .panic :=
  wordOr_ne_panic

@[simp] theorem read64_ne_panic {bytes : Bytes} {offset : Nat} : read64 bytes offset ≠ .panic :=
  wordOr_ne_panic

@[simp] theorem checkedEnd_ne_panic {start size : Nat} : checkedEnd start size ≠ .panic :=
  ofOption_ne_panic

theorem checkedEnd_eq_ok {start size stop : Nat} :
    checkedEnd start size = .ok stop ↔ start + size < 2 ^ 64 ∧ start + size = stop := by
  rw [checkedEnd, ofOption_eq_ok, checkedAdd_eq_some]

@[simp] theorem fileRange_ne_panic {bytes : Bytes} {start size : Nat} :
    fileRange bytes start size ≠ .panic :=
  bind_ne_panic checkedEnd_ne_panic fun _ _ => rejectIf_ne_panic

theorem fileRange_eq_ok {bytes : Bytes} {start size : Nat} {u : Unit} :
    fileRange bytes start size = .ok u ↔ start + size < 2 ^ 64 ∧ start + size ≤ bytes.length := by
  simp only [fileRange, bind_eq_ok, checkedEnd_eq_ok, rejectIf_eq_ok, Nat.not_lt]
  constructor
  · rintro ⟨_, ⟨word, rfl⟩, inside⟩
    exact ⟨word, inside⟩
  · rintro ⟨word, inside⟩
    exact ⟨_, ⟨word, rfl⟩, inside⟩

@[simp] theorem exactSize_ne_panic {command : Bytes} {expected : Nat} :
    exactSize command expected ≠ .panic := rejectIf_ne_panic

theorem read32_lt {bytes : Bytes} {offset n : Nat} (read : read32 bytes offset = .ok n) :
    n < 2 ^ 32 := wordOr_lt read

theorem read32_eq {bytes : Bytes} {offset n : Nat} (read : read32 bytes offset = .ok n) :
    n = wordAt 4 bytes offset := (wordOr_eq_ok.mp read).2

theorem read64_eq {bytes : Bytes} {offset n : Nat} (read : read64 bytes offset = .ok n) :
    n = wordAt 8 bytes offset := (wordOr_eq_ok.mp read).2

/-! ### Segments -/

/-- What has been checked of every segment. -/
structure SegmentOk (bytes : Bytes) (s : SegmentPlan) : Prop where
  positive : 0 < s.memorySize
  fits : s.fileSize ≤ s.memorySize
  word : s.vmaddr + s.memorySize < 2 ^ 64
  inside : s.fileOffset + s.fileSize ≤ bytes.length

section Segment

variable {bytes command : Bytes}

theorem validateContents_ne_panic {section' : Bytes} {segment : SegmentExtent}
    {addr size stop flags : Nat} (above : segment.vmaddr ≤ addr) :
    validateContents bytes section' segment addr size stop flags ≠ .panic := by
  rw [validateContents]
  refine ite_ne_panic rejectIf_ne_panic (ite_ne_panic ?_ (by simp))
  refine bind_ne_panic read32_ne_panic fun sectionOffset _ => ?_
  refine bind_ne_panic rejectIf_ne_panic fun _ _ => ?_
  refine bind_ne_panic (sub_ne_panic_iff.mpr above) fun distance _ => ?_
  refine bind_ne_panic checkedEnd_ne_panic fun expected _ => ?_
  exact bind_ne_panic rejectIf_ne_panic fun _ _ => fileRange_ne_panic

theorem parseSection_ne_panic {section' : Bytes} {segment : SegmentExtent}
    (whole : section'.length = 80) (named : 72 ≤ command.length) :
    parseSection bytes command segment section' ≠ .panic := by
  rw [parseSection]
  refine bind_ne_panic (index_ne_panic_iff.mpr (by omega)) fun sectionName _ => ?_
  refine bind_ne_panic (index_ne_panic_iff.mpr (by omega)) fun name _ => ?_
  refine bind_ne_panic rejectIf_ne_panic fun _ _ => ?_
  refine bind_ne_panic read64_ne_panic fun addr _ => ?_
  refine bind_ne_panic read64_ne_panic fun size _ => ?_
  refine bind_ne_panic checkedEnd_ne_panic fun stop _ => ?_
  refine bind_ne_panic read32_ne_panic fun align _ => ?_
  refine bind_ne_panic read32_ne_panic fun flags _ => ?_
  refine bind_ne_panic rejectIf_ne_panic fun _ placed => ?_
  rw [rejectIf_eq_ok] at placed
  have low : align < 64 := by omega
  refine bind_ne_panic (shl_ne_panic_iff.mpr low) fun bit shifted => ?_
  refine bind_ne_panic (sub_ne_panic_iff.mpr (one_le_of_shl shifted)) fun mask _ => ?_
  refine bind_ne_panic rejectIf_ne_panic fun _ _ => ?_
  refine bind_ne_panic read32_ne_panic fun relocations _ => ?_
  refine bind_ne_panic rejectIf_ne_panic fun _ _ => ?_
  exact bind_ne_panic (validateContents_ne_panic (by omega)) fun _ _ => ok_ne_panic _

variable [UnstableSort] {total : Nat}

theorem parseSegment_ne_panic : parseSegment bytes command total ≠ .panic := by
  rw [parseSegment]
  refine bind_ne_panic slice_ne_panic fun head sliced => ?_
  have named : 0 + 72 ≤ command.length := (sliceOr_eq_ok.mp sliced).1.2
  refine bind_ne_panic read32_ne_panic fun count counted => ?_
  have few := read32_lt counted
  refine bind_ne_panic ofOption_ne_panic fun spent _ => ?_
  refine bind_ne_panic rejectIf_ne_panic fun _ _ => ?_
  refine bind_ne_panic (mul_ne_panic_iff.mpr (by omega)) fun table product => ?_
  rw [mul_eq_ok] at product
  refine bind_ne_panic (add_ne_panic_iff.mpr (by omega)) fun expected _ => ?_
  refine bind_ne_panic exactSize_ne_panic fun _ _ => ?_
  refine bind_ne_panic read64_ne_panic fun vmaddr _ => ?_
  refine bind_ne_panic read64_ne_panic fun memorySize _ => ?_
  refine bind_ne_panic read64_ne_panic fun fileOffset _ => ?_
  refine bind_ne_panic read64_ne_panic fun fileSize _ => ?_
  refine bind_ne_panic read32_ne_panic fun maxProt _ => ?_
  refine bind_ne_panic read32_ne_panic fun initProt _ => ?_
  refine bind_ne_panic rejectIf_ne_panic fun _ _ => ?_
  refine bind_ne_panic read32_ne_panic fun flags _ => ?_
  refine bind_ne_panic rejectIf_ne_panic fun _ _ => ?_
  refine bind_ne_panic checkedEnd_ne_panic fun memoryEnd _ => ?_
  refine bind_ne_panic fileRange_ne_panic fun _ _ => ?_
  refine bind_ne_panic checkedEnd_ne_panic fun fileMemoryEnd _ => ?_
  refine bind_ne_panic (index_ne_panic_iff.mpr ⟨by omega, Nat.le_refl _⟩) fun sections _ => ?_
  have each : collect (parseSection bytes command ⟨vmaddr, memoryEnd, fileOffset, fileMemoryEnd⟩)
      (chunksExact sections 80) ≠ .panic :=
    collect_ne_panic fun s mem => parseSection_ne_panic (length_of_mem_chunksExact mem) (by omega)
  refine bind_ne_panic each fun ranges _ => ?_
  refine bind_ne_panic (forWindows_ne_panic fun a _ b _ => rejectIf_ne_panic) fun _ _ => ?_
  exact bind_ne_panic (index_ne_panic_iff.mpr (by omega)) fun _ _ => ok_ne_panic _

/-- A parsed segment has been checked, and is where its command says. -/
theorem parseSegment_eq_ok {s : SegmentPlan} {total' : Nat}
    (parsed : parseSegment bytes command total = .ok (s, total')) :
    SegmentOk bytes s ∧ 72 ≤ command.length ∧ s.vmaddr = wordAt 8 command 24 ∧
      s.memorySize = wordAt 8 command 32 := by
  rw [parseSegment] at parsed
  obtain ⟨_, sliced, parsed⟩ := bind_eq_ok.mp parsed
  have named : 0 + 72 ≤ command.length := (sliceOr_eq_ok.mp sliced).1.2
  -- The sections, and the size of the command.
  iterate 6 obtain ⟨_, _, parsed⟩ := bind_eq_ok.mp parsed
  obtain ⟨vmaddr, at_vmaddr, parsed⟩ := bind_eq_ok.mp parsed
  obtain ⟨memorySize, at_memory, parsed⟩ := bind_eq_ok.mp parsed
  obtain ⟨fileOffset, _, parsed⟩ := bind_eq_ok.mp parsed
  obtain ⟨fileSize, _, parsed⟩ := bind_eq_ok.mp parsed
  obtain ⟨maxProt, _, parsed⟩ := bind_eq_ok.mp parsed
  obtain ⟨initProt, _, parsed⟩ := bind_eq_ok.mp parsed
  obtain ⟨_, valid, parsed⟩ := bind_eq_ok.mp parsed
  iterate 2 obtain ⟨_, _, parsed⟩ := bind_eq_ok.mp parsed
  obtain ⟨memoryEnd, in_memory, parsed⟩ := bind_eq_ok.mp parsed
  obtain ⟨_, in_file, parsed⟩ := bind_eq_ok.mp parsed
  -- The end of the file part in memory, the sections and the name.
  iterate 5 obtain ⟨_, _, parsed⟩ := bind_eq_ok.mp parsed
  cases parsed
  rw [rejectIf_eq_ok] at valid
  refine ⟨⟨by dsimp only; omega, by dsimp only; omega, (checkedEnd_eq_ok.mp in_memory).1,
    (fileRange_eq_ok.mp in_file).2⟩, by omega, read64_eq at_vmaddr, read64_eq at_memory⟩

end Segment

/-! ### Load commands -/

/-- What one load command does, beside its effect on the counts. -/
inductive Loaded (bytes : Bytes) (kind : Nat) (command : Bytes) (scan scan' : Scan) : Prop where
  | segment (s : SegmentPlan) (is : kind = 0x19) (named : window command 8 16 ≠ pageZeroName)
      (checked : SegmentOk bytes s) (segments : scan'.segments = scan.segments ++ [s])
      (guard : scan'.guard = scan.guard) (entry : scan'.entry = scan.entry)
  | guard (is : kind = 0x19) (fresh : scan.guard = none) (low : wordAt 8 command 24 = 0)
      (guard : scan'.guard = some (wordAt 8 command 32)) (segments : scan'.segments = scan.segments)
      (entry : scan'.entry = scan.entry)
  | main (is : kind = 0x80000028) (fresh : scan.entry = none)
      (entry : scan'.entry = some (.fileOffset (wordAt 8 command 8)))
      (segments : scan'.segments = scan.segments) (guard : scan'.guard = scan.guard)
  | thread (is : kind = 0x5) (fresh : scan.entry = none)
      (entry : scan'.entry = some (.virtualAddress (wordAt 8 command 144)))
      (segments : scan'.segments = scan.segments) (guard : scan'.guard = scan.guard)
  | other (not_segment : kind ≠ 0x19) (not_main : kind ≠ 0x80000028) (not_thread : kind ≠ 0x5)
      (same : scan' = scan)

section Commands

variable {bytes command : Bytes} {scan scan' : Scan}

theorem setEntry_ne_panic {value : Entry} : setEntry value scan ≠ .panic :=
  bind_ne_panic rejectIf_ne_panic fun _ _ => ok_ne_panic _

theorem setEntry_eq_ok {value : Entry} (done : setEntry value scan = .ok scan') :
    scan.entry = none ∧ scan' = { scan with entry := some value } := by
  simp only [setEntry, seq_eq_ok, rejectIf_eq_ok, pure_eq, ok.injEq] at done
  exact ⟨Option.not_isSome_iff_eq_none.mp done.1, done.2.symm⟩

theorem mainCommand_ne_panic : mainCommand command scan ≠ .panic := by
  refine bind_ne_panic exactSize_ne_panic fun _ _ => ?_
  refine bind_ne_panic read64_ne_panic fun stack _ => ?_
  refine bind_ne_panic rejectIf_ne_panic fun _ _ => ?_
  exact bind_ne_panic read64_ne_panic fun value _ => setEntry_ne_panic

theorem threadCommand_ne_panic : threadCommand command scan ≠ .panic := by
  refine bind_ne_panic read32_ne_panic fun flavor _ => ?_
  refine bind_ne_panic rejectIf_ne_panic fun _ _ => ?_
  refine bind_ne_panic read32_ne_panic fun count _ => ?_
  refine bind_ne_panic rejectIf_ne_panic fun _ _ => ?_
  refine bind_ne_panic exactSize_ne_panic fun _ _ => ?_
  exact bind_ne_panic read64_ne_panic fun value _ => setEntry_ne_panic

theorem validateMetadata_ne_panic {kind : Nat} : validateMetadata bytes command kind ≠ .panic := by
  rw [validateMetadata]
  refine ite_ne_panic ?_ (ite_ne_panic exactSize_ne_panic (ite_ne_panic exactSize_ne_panic
    (ite_ne_panic ?_ (ite_ne_panic ?_ (by simp)))))
  · refine bind_ne_panic exactSize_ne_panic fun _ _ => ?_
    refine bind_ne_panic read32_ne_panic fun symbols _ => ?_
    refine bind_ne_panic read32_ne_panic fun count counted => ?_
    have few := read32_lt counted
    refine bind_ne_panic (mul_ne_panic_iff.mpr (by omega)) fun size _ => ?_
    refine bind_ne_panic fileRange_ne_panic fun _ _ => ?_
    refine bind_ne_panic read32_ne_panic fun strings _ => ?_
    exact bind_ne_panic read32_ne_panic fun size _ => fileRange_ne_panic
  · refine bind_ne_panic slice_ne_panic fun _ _ => ?_
    refine bind_ne_panic read32_ne_panic fun count counted => ?_
    have few := read32_lt counted
    refine bind_ne_panic (mul_ne_panic_iff.mpr (by omega)) fun tools product => ?_
    rw [mul_eq_ok] at product
    exact bind_ne_panic (add_ne_panic_iff.mpr (by omega)) fun expected _ => rejectIf_ne_panic
  · refine bind_ne_panic exactSize_ne_panic fun _ _ => ?_
    refine bind_ne_panic read32_ne_panic fun size _ => ?_
    refine bind_ne_panic rejectIf_ne_panic fun _ _ => ?_
    exact bind_ne_panic read32_ne_panic fun offset _ => fileRange_ne_panic

variable [UnstableSort]

theorem segmentCommand_ne_panic (few : scan.segmentCount ≤ maxSegments) :
    segmentCommand bytes command scan ≠ .panic := by
  rw [maxSegments] at few
  rw [segmentCommand]
  refine bind_ne_panic (add_ne_panic_iff.mpr (by omega)) fun count _ => ?_
  refine bind_ne_panic rejectIf_ne_panic fun _ _ => ?_
  refine bind_ne_panic parseSegment_ne_panic fun parsed done => ?_
  have sized := (parseSegment_eq_ok done).2.1
  refine bind_ne_panic (index_ne_panic_iff.mpr (by omega)) fun name _ => ?_
  refine ite_ne_panic ?_ (ok_ne_panic _)
  refine bind_ne_panic rejectIf_ne_panic fun _ _ => ?_
  refine bind_ne_panic read32_ne_panic fun sections _ => ?_
  exact bind_ne_panic rejectIf_ne_panic fun _ _ => ok_ne_panic _

theorem segmentCommand_eq_ok (done : segmentCommand bytes command scan = .ok scan') :
    Loaded bytes 0x19 command scan scan' ∧ scan'.segmentCount ≤ maxSegments := by
  rw [segmentCommand] at done
  obtain ⟨count, _, done⟩ := bind_eq_ok.mp done
  obtain ⟨_, limit, done⟩ := bind_eq_ok.mp done
  rw [rejectIf_eq_ok, Nat.not_lt] at limit
  obtain ⟨⟨s, sections⟩, parsed, done⟩ := bind_eq_ok.mp done
  obtain ⟨checked, sized, vmaddr, memorySize⟩ := parseSegment_eq_ok parsed
  obtain ⟨name, named, done⟩ := bind_eq_ok.mp done
  obtain ⟨_, rfl⟩ := index_eq_ok.mp named
  rcases ite_eq_iff.mp done with ⟨zero, done⟩ | ⟨not_zero, done⟩
  · obtain ⟨_, valid, done⟩ := bind_eq_ok.mp done
    obtain ⟨_, _, done⟩ := bind_eq_ok.mp done
    obtain ⟨_, _, done⟩ := bind_eq_ok.mp done
    cases done
    rw [rejectIf_eq_ok] at valid
    push Not at valid
    obtain ⟨unset, low, _⟩ := valid
    have fresh : scan.guard = none := Option.not_isSome_iff_eq_none.mp unset
    exact ⟨.guard rfl fresh (vmaddr ▸ low) (congrArg some memorySize) rfl rfl, limit⟩
  · cases done
    exact ⟨.segment s rfl not_zero checked rfl rfl rfl, limit⟩

theorem loadCommand_ne_panic {kind : Nat} (few : scan.segmentCount ≤ maxSegments) :
    loadCommand bytes kind command scan ≠ .panic := by
  rw [loadCommand]
  refine ite_ne_panic (segmentCommand_ne_panic few) (ite_ne_panic mainCommand_ne_panic
    (ite_ne_panic threadCommand_ne_panic ?_))
  exact bind_ne_panic validateMetadata_ne_panic fun _ _ => ok_ne_panic _

theorem loadCommand_eq_ok {kind : Nat} (few : scan.segmentCount ≤ maxSegments)
    (done : loadCommand bytes kind command scan = .ok scan') :
    Loaded bytes kind command scan scan' ∧ scan'.segmentCount ≤ maxSegments := by
  rw [loadCommand] at done
  rcases ite_eq_iff.mp done with ⟨rfl, done⟩ | ⟨not_segment, done⟩
  · exact segmentCommand_eq_ok done
  rcases ite_eq_iff.mp done with ⟨is, done⟩ | ⟨not_main, done⟩
  · rw [mainCommand] at done
    iterate 3 obtain ⟨_, _, done⟩ := bind_eq_ok.mp done
    obtain ⟨value, read, done⟩ := bind_eq_ok.mp done
    obtain ⟨fresh, rfl⟩ := setEntry_eq_ok done
    exact ⟨.main is fresh (by rw [read64_eq read]) rfl rfl, few⟩
  rcases ite_eq_iff.mp done with ⟨is, done⟩ | ⟨not_thread, done⟩
  · rw [threadCommand] at done
    iterate 5 obtain ⟨_, _, done⟩ := bind_eq_ok.mp done
    obtain ⟨value, read, done⟩ := bind_eq_ok.mp done
    obtain ⟨fresh, rfl⟩ := setEntry_eq_ok done
    exact ⟨.thread is fresh (by rw [read64_eq read]) rfl rfl, few⟩
  · obtain ⟨_, _, done⟩ := bind_eq_ok.mp done
    cases done
    exact ⟨.other not_segment not_main not_thread rfl, few⟩

end Commands

/-- What the loop carries in front of the `k`-th load command. -/
structure Scan.Inv (bytes commands : Bytes) (k : Nat) (scan : Scan) : Prop where
  offset : scan.offset = commandOffset commands k
  few : scan.segmentCount ≤ maxSegments
  segments : ∀ s ∈ scan.segments, SegmentOk bytes s
  guards : ∀ j < k, commandKind commands j = 0x19 →
    window (commandAt commands j) 8 16 = pageZeroName →
      wordAt 8 (commandAt commands j) 24 = 0 ∧
        scan.guard = some (wordAt 8 (commandAt commands j) 32)
  mains : ∀ j < k, commandKind commands j = 0x80000028 →
    scan.entry = some (.fileOffset (wordAt 8 (commandAt commands j) 8))
  threads : ∀ j < k, commandKind commands j = 0x5 →
    scan.entry = some (.virtualAddress (wordAt 8 (commandAt commands j) 144))

theorem Scan.inv_start (bytes commands : Bytes) : Scan.Inv bytes commands 0 .start where
  offset := rfl
  few := Nat.zero_le _
  segments := fun _ mem => absurd mem List.not_mem_nil
  guards := fun _ below => absurd below (Nat.not_lt_zero _)
  mains := fun _ below => absurd below (Nat.not_lt_zero _)
  threads := fun _ below => absurd below (Nat.not_lt_zero _)

/-- One load command keeps the invariant: what an earlier one has set, it does not set again. -/
theorem Scan.Inv.step {bytes commands : Bytes} {k : Nat} {scan scan' : Scan}
    (inv : Scan.Inv bytes commands k scan) (few : scan'.segmentCount ≤ maxSegments)
    (loaded : Loaded bytes (commandKind commands k) (commandAt commands k) scan scan') :
    Scan.Inv bytes commands (k + 1)
      { scan' with offset := commandOffset commands (k + 1) } := by
  have no_main : scan.entry = none → ∀ j < k, commandKind commands j ≠ 0x80000028 := by
    intro fresh j before kind
    have earlier := inv.mains j before kind
    rw [fresh] at earlier
    cases earlier
  have no_thread : scan.entry = none → ∀ j < k, commandKind commands j ≠ 0x5 := by
    intro fresh j before kind
    have earlier := inv.threads j before kind
    rw [fresh] at earlier
    cases earlier
  cases loaded with
  | segment s is named checked segments guard entry =>
      refine ⟨rfl, few, fun r mem => ?_, Nat.forall_lt_succ_right.mpr ⟨guard ▸ inv.guards, ?_⟩,
        Nat.forall_lt_succ_right.mpr ⟨entry ▸ inv.mains, fun kind => by omega⟩,
        Nat.forall_lt_succ_right.mpr ⟨entry ▸ inv.threads, fun kind => by omega⟩⟩
      · dsimp only at mem
        rw [segments] at mem
        rcases List.mem_append.mp mem with old | new
        · exact inv.segments r old
        · exact List.mem_singleton.mp new ▸ checked
      · exact fun _ zero => absurd zero named
  | guard is fresh low guard segments entry =>
      refine ⟨rfl, few, segments ▸ inv.segments, Nat.forall_lt_succ_right.mpr ⟨?_, ?_⟩,
        Nat.forall_lt_succ_right.mpr ⟨entry ▸ inv.mains, fun kind => by omega⟩,
        Nat.forall_lt_succ_right.mpr ⟨entry ▸ inv.threads, fun kind => by omega⟩⟩
      · intro j before kind zero
        have earlier := (inv.guards j before kind zero).2
        rw [fresh] at earlier
        cases earlier
      · exact fun _ _ => ⟨low, guard⟩
  | main is fresh entry segments guard =>
      refine ⟨rfl, few, segments ▸ inv.segments,
        Nat.forall_lt_succ_right.mpr ⟨guard ▸ inv.guards, fun kind => by omega⟩,
        Nat.forall_lt_succ_right.mpr ⟨fun j before kind => absurd kind (no_main fresh j before),
          fun _ => entry⟩,
        Nat.forall_lt_succ_right.mpr ⟨fun j before kind => absurd kind (no_thread fresh j before),
          fun kind => by omega⟩⟩
  | thread is fresh entry segments guard =>
      refine ⟨rfl, few, segments ▸ inv.segments,
        Nat.forall_lt_succ_right.mpr ⟨guard ▸ inv.guards, fun kind => by omega⟩,
        Nat.forall_lt_succ_right.mpr ⟨fun j before kind => absurd kind (no_main fresh j before),
          fun kind => by omega⟩,
        Nat.forall_lt_succ_right.mpr ⟨fun j before kind => absurd kind (no_thread fresh j before),
          fun _ => entry⟩⟩
  | other not_segment not_main not_thread same =>
      subst same
      exact ⟨rfl, few, inv.segments,
        Nat.forall_lt_succ_right.mpr ⟨inv.guards, fun kind => absurd kind not_segment⟩,
        Nat.forall_lt_succ_right.mpr ⟨inv.mains, fun kind => absurd kind not_main⟩,
        Nat.forall_lt_succ_right.mpr ⟨inv.threads, fun kind => absurd kind not_thread⟩⟩

/-- A round of the loop does not panic, and keeps the invariant. -/
theorem scanCommand_calm [UnstableSort] {bytes commands : Bytes} {k : Nat} {scan : Scan}
    (inv : Scan.Inv bytes commands k scan) :
    scanCommand bytes commands scan ≠ .panic ∧
      ∀ scan', scanCommand bytes commands scan = .ok scan' →
        Scan.Inv bytes commands (k + 1) scan' := by
  constructor
  · refine bind_ne_panic read32_ne_panic fun kind read => ?_
    have word := (wordOr_eq_ok.mp read).1.1
    refine bind_ne_panic (add_ne_panic_iff.mpr word) fun sizeAt _ => ?_
    refine bind_ne_panic read32_ne_panic fun size _ => ?_
    refine bind_ne_panic rejectIf_ne_panic fun _ _ => ?_
    refine bind_ne_panic slice_ne_panic fun command _ => ?_
    refine bind_ne_panic (loadCommand_ne_panic inv.few) fun _ _ => ?_
    exact bind_ne_panic ofOption_ne_panic fun _ _ => ok_ne_panic _
  · intro scan' done
    rw [scanCommand] at done
    obtain ⟨kind, at_kind, done⟩ := bind_eq_ok.mp done
    obtain ⟨sizeAt, moved, done⟩ := bind_eq_ok.mp done
    obtain ⟨_, rfl⟩ := add_eq_ok.mp moved
    obtain ⟨size, at_size, done⟩ := bind_eq_ok.mp done
    obtain ⟨_, _, done⟩ := bind_eq_ok.mp done
    obtain ⟨command, sliced, done⟩ := bind_eq_ok.mp done
    obtain ⟨_, rfl⟩ := sliceOr_eq_ok.mp sliced
    obtain ⟨next, ran, done⟩ := bind_eq_ok.mp done
    obtain ⟨offset, advanced, done⟩ := bind_eq_ok.mp done
    cases done
    rw [ofOption_eq_ok, checkedAdd_eq_some] at advanced
    obtain ⟨_, rfl⟩ := advanced
    obtain ⟨loaded, few⟩ := loadCommand_eq_ok inv.few ran
    rw [read32_eq at_kind, read32_eq at_size, inv.offset] at loaded
    rw [read32_eq at_size, inv.offset]
    exact inv.step few loaded

/-- The whole loop does not panic, and keeps the invariant. -/
theorem scanCommands_calm [UnstableSort] (bytes commands : Bytes) (count : Nat) :
    iterate (scanCommand bytes commands) count .start ≠ .panic ∧
      ∀ scan, iterate (scanCommand bytes commands) count .start = .ok scan →
        Scan.Inv bytes commands count scan := by
  have run := iterate_calm (n := count) (Scan.inv_start bytes commands)
    fun i _ scan inv => scanCommand_calm inv
  rwa [Nat.zero_add] at run

end Nextcore.MachoImage
