import Nextcore.KernelCollection.Inspect

/-!
What a successful parse of an image guarantees.

`SegmentOk` is what `parse_segment` has checked of one segment; `ScanInv` is carried
through the loop over the load commands, one lemma for each arm of the `match`; and
`ImageInv` is what `parse_image` returns. Neighbouring checks on sorted lists become facts
about all pairs here (`nonoverlap_of_validate`). What the loops over the chained fixups do is
said once, for a page (`PageScanned`) and for a segment (`BlockScanned`).
-/

namespace Nextcore.KernelCollection

open Checked Checked.Outcome

variable {bytes : Bytes}

/-- What has been checked of every segment. -/
structure SegmentOk (bytes : Bytes) (s : SegmentMetadata) : Prop where
  noWrap : s.address + s.memorySize < 2 ^ 64
  inside : s.file.offset + s.file.size ≤ bytes.length
  fileFits : s.file.size ≤ s.memorySize

/-- What a parse has found of a segment, with the table of its sections. -/
structure SegmentParsed (bytes cmd : Bytes) (s : SegmentMetadata) : Prop where
  file : ∃ offset size, fileRange bytes offset size 1 = .ok s.file
  memory : ∃ stop, rangeEnd s.address s.memorySize = .ok stop
  fits : s.file.size ≤ s.memorySize
  sections : ∃ table, collect (parseSection bytes cmd s.address s.memorySize s.file)
    (chunksExact table 80) = .ok s.sections

theorem parsed_of_parseSegment [UnstableSort] {cmd : Bytes} {budget budget' : Budget}
    {s : SegmentMetadata} (parsed : parseSegment bytes cmd budget = .ok (s, budget')) :
    SegmentParsed bytes cmd s ∧ ∃ spent, budget' = { budget with sections := spent } := by
  unfold parseSegment at parsed
  -- The command's size, its section count and the budget for them.
  iterate 6 obtain ⟨_, _, parsed⟩ := bind_eq_ok.mp parsed
  obtain ⟨address, _, parsed⟩ := bind_eq_ok.mp parsed
  obtain ⟨memorySize, _, parsed⟩ := bind_eq_ok.mp parsed
  obtain ⟨offset, _, parsed⟩ := bind_eq_ok.mp parsed
  obtain ⟨size, _, parsed⟩ := bind_eq_ok.mp parsed
  obtain ⟨file, in_file, parsed⟩ := bind_eq_ok.mp parsed
  -- The protections and the flags.
  iterate 3 obtain ⟨_, _, parsed⟩ := bind_eq_ok.mp parsed
  obtain ⟨stop, memory, parsed⟩ := bind_eq_ok.mp parsed
  obtain ⟨_, fits, parsed⟩ := bind_eq_ok.mp parsed
  -- The unsupported flags.
  iterate 2 obtain ⟨_, _, parsed⟩ := bind_eq_ok.mp parsed
  obtain ⟨sections, each, parsed⟩ := bind_eq_ok.mp parsed
  -- The order of the sections, and the name.
  iterate 2 obtain ⟨_, _, parsed⟩ := bind_eq_ok.mp parsed
  cases parsed
  simp only [rejectIf_eq_ok, not_or, Nat.not_lt] at fits
  exact ⟨⟨⟨offset, size, in_file⟩, ⟨stop, memory⟩, fits.1, ⟨_, each⟩⟩, _, rfl⟩

/-- A parsed segment has been checked, and cost sections only. -/
theorem parseSegment_eq_ok [UnstableSort] {cmd : Bytes} {budget budget' : Budget}
    {s : SegmentMetadata} (parsed : parseSegment bytes cmd budget = .ok (s, budget')) :
    SegmentOk bytes s ∧ budget'.segments = budget.segments ∧
      budget'.commands = budget.commands := by
  obtain ⟨found, _, rfl⟩ := parsed_of_parseSegment parsed
  obtain ⟨offset, size, in_file⟩ := found.file
  obtain ⟨_, memory⟩ := found.memory
  obtain ⟨file, _, _, inside⟩ := fileRange_eq_ok.mp in_file
  refine ⟨⟨(rangeEnd_eq_ok.mp memory).1, ?_, found.fits⟩, rfl, rfl⟩
  rw [file]
  exact inside

/-! ### The loop over the load commands -/

/-- The scan has not moved in what the invariant speaks of. -/
structure Keeps (scan scan' : CommandScan) : Prop where
  budget : scan'.budget = scan.budget
  segments : scan'.segments = scan.segments
  members : scan'.members = scan.members

variable {cmd : Bytes} {scan scan' : CommandScan}

theorem setEntry_keeps {value : EntryMetadata} (done : setEntry value scan = .ok scan') :
    Keeps scan scan' := by
  simp only [setEntry, seq_eq_ok, pure_eq, ok.injEq] at done
  obtain ⟨_, rfl⟩ := done
  exact ⟨rfl, rfl, rfl⟩

theorem threadCommand_keeps {profile : Profile}
    (done : threadCommand cmd profile scan = .ok scan') :
    Keeps scan scan' := by
  obtain ⟨value, _, set⟩ := bind_eq_ok.mp done
  exact setEntry_keeps set

theorem mainCommand_keeps (done : mainCommand cmd scan = .ok scan') : Keeps scan scan' := by
  simp only [mainCommand, bind_eq_ok] at done
  obtain ⟨_, _, _, _, _, _, set⟩ := done
  exact setEntry_keeps set

theorem symtabCommand_keeps (done : symtabCommand bytes cmd scan = .ok scan') :
    Keeps scan scan' := by
  unfold symtabCommand at done
  iterate 5 obtain ⟨_, _, done⟩ := bind_eq_ok.mp done
  cases done
  exact ⟨rfl, rfl, rfl⟩

theorem dysymtabCommand_keeps (done : dysymtabCommand bytes cmd scan = .ok scan') :
    Keeps scan scan' := by
  unfold dysymtabCommand at done
  iterate 3 obtain ⟨_, _, done⟩ := bind_eq_ok.mp done
  cases done
  exact ⟨rfl, rfl, rfl⟩

theorem fixupsCommand_keeps (done : fixupsCommand bytes cmd scan = .ok scan') :
    Keeps scan scan' := by
  unfold fixupsCommand at done
  iterate 3 obtain ⟨_, _, done⟩ := bind_eq_ok.mp done
  cases done
  exact ⟨rfl, rfl, rfl⟩

theorem sizedCommand_keeps {expected : Nat} (done : sizedCommand cmd expected scan = .ok scan') :
    Keeps scan scan' := by
  unfold sizedCommand at done
  obtain ⟨_, _, done⟩ := bind_eq_ok.mp done
  cases done
  exact ⟨rfl, rfl, rfl⟩

theorem buildVersionCommand_keeps {size : Nat}
    (done : buildVersionCommand cmd size scan = .ok scan') : Keeps scan scan' := by
  unfold buildVersionCommand at done
  iterate 5 obtain ⟨_, _, done⟩ := bind_eq_ok.mp done
  cases done
  exact ⟨rfl, rfl, rfl⟩

theorem linkeditCommand_keeps {kind : Nat}
    (done : linkeditCommand bytes cmd kind scan = .ok scan') :
    Keeps scan scan' := by
  unfold linkeditCommand at done
  iterate 5 obtain ⟨_, _, done⟩ := bind_eq_ok.mp done
  cases done
  exact ⟨rfl, rfl, rfl⟩

/-- A segment command adds one checked segment, for one unit of the budget. -/
theorem segmentCommand_eq_ok [UnstableSort] (done : segmentCommand bytes cmd scan = .ok scan') :
    ∃ s, SegmentOk bytes s ∧ scan'.segments = scan.segments ++ [s] ∧
      scan'.members = scan.members ∧ scan'.budget.segments = scan.budget.segments + 1 ∧
      scan'.budget.segments ≤ maxSegments := by
  simp only [segmentCommand, bind_eq_ok, addBudget_eq_ok, pure_eq, ok.injEq] at done
  obtain ⟨_, ⟨_, limit, rfl⟩, ⟨s, budget⟩, parsed, rfl⟩ := done
  obtain ⟨checked, spent, _⟩ := parseSegment_eq_ok parsed
  refine ⟨s, checked, rfl, rfl, spent, ?_⟩
  rw [spent]
  exact limit

/-- A fileset command adds one member, while there is room for it. -/
theorem filesetCommand_eq_ok {size : Nat} (done : filesetCommand bytes cmd size scan = .ok scan') :
    scan'.budget = scan.budget ∧ scan'.segments = scan.segments ∧
      scan.members.length ≠ maxMembers ∧
      scan'.members.length = scan.members.length + 1 := by
  unfold filesetCommand at done
  obtain ⟨_, _, done⟩ := bind_eq_ok.mp done
  obtain ⟨_, room, done⟩ := bind_eq_ok.mp done
  -- The identifier, the offset and the address, and that they are new.
  iterate 12 obtain ⟨_, _, done⟩ := bind_eq_ok.mp done
  cases done
  refine ⟨rfl, rfl, rejectIf_eq_ok.mp room, ?_⟩
  rw [List.length_append, List.length_singleton]

/-- What one load command does to the segments, the members and their budget. -/
inductive Loaded (bytes : Bytes) (scan scan' : CommandScan) : Prop where
  | segment (s : SegmentMetadata) (checked : SegmentOk bytes s)
      (segments : scan'.segments = scan.segments ++ [s]) (members : scan'.members = scan.members)
      (spent : scan'.budget.segments = scan.budget.segments + 1)
      (limit : scan'.budget.segments ≤ maxSegments)
  | member (budget : scan'.budget = scan.budget) (segments : scan'.segments = scan.segments)
      (room : scan.members.length ≠ maxMembers)
      (members : scan'.members.length = scan.members.length + 1)
  | other (keeps : Keeps scan scan')

/-- A load command is that of a segment or of a member, or keeps both lists. -/
theorem loadCommand_cases [UnstableSort] {outer : Bool} {profile : Profile} {kind size : Nat}
    (done : loadCommand bytes outer profile kind size cmd scan = .ok scan') :
    segmentCommand bytes cmd scan = .ok scan' ∨ filesetCommand bytes cmd size scan = .ok scan' ∨
      Keeps scan scan' := by
  unfold loadCommand at done
  rcases ite_eq_iff.mp done with ⟨_, done⟩ | ⟨_, done⟩
  · exact .inl done
  rcases ite_eq_iff.mp done with ⟨_, done⟩ | ⟨_, done⟩
  · exact .inr (.inl done)
  refine .inr (.inr ?_)
  rcases ite_eq_iff.mp done with ⟨_, done⟩ | ⟨_, done⟩
  · exact threadCommand_keeps done
  rcases ite_eq_iff.mp done with ⟨_, done⟩ | ⟨_, done⟩
  · exact mainCommand_keeps done
  rcases ite_eq_iff.mp done with ⟨_, done⟩ | ⟨_, done⟩
  · exact symtabCommand_keeps done
  rcases ite_eq_iff.mp done with ⟨_, done⟩ | ⟨_, done⟩
  · exact dysymtabCommand_keeps done
  rcases ite_eq_iff.mp done with ⟨_, done⟩ | ⟨_, done⟩
  · exact fixupsCommand_keeps done
  rcases ite_eq_iff.mp done with ⟨_, done⟩ | ⟨_, done⟩
  · exact sizedCommand_keeps done
  rcases ite_eq_iff.mp done with ⟨_, done⟩ | ⟨_, done⟩
  · exact sizedCommand_keeps done
  rcases ite_eq_iff.mp done with ⟨_, done⟩ | ⟨_, done⟩
  · exact buildVersionCommand_keeps done
  rcases ite_eq_iff.mp done with ⟨_, done⟩ | ⟨_, done⟩
  · exact linkeditCommand_keeps done
  · cases done

theorem loadCommand_eq_ok [UnstableSort] {outer : Bool} {profile : Profile} {kind size : Nat}
    (done : loadCommand bytes outer profile kind size cmd scan = .ok scan') :
    Loaded bytes scan scan' := by
  rcases loadCommand_cases done with done | done | keeps
  · obtain ⟨s, checked, segments, members, spent, limit⟩ := segmentCommand_eq_ok done
    exact .segment s checked segments members spent limit
  · obtain ⟨budget, segments, room, members⟩ := filesetCommand_eq_ok done
    exact .member budget segments room members
  · exact .other keeps

/-- What the loop over the load commands carries, from `start` segments spent before it. -/
structure ScanInv (bytes : Bytes) (start : Nat) (scan : CommandScan) : Prop where
  segments : ∀ s ∈ scan.segments, SegmentOk bytes s
  spent : scan.budget.segments = start + scan.segments.length
  limit : scan.budget.segments ≤ maxSegments
  members : scan.members.length ≤ maxMembers

theorem ScanInv.start (budget : Budget) (within : budget.segments ≤ maxSegments) :
    ScanInv bytes budget.segments (.start budget) where
  segments := fun _ mem => nomatch mem
  spent := rfl
  limit := within
  members := Nat.zero_le _

/-- One load command keeps the invariant. -/
theorem Loaded.keeps_inv {start : Nat} (loaded : Loaded bytes scan scan')
    (inv : ScanInv bytes start scan) : ScanInv bytes start scan' := by
  cases loaded with
  | segment s checked segments members spent limit =>
      refine ⟨?_, ?_, limit, members ▸ inv.members⟩
      · rw [segments]
        intro r mem
        rcases List.mem_append.mp mem with old | new
        · exact inv.segments r old
        · cases List.mem_singleton.mp new
          exact checked
      · rw [spent, segments, List.length_append, List.length_singleton, inv.spent, Nat.add_assoc]
  | member budget segments room members =>
      refine ⟨segments ▸ inv.segments, ?_, budget ▸ inv.limit, ?_⟩
      · rw [budget, segments]
        exact inv.spent
      · rw [members]
        exact Nat.lt_of_le_of_ne inv.members room
  | other keeps =>
      obtain ⟨budget, segments, members⟩ := keeps
      refine ⟨segments ▸ inv.segments, ?_, budget ▸ inv.limit, members ▸ inv.members⟩
      rw [budget, segments]
      exact inv.spent

/-- A round takes one load command, and goes on behind it. -/
theorem scanCommand_eq_ok [UnstableSort] {outer : Bool} {profile : Profile} {commands : Bytes}
    (done : scanCommand bytes outer profile commands scan = .ok scan') :
    ∃ kind size cmd after, loadCommand bytes outer profile kind size cmd scan = .ok after ∧
      scan' = { after with offset := scan.offset + size } := by
  unfold scanCommand at done
  obtain ⟨kind, _, done⟩ := bind_eq_ok.mp done
  obtain ⟨_, _, done⟩ := bind_eq_ok.mp done
  obtain ⟨size, _, done⟩ := bind_eq_ok.mp done
  obtain ⟨_, _, done⟩ := bind_eq_ok.mp done
  obtain ⟨cmd, _, done⟩ := bind_eq_ok.mp done
  obtain ⟨after, ran, done⟩ := bind_eq_ok.mp done
  obtain ⟨_, moved, done⟩ := bind_eq_ok.mp done
  obtain ⟨_, rfl⟩ := checkedAdd_eq_some.mp (ofOption_eq_ok.mp moved)
  cases done
  exact ⟨kind, size, cmd, after, ran, rfl⟩

theorem ScanInv.step [UnstableSort] {start : Nat} (inv : ScanInv bytes start scan) {outer : Bool}
    {profile : Profile} {commands : Bytes}
    (done : scanCommand bytes outer profile commands scan = .ok scan') :
    ScanInv bytes start scan' := by
  obtain ⟨_, _, _, after, ran, rfl⟩ := scanCommand_eq_ok done
  obtain ⟨segments, spent, limit, members⟩ := (loadCommand_eq_ok ran).keeps_inv inv
  exact ⟨segments, spent, limit, members⟩

/-- The whole loop keeps the invariant. -/
theorem ScanInv.run [UnstableSort] {start : Nat} {outer : Bool} {profile : Profile}
    {commands : Bytes}
    {count : Nat} (inv : ScanInv bytes start scan)
    (done : scanCommands bytes outer profile commands count scan = .ok scan') :
    ScanInv bytes start scan' := by
  induction count generalizing scan with
  | zero =>
      cases done
      exact inv
  | succ count ih =>
      obtain ⟨next, first, rest⟩ := bind_eq_ok.mp done
      exact ih (inv.step first) rest

/-- Every segment that the loop has listed was parsed from a command. -/
theorem parsed_of_scanCommands [UnstableSort] {P : SegmentMetadata → Prop} {outer : Bool}
    {profile : Profile} {commands : Bytes} {count : Nat}
    (parsed : ∀ cmd budget s budget', parseSegment bytes cmd budget = .ok (s, budget') → P s)
    (start : ∀ s ∈ scan.segments, P s)
    (done : scanCommands bytes outer profile commands count scan = .ok scan') :
    ∀ s ∈ scan'.segments, P s := by
  induction count generalizing scan with
  | zero =>
      cases done
      exact start
  | succ count ih =>
      obtain ⟨next, first, rest⟩ := bind_eq_ok.mp done
      refine ih ?_ rest
      obtain ⟨_, _, _, after, ran, rfl⟩ := scanCommand_eq_ok first
      rcases loadCommand_cases ran with segment | member | keeps
      · simp only [segmentCommand, bind_eq_ok, pure_eq, ok.injEq] at segment
        obtain ⟨_, _, ⟨s, budget⟩, made, rfl⟩ := segment
        intro r mem
        rcases List.mem_append.mp mem with old | new
        · exact start r old
        · rw [List.mem_singleton.mp new]
          exact parsed _ _ s budget made
      · rw [show after.segments = scan.segments from (filesetCommand_eq_ok member).2.1]
        exact start
      · rw [show after.segments = scan.segments from keeps.segments]
        exact start

/-! ### Chained fixups -/

section Fixups

variable {info : Bytes} {segment : SegmentMetadata} {pageSize pageCount format available : Nat}

theorem validatePageStart_eq_ok {start backed : Nat} {u : Unit}
    (valid : validatePageStart start pageSize backed format = .ok u) :
    start < pageSize ∧ start + pageStartWidth format ≤ backed := by
  simp only [validatePageStart, bind_eq_ok, rejectIf_eq_ok, add_eq_ok] at valid
  obtain ⟨_, inside, _, ⟨_, rfl⟩, fits⟩ := valid
  exact ⟨Nat.lt_of_not_le inside, Nat.le_of_not_lt fits⟩

/-- What the scan of a page has read, and what it adds. -/
inductive PageScanned (info : Bytes) (segment : SegmentMetadata)
    (pageSize pageCount format available : Nat) (scan : PageScan) (page : Nat) : PageScan → Prop
  | none (read : u16At info (22 + page * 2) = .ok 0xffff) :
      PageScanned info segment pageSize pageCount format available scan page
        { scan with startVisits := scan.startVisits + 1 }
  | single {first : Nat} (read : u16At info (22 + page * 2) = .ok first) (some : first ≠ 0xffff)
      (plain : first &&& 0x8000 = 0) (below : first < pageSize)
      (backed : first + pageStartWidth format ≤
        min (segment.file.size - page * pageSize) (segment.memorySize - page * pageSize)) :
      PageScanned info segment pageSize pageCount format available scan page
        ⟨scan.pagesWithFixups + 1, scan.multipleStartPages, scan.startVisits + 1⟩
  | several {first visits : Nat} (read : u16At info (22 + page * 2) = .ok first)
      (some : first ≠ 0xffff) (marked : first &&& 0x8000 ≠ 0)
      (behind : pageCount ≤ first &&& 0x7fff)
      (walked : walkStarts info pageSize
        (min (segment.file.size - page * pageSize) (segment.memorySize - page * pageSize)) format
        (available - (first &&& 0x7fff)) (first &&& 0x7fff) (scan.startVisits + 1) = .ok visits) :
      PageScanned info segment pageSize pageCount format available scan page
        ⟨scan.pagesWithFixups + 1, scan.multipleStartPages + 1, visits⟩

theorem scanPage_eq_ok {scan scan' : PageScan} {page : Nat}
    (scanned : scanPage info segment pageSize pageCount format available scan page = .ok scan') :
    scan.startVisits + 1 ≤ maxPageStartVisits ∧
      PageScanned info segment pageSize pageCount format available scan page scan' := by
  rw [scanPage] at scanned
  obtain ⟨_, added, scanned⟩ := bind_eq_ok.mp scanned
  obtain ⟨_, within, rfl⟩ := addBudget_eq_ok.mp added
  obtain ⟨_, product, scanned⟩ := bind_eq_ok.mp scanned
  obtain ⟨_, rfl⟩ := mul_eq_ok.mp product
  obtain ⟨_, sum, scanned⟩ := bind_eq_ok.mp scanned
  obtain ⟨_, rfl⟩ := add_eq_ok.mp sum
  obtain ⟨first, read, scanned⟩ := bind_eq_ok.mp scanned
  refine ⟨within, ?_⟩
  rcases ite_eq_iff.mp scanned with ⟨none, scanned⟩ | ⟨some', scanned⟩
  · cases scanned
    rw [none] at read
    exact .none read
  obtain ⟨_, counted, scanned⟩ := bind_eq_ok.mp scanned
  obtain ⟨_, rfl⟩ := addU32_eq_ok.mp counted
  obtain ⟨_, product, scanned⟩ := bind_eq_ok.mp scanned
  obtain ⟨_, rfl⟩ := mul_eq_ok.mp product
  rcases ite_eq_iff.mp scanned with ⟨plain, scanned⟩ | ⟨marked, scanned⟩
  · obtain ⟨_, valid, scanned⟩ := bind_eq_ok.mp scanned
    cases scanned
    obtain ⟨below, backed⟩ := validatePageStart_eq_ok valid
    exact .single read some' plain below backed
  · obtain ⟨_, many, scanned⟩ := bind_eq_ok.mp scanned
    obtain ⟨_, rfl⟩ := addU32_eq_ok.mp many
    obtain ⟨_, behind, scanned⟩ := bind_eq_ok.mp scanned
    obtain ⟨visits, walked, scanned⟩ := bind_eq_ok.mp scanned
    cases scanned
    exact .several read some' marked (Nat.le_of_not_lt (rejectIf_eq_ok.mp behind)) walked

/-- What the scan of a segment has read and checked of its block, and what it lists of it. -/
structure BlockScanned (table : FixupTable) (scan : FixupScan) (segment : SegmentMetadata)
    (block : FileRange) (info : FixupSegmentMetadata) (pages : PageScan) : Prop where
  sized : u32At table.data block.offset = .ok block.size
  long : 22 ≤ block.size
  word : block.offset + block.size < 2 ^ 64
  inside : block.offset + block.size ≤ table.data.length
  blocks : anyM (overlaps · block) scan.infoRanges = .ok false
  imports : overlaps block table.importRange = .ok false
  symbols : overlaps block table.symbolRange = .ok false
  pageSize : u16At (window table.data block.offset block.size) 4 = .ok info.pageSize
  pointerFormat : u16At (window table.data block.offset block.size) 6 = .ok info.pointerFormat
  pageCount : u16At (window table.data block.offset block.size) 20 = .ok info.pageCount
  segmentOffset : info.segmentOffset = wrappingSub segment.address table.headerAddress
  array : 22 + info.pageCount * 2 ≤ block.size
  ran : (List.range info.pageCount).foldlM
    (scanPage (window table.data block.offset block.size) segment info.pageSize info.pageCount
      info.pointerFormat ((block.size - 22) / 2)) ⟨0, 0, scan.startVisits⟩ = .ok pages
  counts : info.pagesWithFixups = pages.pagesWithFixups ∧
    info.multipleStartPages = pages.multipleStartPages

/-- A segment has no block, or one that is checked and listed. -/
theorem scanFixupSegment_eq_ok {table : FixupTable} {scan scan' : FixupScan} {position : Nat}
    (scanned : scanFixupSegment table scan (segment, position) = .ok scan') :
    ∃ relative, u32At table.data (table.starts + (4 + position * 4)) = .ok relative ∧
      (relative = 0 ∧ scan' = scan ∨
        relative ≠ 0 ∧ table.tableSize ≤ relative ∧ ∃ block info pages,
          block.offset = table.starts + relative ∧ info.segmentIndex = position ∧
          BlockScanned table scan segment block info pages ∧
          scan' = ⟨scan.infoRanges ++ [block], scan.result ++ [info], pages.startVisits⟩) := by
  simp only [scanFixupSegment] at scanned
  obtain ⟨_, sum, scanned⟩ := bind_eq_ok.mp scanned
  obtain ⟨_, rfl⟩ := add_eq_ok.mp sum
  obtain ⟨_, product, scanned⟩ := bind_eq_ok.mp scanned
  obtain ⟨_, rfl⟩ := mul_eq_ok.mp product
  obtain ⟨_, sum, scanned⟩ := bind_eq_ok.mp scanned
  obtain ⟨_, rfl⟩ := add_eq_ok.mp sum
  obtain ⟨relative, read, scanned⟩ := bind_eq_ok.mp scanned
  rw [Nat.add_assoc] at read
  refine ⟨relative, read, ?_⟩
  rcases ite_eq_iff.mp scanned with ⟨zero, scanned⟩ | ⟨nonzero, scanned⟩
  · cases scanned
    exact .inl ⟨zero, rfl⟩
  obtain ⟨_, behind, scanned⟩ := bind_eq_ok.mp scanned
  refine .inr ⟨nonzero, Nat.le_of_not_lt (rejectIf_eq_ok.mp behind), ?_⟩
  obtain ⟨start, sum, scanned⟩ := bind_eq_ok.mp scanned
  obtain ⟨_, rfl⟩ := checkedAdd_eq_some.mp (ofOption_eq_ok.mp sum)
  obtain ⟨size, sized, scanned⟩ := bind_eq_ok.mp scanned
  obtain ⟨_, long, scanned⟩ := bind_eq_ok.mp scanned
  obtain ⟨_, roomy, scanned⟩ := bind_eq_ok.mp scanned
  obtain ⟨_, rfl⟩ := sub_eq_ok.mp roomy
  obtain ⟨_, _, scanned⟩ := bind_eq_ok.mp scanned
  obtain ⟨_, sliced, scanned⟩ := bind_eq_ok.mp scanned
  obtain ⟨word, inside, rfl⟩ := slice_eq_ok.mp sliced
  obtain ⟨blocks, scanned⟩ := bind_rejectIf_eq_ok.mp scanned
  obtain ⟨imports, scanned⟩ := bind_rejectIf_eq_ok.mp scanned
  obtain ⟨symbols, scanned⟩ := bind_rejectIf_eq_ok.mp scanned
  obtain ⟨_, paged, scanned⟩ := bind_eq_ok.mp scanned
  obtain ⟨_, formatted, scanned⟩ := bind_eq_ok.mp scanned
  obtain ⟨segmentOffset, _, scanned⟩ := bind_eq_ok.mp scanned
  obtain ⟨_, counted, scanned⟩ := bind_eq_ok.mp scanned
  obtain ⟨_, same, scanned⟩ := bind_eq_ok.mp scanned
  iterate 2 obtain ⟨_, _, scanned⟩ := bind_eq_ok.mp scanned
  obtain ⟨_, few, scanned⟩ := bind_eq_ok.mp scanned
  obtain ⟨pages, ran, scanned⟩ := bind_eq_ok.mp scanned
  cases scanned
  rw [rejectIf_eq_ok] at long same few
  refine ⟨⟨table.starts + relative, size⟩, _, pages, rfl, rfl, ?_, rfl⟩
  exact {
    sized
    long := Nat.le_of_not_lt long
    word
    inside
    blocks
    imports
    symbols
    pageSize := paged
    pointerFormat := formatted
    pageCount := counted
    segmentOffset := not_not.mp (not_or.mp same).1
    array := by
      dsimp only
      omega
    ran
    counts := ⟨rfl, rfl⟩ }

/-- What is read and checked of a blob in front of the loop over its segments, and the loop. -/
structure FixupsParsed (bytes : Bytes) (file : FileRange) (segments : List SegmentMetadata)
    (headerAddress : Nat) (fixups : ChainedFixupMetadata) (table : FixupTable) (scan : FixupScan) :
    Prop where
  same : fixups.file = file
  inside : file.offset + file.size ≤ bytes.length
  data : table.data = window bytes file.offset file.size
  headerAddress : table.headerAddress = headerAddress
  head : 28 ≤ table.data.length
  starts : u32At table.data 4 = .ok table.starts
  imports : u32At table.data 8 = .ok table.importRange.offset
  symbols : u32At table.data 12 = .ok table.symbolRange.offset
  importSize : ∃ count format width, u32At table.data 16 = .ok count ∧
    u32At table.data 20 = .ok format ∧ importWidth format = some width ∧
    table.importRange.size = count * width
  symbolSize : table.symbolRange.size = table.data.length - table.symbolRange.offset
  tableSize : table.tableSize = 4 + segments.length * 4
  low : 28 ≤ table.starts ∧ 28 ≤ table.importRange.offset ∧ 28 ≤ table.symbolRange.offset
  startsInside : table.starts + table.tableSize ≤ table.data.length
  importsInside : table.importRange.offset + table.importRange.size ≤ table.data.length
  symbolsInside : table.symbolRange.offset ≤ table.data.length
  importsSymbols : overlaps table.importRange table.symbolRange = .ok false
  startsImports : overlaps ⟨table.starts, table.tableSize⟩ table.importRange = .ok false
  startsSymbols : overlaps ⟨table.starts, table.tableSize⟩ table.symbolRange = .ok false
  count : u32At table.data table.starts = .ok segments.length
  ran : segments.zipIdx.foldlM (scanFixupSegment table) ⟨[], [], 0⟩ = .ok scan
  result : fixups.segments = scan.result

theorem parseFixups_eq_ok {file : FileRange} {segments : List SegmentMetadata} {headerAddress : Nat}
    {fixups : ChainedFixupMetadata}
    (parsed : parseFixups bytes file segments headerAddress = .ok fixups) :
    ∃ table scan, FixupsParsed bytes file segments headerAddress fixups table scan := by
  unfold parseFixups at parsed
  obtain ⟨_, _, parsed⟩ := bind_eq_ok.mp parsed
  obtain ⟨_, sliced, parsed⟩ := bind_eq_ok.mp parsed
  obtain ⟨_, inside, rfl⟩ := range_eq_ok.mp sliced
  obtain ⟨_, head, parsed⟩ := bind_eq_ok.mp parsed
  obtain ⟨_, head, _⟩ := slice_eq_ok.mp head
  -- The version.
  iterate 2 obtain ⟨_, _, parsed⟩ := bind_eq_ok.mp parsed
  obtain ⟨starts, at_starts, parsed⟩ := bind_eq_ok.mp parsed
  obtain ⟨imports, at_imports, parsed⟩ := bind_eq_ok.mp parsed
  obtain ⟨symbols, at_symbols, parsed⟩ := bind_eq_ok.mp parsed
  obtain ⟨importsCount, at_count, parsed⟩ := bind_eq_ok.mp parsed
  obtain ⟨importsFormat, at_format, parsed⟩ := bind_eq_ok.mp parsed
  obtain ⟨_, _, parsed⟩ := bind_eq_ok.mp parsed
  obtain ⟨_, low, parsed⟩ := bind_eq_ok.mp parsed
  simp only [rejectIf_eq_ok, not_or, Nat.not_lt] at low
  obtain ⟨width, known, parsed⟩ := bind_eq_ok.mp parsed
  obtain ⟨_, found, parsed⟩ := bind_eq_ok.mp parsed
  obtain ⟨rfl, _, _, imports_inside⟩ := fileRange_eq_ok.mp found
  obtain ⟨_, sized, parsed⟩ := bind_eq_ok.mp parsed
  obtain ⟨symbols_inside, rfl⟩ := sub_eq_ok.mp sized
  obtain ⟨importsSymbols, parsed⟩ := bind_rejectIf_eq_ok.mp parsed
  obtain ⟨_, counted, parsed⟩ := bind_eq_ok.mp parsed
  obtain ⟨_, same, parsed⟩ := bind_eq_ok.mp parsed
  obtain rfl := not_not.mp (rejectIf_eq_ok.mp same)
  obtain ⟨_, product, parsed⟩ := bind_eq_ok.mp parsed
  obtain ⟨_, rfl⟩ := mul_eq_ok.mp product
  obtain ⟨_, sum, parsed⟩ := bind_eq_ok.mp parsed
  obtain ⟨_, rfl⟩ := add_eq_ok.mp sum
  obtain ⟨_, table, parsed⟩ := bind_eq_ok.mp parsed
  obtain ⟨_, starts_inside, _⟩ := slice_eq_ok.mp table
  obtain ⟨startsImports, parsed⟩ := bind_rejectIf_eq_ok.mp parsed
  obtain ⟨startsSymbols, parsed⟩ := bind_rejectIf_eq_ok.mp parsed
  obtain ⟨scan, ran, parsed⟩ := bind_eq_ok.mp parsed
  cases parsed
  refine ⟨⟨window bytes file.offset file.size, starts, 4 + segments.length * 4,
    ⟨imports, importsCount * width⟩,
    ⟨symbols, (window bytes file.offset file.size).length - symbols⟩, headerAddress⟩, scan, ?_⟩
  exact {
    same := rfl
    inside
    data := rfl
    headerAddress := rfl
    head
    starts := at_starts
    imports := at_imports
    symbols := at_symbols
    importSize := ⟨_, _, width, at_count, at_format, ofOption_eq_ok.mp known, rfl⟩
    symbolSize := rfl
    tableSize := rfl
    low := ⟨low.1, low.2.1, low.2.2.1⟩
    startsInside := starts_inside
    importsInside := imports_inside
    symbolsInside := symbols_inside
    importsSymbols
    startsImports
    startsSymbols
    count := counted
    ran
    result := rfl }

end Fixups

/-! ### The image -/

/-- No two segments share an address or a file offset. -/
structure Nonoverlap (segments : List SegmentMetadata) : Prop where
  memory : (segments.filter (·.memorySize ≠ 0)).Pairwise fun a b => a.memory.Apart b.memory
  files : (segments.filter (·.file.size ≠ 0)).Pairwise fun a b => a.file.span.Apart b.file.span

theorem nonoverlap_of_validate [UnstableSort] {segments : List SegmentMetadata} {u : Unit}
    (valid : validateNonoverlap segments = .ok u) : Nonoverlap segments := by
  simp only [validateNonoverlap, bind_eq_ok, exists_const, forWindows_eq_ok, rangeEnd_eq_ok,
    rejectIf_eq_ok, not_lt, Bool.not_eq_true] at valid
  obtain ⟨by_address, by_file⟩ := valid
  constructor
  · refine UnstableSort.pairwise_apart_of_sortByKey (·.address) (List.IsChain.imp ?_ by_address)
    rintro a b ⟨stop, ⟨_, rfl⟩, before⟩
    exact before
  · refine UnstableSort.pairwise_apart_of_neighbours ?_ ?_
    · intro s mem
      exact Nat.pos_of_ne_zero (of_decide_eq_true (List.mem_filter.mp mem).2)
    · refine List.IsChain.imp_of_mem_imp (fun a b ha hb tested => ?_) by_file
      obtain ⟨hit, overlap, miss⟩ := tested
      rw [miss] at overlap
      refine apart_of_overlaps overlap ?_ ?_
      · exact of_decide_eq_true (List.mem_filter.mp (UnstableSort.mem_sortByKey.mp ha)).2
      · exact of_decide_eq_true (List.mem_filter.mp (UnstableSort.mem_sortByKey.mp hb)).2

/-- The header and the load commands, in the file. -/
def ImageMetadata.header (image : ImageMetadata) : Span :=
  ⟨image.headerFileOffset, 32 + image.commandBytes⟩

/-- The header and the load commands, in memory. -/
def ImageMetadata.headerMemory (image : ImageMetadata) : Span :=
  ⟨image.headerAddress, 32 + image.commandBytes⟩

/-- The file range is part of the segment's, and the address is as far into the segment's
memory as the range is into its file range. -/
structure SegmentMetadata.Views (s : SegmentMetadata) (file : Span) (address : Nat) : Prop where
  within : file.Within s.file.span
  above : s.address ≤ address
  displacement : address - s.address = file.start - s.file.offset

/-- What is known of a parsed image. -/
structure ImageInv (bytes : Bytes) (image : ImageMetadata) : Prop where
  each : ∀ s ∈ image.segments, SegmentOk bytes s
  nonoverlap : Nonoverlap image.segments
  header : ∃ s ∈ image.segments, s.Views image.header image.headerAddress

theorem views_of_headerIn {base size address : Nat} {s : SegmentMetadata}
    (found : headerIn base size s = .ok (some address)) : s.Views ⟨base, size⟩ address := by
  unfold headerIn at found
  rcases ite_eq_iff.mp found with ⟨inside, found⟩ | ⟨_, found⟩
  · obtain ⟨within, _, _⟩ := contains_iff.mp inside
    simp only [bind_eq_ok, sub_eq_ok, pure_eq, ok.injEq] at found
    obtain ⟨displacement, ⟨_, rfl⟩, added⟩ := found
    obtain ⟨_, rfl⟩ := checkedAdd_eq_some.mp added
    exact ⟨within, Nat.le_add_right _ _, Nat.add_sub_cancel_left _ _⟩
  · cases found

/-- What a parse has found of an image, with the scan of its load commands. -/
structure ImageParsed [UnstableSort] (bytes : Bytes) (base : Nat) (outer : Bool)
    (profile : Profile) (budget : Budget) (parsed : ParsedImage) (scan : CommandScan) : Prop where
  headerFileOffset : parsed.image.headerFileOffset = base
  ran : ∃ commands count spent, scanCommands bytes outer profile commands count
    (.start { budget with commands := spent }) = .ok scan
  nonempty : scan.segments ≠ []
  valid : validateNonoverlap scan.segments = .ok ()
  header : ∃ s ∈ scan.segments, headerIn base (32 + parsed.image.commandBytes) s =
    .ok (some parsed.image.headerAddress)
  segments : parsed.image.segments = scan.segments
  members : parsed.members = scan.members
  relocations : parseRelocations bytes scan = .ok parsed.image.relocations
  fixups : parseFixupRange bytes scan parsed.image.headerAddress = .ok parsed.image.chainedFixups

theorem parsed_of_parseImage [UnstableSort] {base : Nat} {outer : Bool} {profile : Profile}
    {budget budget' : Budget} {parsed : ParsedImage}
    (done : parseImage bytes base outer profile budget = .ok (parsed, budget')) :
    ∃ scan, ImageParsed bytes base outer profile budget parsed scan ∧ budget' = scan.budget := by
  unfold parseImage at done
  -- The header and its checks, the budget, and the bytes of the commands.
  iterate 16 obtain ⟨_, _, done⟩ := bind_eq_ok.mp done
  obtain ⟨scan, ran, done⟩ := bind_eq_ok.mp done
  obtain ⟨_, ended, done⟩ := bind_eq_ok.mp done
  obtain ⟨_, valid, done⟩ := bind_eq_ok.mp done
  obtain ⟨headerSize, sized, done⟩ := bind_eq_ok.mp done
  obtain ⟨_, rfl⟩ := add_eq_ok.mp sized
  obtain ⟨_, search, done⟩ := bind_eq_ok.mp done
  obtain ⟨headerAddress, present, done⟩ := bind_eq_ok.mp done
  -- The linkedit ranges.
  iterate 2 obtain ⟨_, _, done⟩ := bind_eq_ok.mp done
  obtain ⟨relocations, dynamic, done⟩ := bind_eq_ok.mp done
  obtain ⟨chainedFixups, chained, done⟩ := bind_eq_ok.mp done
  obtain ⟨_, _, done⟩ := bind_eq_ok.mp done
  cases done
  rw [ofOption_eq_ok] at present
  subst present
  refine ⟨scan, ?_, rfl⟩
  exact {
    headerFileOffset := rfl
    ran := ⟨_, _, _, ran⟩
    nonempty := fun none => (not_or.mp (rejectIf_eq_ok.mp ended)).2 (List.isEmpty_iff.mpr none)
    valid
    header := exists_of_findMapM search
    segments := rfl
    members := rfl
    relocations := dynamic
    fixups := chained }

/-- A parsed image satisfies its invariant, and its segments are paid for. -/
theorem parseImage_eq_ok [UnstableSort] {base : Nat} {outer : Bool} {profile : Profile}
    {budget budget' : Budget} {parsed : ParsedImage}
    (done : parseImage bytes base outer profile budget = .ok (parsed, budget'))
    (within : budget.segments ≤ maxSegments) :
    ImageInv bytes parsed.image ∧ parsed.image.headerFileOffset = base ∧
      parsed.members.length ≤ maxMembers ∧
      budget'.segments = budget.segments + parsed.image.segments.length ∧
      budget'.segments ≤ maxSegments := by
  obtain ⟨scan, found, rfl⟩ := parsed_of_parseImage done
  obtain ⟨_, _, spent, ran⟩ := found.ran
  obtain ⟨s, mem, header⟩ := found.header
  obtain ⟨segments, counted, limit, members⟩ :=
    (ScanInv.start { budget with commands := spent } within).run ran
  rw [found.members, found.segments]
  refine ⟨⟨?_, ?_, s, ?_, ?_⟩, found.headerFileOffset, members, counted, limit⟩
  · rw [found.segments]
    exact segments
  · rw [found.segments]
    exact nonoverlap_of_validate found.valid
  · rw [found.segments]
    exact mem
  · rw [ImageMetadata.header, found.headerFileOffset]
    exact views_of_headerIn header

end Nextcore.KernelCollection
