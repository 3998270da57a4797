import Nextcore.FixupAudit.Verdict

/-!
The start tables of an accepted collection, at their places in the source.

The inspector reads a fixup blob as a slice and each table of starts as a slice of that; the audit
reads both where they lie in the source. `PageStarts` and `FixupsOk` say what the tables hold in
the audit's terms, and the lemmas here find that the inspector has checked it.
-/

namespace Nextcore.FixupAudit

open Checked Checked.Outcome KernelCollection

/-! ### Start tables -/

/-- The starts that are listed from an offset on, up to the one that carries the last bit, all of
them before `stop`. -/
inductive Listed (source : Bytes) (stop : Nat) : Nat → List Nat → Prop
  | last {at' : Nat} (inside : at' + 2 ≤ stop) (ends : leAt source at' 2 &&& 0x8000 ≠ 0) :
      Listed source stop at' [leAt source at' 2 &&& 0x7fff]
  | more {at' : Nat} {rest : List Nat} (inside : at' + 2 ≤ stop)
      (goes : leAt source at' 2 &&& 0x8000 = 0) (later : Listed source stop (at' + 2) rest) :
      Listed source stop at' ((leAt source at' 2 &&& 0x7fff) :: rest)

theorem Listed.inside {source : Bytes} {stop at' : Nat} {starts : List Nat}
    (listed : Listed source stop at' starts) : at' + 2 ≤ stop := by
  cases listed with
  | last inside ends => exact inside
  | more inside goes later => exact inside

/-- The chain starts of a page, as the table at an offset has them: none, a single one, or those
of a list inside the table. -/
inductive PageStarts (source : Bytes) (table stop page : Nat) : List Nat → Prop
  | none (first : leAt source (table + (22 + page * 2)) 2 = 0xffff) :
      PageStarts source table stop page []
  | single {first : Nat} (read : leAt source (table + (22 + page * 2)) 2 = first)
      (some' : first ≠ 0xffff) (plain : first &&& 0x8000 = 0) :
      PageStarts source table stop page [first]
  | several {first : Nat} {starts : List Nat}
      (read : leAt source (table + (22 + page * 2)) 2 = first) (some' : first ≠ 0xffff)
      (marked : first &&& 0x8000 ≠ 0)
      (listed : Listed source stop (table + (22 + (first &&& 0x7fff) * 2)) starts) :
      PageStarts source table stop page starts

/-- A list has one end. -/
theorem Listed.unique {source : Bytes} {stop at' : Nat} {starts starts' : List Nat}
    (listed : Listed source stop at' starts) (listed' : Listed source stop at' starts') :
    starts = starts' := by
  induction listed generalizing starts' with
  | last inside ends =>
      cases listed' with
      | last inside' ends' => rfl
      | more inside' goes' later' => exact absurd goes' ends
  | more inside goes later ih =>
      cases listed' with
      | last inside' ends' => exact absurd goes ends'
      | more inside' goes' later' => rw [ih later']

theorem PageStarts.unique {source : Bytes} {table stop page : Nat} {starts starts' : List Nat}
    (has : PageStarts source table stop page starts)
    (has' : PageStarts source table stop page starts') : starts = starts' := by
  cases has with
  | none first =>
      cases has' with
      | none first' => rfl
      | single read some' plain => exact absurd (read.symm.trans first) some'
      | several read some' marked listed => exact absurd (read.symm.trans first) some'
  | single read some' plain =>
      subst read
      cases has' with
      | none first => exact absurd first some'
      | single read' some'' plain' => rw [read']
      | several read' some'' marked listed =>
          rw [← read'] at marked
          exact absurd plain marked
  | several read some' marked listed =>
      subst read
      cases has' with
      | none first => exact absurd first some'
      | single read' some'' plain' =>
          rw [← read'] at plain'
          exact absurd plain' marked
      | several read' some'' marked' listed' =>
          rw [← read'] at listed'
          exact listed.unique listed'

/-- A chain start of a segment, single or listed, in the table at an offset. -/
structure StartOf (source : Bytes) (index : Nat) (image : ImageMetadata)
    (info : FixupSegmentMetadata) (table : Nat) (c : ChainStart) : Prop where
  imageIndex : c.imageIndex = index
  segmentIndex : c.segmentIndex = info.segmentIndex
  segment : image.segments[info.segmentIndex]? = some c.segment
  pageSize : c.pageSize = info.pageSize
  page : c.pageIndex < info.pageCount
  start : ∃ starts, PageStarts source table (table + leAt source table 4) c.pageIndex starts ∧
    c.start ∈ starts

/-- The field at a start begins in its page and ends in the file-backed bytes of its segment. -/
structure StartFits (segment : SegmentMetadata) (info : FixupSegmentMetadata) (page start : Nat) :
    Prop where
  inPage : start < info.pageSize
  inFile : page * info.pageSize + start + pageStartWidth info.pointerFormat ≤ segment.file.size
  inMemory : page * info.pageSize + start + pageStartWidth info.pointerFormat ≤ segment.memorySize

/-- The table of starts of a segment lies in the source, and each page has its starts in it. -/
structure TableOk (source : Bytes) (segment : SegmentMetadata) (info : FixupSegmentMetadata)
    (table : Nat) : Prop where
  inside : table + 4 ≤ source.length
  block : table + leAt source table 4 ≤ source.length
  pageSize : info.pageSize < 2 ^ 16
  pageCount : info.pageCount < 2 ^ 16
  pages : ∀ page < info.pageCount,
    22 + page * 2 + 2 ≤ leAt source table 4 ∧
      ∃ starts, PageStarts source table (table + leAt source table 4) page starts ∧
        ∀ start ∈ starts, StartFits segment info page start

/-- What has been checked of a segment with fixups, in the table of starts at an offset. -/
def EntryOk (source : Bytes) (segments : List SegmentMetadata) (headerAddress starts : Nat)
    (info : FixupSegmentMetadata) : Prop :=
  ∃ segment, segments[info.segmentIndex]? = some segment ∧
    info.segmentOffset = wrappingSub segment.address headerAddress ∧
    starts + (4 + info.segmentIndex * 4) + 4 ≤ source.length ∧
    TableOk source segment info (starts + leAt source (starts + (4 + info.segmentIndex * 4)) 4)

/-- What has been checked of the fixups of an image. -/
structure FixupsOk (source : Bytes) (segments : List SegmentMetadata) (headerAddress : Nat)
    (fixups : ChainedFixupMetadata) : Prop where
  header : fixups.file.offset + 8 ≤ source.length
  each : ∀ info ∈ fixups.segments, EntryOk source segments headerAddress
    (fixups.file.offset + leAt source (fixups.file.offset + 4) 4) info

/-! ### Slices of slices -/

section Slices

variable {source : Bytes} {a size offset n : Nat}

theorem slice_window {word : Bytes} {width : Nat}
    (sliced : slice (window source a size) offset width = .ok word)
    (inside : a + size ≤ source.length) :
    offset + width ≤ size ∧ word = window source (a + offset) width := by
  obtain ⟨_, fits, rfl⟩ := slice_eq_ok.mp sliced
  rw [length_window inside] at fits
  exact ⟨fits, window_window source fits⟩

theorem u16At_window (read : u16At (window source a size) offset = .ok n)
    (inside : a + size ≤ source.length) :
    offset + 2 ≤ size ∧ n = leAt source (a + offset) 2 := by
  obtain ⟨word, sliced, done⟩ := bind_eq_ok.mp read
  obtain ⟨fits, rfl⟩ := slice_window sliced inside
  cases done
  exact ⟨fits, rfl⟩

theorem u32At_window (read : u32At (window source a size) offset = .ok n)
    (inside : a + size ≤ source.length) :
    offset + 4 ≤ size ∧ n = leAt source (a + offset) 4 := by
  obtain ⟨word, sliced, done⟩ := bind_eq_ok.mp read
  obtain ⟨fits, rfl⟩ := slice_window sliced inside
  cases done
  exact ⟨fits, rfl⟩

end Slices

/-! ### Pages -/

section Pages

variable {source : Bytes} {a size pageSize format : Nat}

/-- A list that the inspector has walked ends inside the table, and each start in it was checked. -/
theorem listed_of_walkStarts {backed remaining cursor visits visits' : Nat}
    (inside : a + size ≤ source.length)
    (walked : KernelCollection.walkStarts (window source a size) pageSize backed format remaining
      cursor visits = .ok visits') :
    ∃ starts, Listed source (a + size) (a + (22 + cursor * 2)) starts ∧
      ∀ start ∈ starts, start < pageSize ∧ start + pageStartWidth format ≤ backed := by
  induction remaining generalizing cursor visits with
  | zero =>
      obtain ⟨_, _, failed⟩ := bind_eq_ok.mp walked
      cases failed
  | succ remaining ih =>
      rw [KernelCollection.walkStarts] at walked
      obtain ⟨next, _, walked⟩ := bind_eq_ok.mp walked
      obtain ⟨_, product, walked⟩ := bind_eq_ok.mp walked
      obtain ⟨_, rfl⟩ := mul_eq_ok.mp product
      obtain ⟨_, sum, walked⟩ := bind_eq_ok.mp walked
      obtain ⟨_, rfl⟩ := add_eq_ok.mp sum
      obtain ⟨value, read, walked⟩ := bind_eq_ok.mp walked
      obtain ⟨fits, rfl⟩ := u16At_window read inside
      obtain ⟨_, valid, walked⟩ := bind_eq_ok.mp walked
      have checked := validatePageStart_eq_ok valid
      split at walked
      · next ends => exact ⟨_, .last (by omega) ends, List.forall_mem_singleton.mpr checked⟩
      · next goes =>
          obtain ⟨_, moved, walked⟩ := bind_eq_ok.mp walked
          obtain ⟨_, rfl⟩ := add_eq_ok.mp moved
          obtain ⟨starts, listed, each⟩ := ih walked
          rw [show a + (22 + (cursor + 1) * 2) = a + (22 + cursor * 2) + 2 by omega] at listed
          exact ⟨_, .more (by omega) (not_not.mp goes) listed,
            List.forall_mem_cons.mpr ⟨checked, each⟩⟩

/-- A page that the inspector has scanned has its starts, which it has checked. -/
theorem pageStarts_of_scanPage {segment : SegmentMetadata} {pageCount available page : Nat}
    {scan scan' : PageScan} (inside : a + size ≤ source.length)
    (scanned : scanPage (window source a size) segment pageSize pageCount format available scan
      page = .ok scan') :
    22 + page * 2 + 2 ≤ size ∧ ∃ starts, PageStarts source a (a + size) page starts ∧
      ∀ start ∈ starts, start < pageSize ∧
        page * pageSize + start + pageStartWidth format ≤ segment.file.size ∧
        page * pageSize + start + pageStartWidth format ≤ segment.memorySize := by
  have positive : 0 < pageStartWidth format := by
    unfold pageStartWidth
    split <;> decide
  -- The bytes that are left behind the page offset are those of both sizes.
  have backed {start : Nat} (below : start < pageSize) (room : start + pageStartWidth format ≤
      min (segment.file.size - page * pageSize) (segment.memorySize - page * pageSize)) :
      start < pageSize ∧
        page * pageSize + start + pageStartWidth format ≤ segment.file.size ∧
        page * pageSize + start + pageStartWidth format ≤ segment.memorySize := by
    rw [Nat.le_min] at room
    exact ⟨below, by omega, by omega⟩
  cases (scanPage_eq_ok scanned).2 with
  | none read =>
      obtain ⟨fits, none⟩ := u16At_window read inside
      exact ⟨fits, [], .none none.symm, List.forall_mem_nil _⟩
  | @single first read some' plain below room =>
      obtain ⟨fits, first_eq⟩ := u16At_window read inside
      exact ⟨fits, [first], .single first_eq.symm some' plain,
        List.forall_mem_singleton.mpr (backed below room)⟩
  | several read some' marked behind walked =>
      obtain ⟨fits, first_eq⟩ := u16At_window read inside
      obtain ⟨starts, listed, each⟩ := listed_of_walkStarts inside walked
      exact ⟨fits, starts, .several first_eq.symm some' marked listed,
        fun start mem => backed (each start mem).1 (each start mem).2⟩

end Pages

/-! ### Blobs -/

section Blobs

variable {source : Bytes} {file : FileRange}

/-- A segment that the inspector has scanned has no fixups, or a table of starts in the source. -/
theorem tableOk_of_scanFixupSegment {table : FixupTable} {scan scan' : FixupScan}
    {segment : SegmentMetadata} {position : Nat}
    (inside : file.offset + file.size ≤ source.length)
    (blob : table.data = window source file.offset file.size)
    (scanned : scanFixupSegment table scan (segment, position) = .ok scan') :
    scan'.result = scan.result ∨ ∃ info, scan'.result = scan.result ++ [info] ∧
      info.segmentIndex = position ∧
      info.segmentOffset = wrappingSub segment.address table.headerAddress ∧
      file.offset + table.starts + (4 + position * 4) + 4 ≤ source.length ∧
      TableOk source segment info (file.offset + table.starts +
        leAt source (file.offset + table.starts + (4 + position * 4)) 4) := by
  obtain ⟨relative, read, ⟨_, rfl⟩ | ⟨_, _, block, info, pages, place, rfl, checked, rfl⟩⟩ :=
    scanFixupSegment_eq_ok scanned
  · exact .inl rfl
  rw [blob] at read
  obtain ⟨entry, relative_eq⟩ := u32At_window read inside
  rw [← Nat.add_assoc] at relative_eq
  have sized := checked.sized
  have within := checked.inside
  have pageSize := checked.pageSize
  have pageCount := checked.pageCount
  have ran := checked.ran
  rw [blob, length_window inside] at within
  rw [blob] at sized
  rw [blob, window_window source within] at pageSize pageCount ran
  obtain ⟨size_inside, size_eq⟩ := u32At_window sized inside
  have block_inside : file.offset + block.offset + block.size ≤ source.length := by omega
  obtain ⟨first, pageSize_eq⟩ := u16At_window pageSize block_inside
  obtain ⟨counted, pageCount_eq⟩ := u16At_window pageCount block_inside
  refine .inr ⟨info, rfl, rfl, checked.segmentOffset, by omega, ?_⟩
  rw [← relative_eq, Nat.add_assoc, ← place]
  constructor
  · omega
  · rw [← size_eq]
    exact block_inside
  · rw [pageSize_eq]
    exact Audit.leAt_lt (by omega)
  · rw [pageCount_eq]
    exact Audit.leAt_lt (by omega)
  · intro page below
    obtain ⟨_, _, round⟩ := rounds_of_foldlM ran page (List.mem_range.mpr below)
    obtain ⟨fits, starts, has, each⟩ := pageStarts_of_scanPage block_inside round
    rw [← size_eq]
    refine ⟨fits, starts, has, fun start mem => ?_⟩
    obtain ⟨inPage, inFile, inMemory⟩ := each start mem
    exact ⟨inPage, inFile, inMemory⟩

/-- The loop over the segments lists those with fixups, each checked. -/
theorem entriesOk_of_scan {table : FixupTable} {segments : List SegmentMetadata}
    {scan scan' : FixupScan} (inside : file.offset + file.size ≤ source.length)
    (blob : table.data = window source file.offset file.size)
    (known : ∀ info ∈ scan.result,
      EntryOk source segments table.headerAddress (file.offset + table.starts) info)
    (ran : segments.zipIdx.foldlM (scanFixupSegment table) scan = .ok scan') :
    ∀ info ∈ scan'.result,
      EntryOk source segments table.headerAddress (file.offset + table.starts) info := by
  have all : Ensures (fun scan => ∀ info ∈ scan.result,
      EntryOk source segments table.headerAddress (file.offset + table.starts) info)
      (segments.zipIdx.foldlM (scanFixupSegment table) scan) := by
    refine ensures_foldlM known ?_
    intro scan known entry entry_mem scan' scanned
    obtain ⟨segment, position⟩ := entry
    rcases tableOk_of_scanFixupSegment inside blob scanned with same | ⟨info, more, rfl, rest⟩
    · rw [same]
      exact known
    · intro other mem
      rw [more] at mem
      rcases List.mem_append.mp mem with old | new
      · exact known other old
      · rw [List.mem_singleton.mp new]
        exact ⟨segment, List.mem_zipIdx_iff_getElem?.mp entry_mem, rest⟩
  exact all scan' ran

/-- The fixups that the inspector returns have been checked. -/
theorem fixupsOk_of_parseFixups {segments : List SegmentMetadata} {headerAddress : Nat}
    {fixups : ChainedFixupMetadata}
    (parsed : parseFixups source file segments headerAddress = .ok fixups) :
    FixupsOk source segments headerAddress fixups := by
  obtain ⟨table, scan, found⟩ := parseFixups_eq_ok parsed
  have read := found.starts
  rw [found.data] at read
  obtain ⟨head, starts_eq⟩ := u32At_window read found.inside
  have each := entriesOk_of_scan found.inside found.data
    (fun info mem => absurd mem List.not_mem_nil) found.ran
  rw [starts_eq, found.headerAddress, ← found.result] at each
  have inside := found.inside
  constructor
  · rw [found.same]
    omega
  · rw [found.same]
    exact each

end Blobs

/-! ### Images -/

/-- A table of classic entries in the source. -/
structure EntriesOk (source : Bytes) (table : FileRange) : Prop where
  whole : 8 ∣ table.size
  inside : table.offset + table.size ≤ source.length

/-- What the inspector has checked of the fixups of an image. -/
structure ImageOk (source : Bytes) (image : ImageMetadata) : Prop where
  some' : image.segments ≠ []
  sections : ∀ s ∈ image.segments, ∀ sec ∈ s.sections, EntriesOk source sec.relocations
  dynamic : ∀ r ∈ image.relocations, EntriesOk source r.localRange ∧ EntriesOk source r.external
  fixups : ∀ fixups ∈ image.chainedFixups,
    FixupsOk source image.segments image.headerAddress fixups

section Images

variable {source : Bytes}

theorem entriesOk_of_fileRange {offset count : Nat} {table : FileRange}
    (found : fileRange source offset count 8 = .ok table) : EntriesOk source table := by
  obtain ⟨rfl, _, _, inside⟩ := fileRange_eq_ok.mp found
  exact ⟨Nat.dvd_mul_left 8 count, inside⟩

theorem entriesOk_of_commandRange {cmd : Bytes} {at' : Nat} {table : FileRange}
    (found : commandRange source cmd at' 8 = .ok table) : EntriesOk source table := by
  obtain ⟨_, _, found⟩ := bind_eq_ok.mp found
  obtain ⟨_, _, found⟩ := bind_eq_ok.mp found
  exact entriesOk_of_fileRange found

theorem entriesOk_of_parseSection {cmd s : Bytes} {address memorySize : Nat} {file : FileRange} :
    Ensures (fun sec => EntriesOk source sec.relocations)
      (parseSection source cmd address memorySize file s) := by
  have finish : ∀ whole : FileRange → SectionMetadata,
      (∀ table, (whole table).relocations = table) →
      Ensures (fun sec : SectionMetadata => EntriesOk source sec.relocations) (do
        let offset ← u32At s 56
        let count ← u32At s 60
        let relocations ← fileRange source offset count 8
        pure (whole relocations)) := by
    intro whole kept
    refine ensures_bind fun offset _ => ensures_bind fun count _ =>
      ensures_bind fun table found => ?_
    refine ensures_ok ?_
    rw [kept]
    exact entriesOk_of_fileRange found
  rw [parseSection]
  -- The fields of the section and its place in the segment.
  iterate 15 refine ensures_bind fun _ _ => ?_
  split
  · iterate 4 refine ensures_bind fun _ _ => ?_
    exact finish _ fun _ => rfl
  · exact finish _ fun _ => rfl

theorem entriesOk_of_parseSegment [UnstableSort] {cmd : Bytes} {budget budget' : Budget}
    {s : SegmentMetadata} (parsed : parseSegment source cmd budget = .ok (s, budget')) :
    ∀ sec ∈ s.sections, EntriesOk source sec.relocations := by
  obtain ⟨table, each⟩ := (parsed_of_parseSegment parsed).1.sections
  intro sec mem
  obtain ⟨chunk, _, made⟩ := exists_of_mem_collect each mem
  exact entriesOk_of_parseSection sec made

theorem entriesOk_of_parseRelocations {scan : CommandScan} {relocations : Option RelocationMetadata}
    (parsed : parseRelocations source scan = .ok relocations) :
    ∀ r ∈ relocations, EntriesOk source r.localRange ∧ EntriesOk source r.external := by
  unfold parseRelocations at parsed
  split at parsed
  · cases parsed
    nofun
  · iterate 2 obtain ⟨_, _, parsed⟩ := bind_eq_ok.mp parsed
    obtain ⟨localRange, at_local, parsed⟩ := bind_eq_ok.mp parsed
    obtain ⟨external, at_external, parsed⟩ := bind_eq_ok.mp parsed
    iterate 2 obtain ⟨_, _, parsed⟩ := bind_eq_ok.mp parsed
    cases parsed
    rintro r ⟨rfl⟩
    exact ⟨entriesOk_of_commandRange at_local, entriesOk_of_commandRange at_external⟩

theorem fixupsOk_of_parseFixupRange {scan : CommandScan} {headerAddress : Nat}
    {chainedFixups : Option ChainedFixupMetadata}
    (parsed : parseFixupRange source scan headerAddress = .ok chainedFixups) :
    ∀ fixups ∈ chainedFixups, FixupsOk source scan.segments headerAddress fixups := by
  unfold parseFixupRange at parsed
  split at parsed
  · cases parsed
    nofun
  · obtain ⟨fixups, found, parsed⟩ := bind_eq_ok.mp parsed
    cases parsed
    rintro _ ⟨rfl⟩
    exact fixupsOk_of_parseFixups found

/-- A parsed image has been checked. -/
theorem imageOk_of_parseImage [UnstableSort] {base : Nat} {outer : Bool} {profile : Profile}
    {budget budget' : Budget} {parsed : ParsedImage}
    (done : parseImage source base outer profile budget = .ok (parsed, budget')) :
    ImageOk source parsed.image := by
  obtain ⟨scan, found, _⟩ := parsed_of_parseImage done
  obtain ⟨_, _, _, ran⟩ := found.ran
  constructor
  · rw [found.segments]
    exact found.nonempty
  · rw [found.segments]
    refine parsed_of_scanCommands (fun cmd budget s budget' => entriesOk_of_parseSegment) ?_ ran
    intro s mem
    cases mem
  · exact entriesOk_of_parseRelocations found.relocations
  · rw [found.segments]
    exact fixupsOk_of_parseFixupRange found.fixups

theorem imageOk_of_inspectMembers [UnstableSort] {profile : Profile} {outer : ImageMetadata}
    {references : List MemberReference} {budget : Budget} {members : List FilesetMember}
    (done : inspectMembers source profile outer references budget = .ok members) :
    ∀ member ∈ members, ImageOk source member.image := by
  induction references generalizing budget members with
  | nil =>
      cases done
      intro member mem
      cases mem
  | cons reference rest ih =>
      unfold inspectMembers at done
      obtain ⟨⟨member, left⟩, first, done⟩ := bind_eq_ok.mp done
      obtain ⟨others, remaining, done⟩ := bind_eq_ok.mp done
      cases done
      obtain ⟨parsed, ran, same, _⟩ := parsed_of_inspectMember first
      refine List.forall_mem_cons.mpr ⟨?_, ih remaining⟩
      rw [same]
      exact imageOk_of_parseImage ran

/-- Every image of an accepted collection has been checked. -/
theorem imageOk_of_accepted [UnstableSort] {inspection : KcMetadataInspection}
    (accepted : inspectKernelCollection source = .ok inspection) :
    ∀ entry ∈ images inspection, ImageOk source entry.1 := by
  simp only [inspectKernelCollection, inspectProfile] at accepted
  obtain ⟨_, _, accepted⟩ := bind_eq_ok.mp accepted
  obtain ⟨⟨outer, left⟩, parsed, accepted⟩ := bind_eq_ok.mp accepted
  iterate 2 obtain ⟨_, _, accepted⟩ := bind_eq_ok.mp accepted
  obtain ⟨members, ran, accepted⟩ := bind_eq_ok.mp accepted
  cases accepted
  intro entry mem
  have listed := List.fst_mem_of_mem_zipIdx mem
  rcases List.mem_cons.mp listed with first | later
  · rw [first]
    exact imageOk_of_parseImage parsed
  · obtain ⟨member, member_mem, same⟩ := List.mem_map.mp later
    rw [← same]
    exact imageOk_of_inspectMembers ran member member_mem

end Images

end Nextcore.FixupAudit
