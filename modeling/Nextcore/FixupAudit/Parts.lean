import Nextcore.FixupAudit.Starts

/-!
The parts of an accepted fixup blob.

`parts` reads off a blob where its header, its tables and its symbols lie. Some pairs of them are
kept apart by a test of the inspector, the others by a lower bound on an offset; the blocks of the
segments are tested against those before them (`Scanned`). In its block, a list of starts lies
behind the array of the pages (`BlockOk`).
-/

namespace Nextcore.FixupAudit

open Checked Checked.Outcome KernelCollection

/-! ### Where the parts lie -/

section Layout

variable (data : Bytes)

/-- The offset of the table of starts. -/
def startsAt : Nat := leAt data 4 4

/-- What the table of starts has for a segment: zero, or the displacement of its block. -/
def relativeOf (position : Nat) : Nat := leAt data (startsAt data + (4 + position * 4)) 4

/-- The block of a segment, which has its size in its first word. -/
def blockSpan (position : Nat) : Span :=
  ⟨startsAt data + relativeOf data position, leAt data (startsAt data + relativeOf data position) 4⟩

/-- The segments, out of the first `count`, that have a block. -/
def blockIndices (count : Nat) : List Nat :=
  (List.range count).filter (relativeOf data · ≠ 0)

def headerSpan : Span := ⟨0, 28⟩

def tableSpan (count : Nat) : Span := ⟨startsAt data, 4 + count * 4⟩

def importSpan : Span :=
  ⟨leAt data 8 4, leAt data 16 4 * (importWidth (leAt data 20 4)).getD 0⟩

def symbolSpan : Span := ⟨leAt data 12 4, data.length - leAt data 12 4⟩

/-- The parts of a blob for `count` segments. -/
def parts (count : Nat) : List Span :=
  headerSpan :: tableSpan data count :: importSpan data :: symbolSpan data ::
    (blockIndices data count).map (blockSpan data)

theorem blockIndices_succ (k : Nat) :
    blockIndices data (k + 1) =
      blockIndices data k ++ if relativeOf data k = 0 then [] else [k] := by
  rw [blockIndices, List.range_succ, List.filter_append]
  by_cases none : relativeOf data k = 0
  · simp [blockIndices, none]
  · simp [blockIndices, none]

end Layout

/-- What has been checked of the block of a segment. -/
structure BlockOk (data : Bytes) (segment : SegmentMetadata) (info : FixupSegmentMetadata)
    (block : Span) : Prop where
  pageSize : info.pageSize = leAt data (block.start + 4) 2
  pointerFormat : info.pointerFormat = leAt data (block.start + 6) 2
  pageCount : info.pageCount = leAt data (block.start + 20) 2
  array : 22 + info.pageCount * 2 ≤ block.size
  pagesWithFixups : info.pagesWithFixups ≤ info.pageCount
  multipleStartPages : info.multipleStartPages ≤ info.pagesWithFixups
  starts : ∀ page < info.pageCount, ∃ starts, PageStarts data block.start block.stop page starts ∧
    ∀ start ∈ starts, StartFits segment info page start
  lists : ∀ page < info.pageCount, ∀ first, leAt data (block.start + (22 + page * 2)) 2 = first →
    first ≠ 0xffff → first &&& 0x8000 ≠ 0 →
      info.pageCount ≤ first &&& 0x7fff ∧
      ∃ starts, Listed data block.stop (block.start + (22 + (first &&& 0x7fff) * 2)) starts ∧
        block.start + (22 + (first &&& 0x7fff) * 2) + starts.length * 2 ≤ block.stop

/-- All of a list lies before its bound. -/
theorem Listed.stop_le {source : Bytes} {stop at' : Nat} {starts : List Nat}
    (listed : Listed source stop at' starts) : at' + starts.length * 2 ≤ stop := by
  induction listed with
  | last inside ends => exact inside
  | more inside goes later ih =>
      rw [List.length_cons]
      omega

/-! ### Pages -/

section Pages

variable {info : Bytes} {segment : SegmentMetadata} {pageSize pageCount format available : Nat}

/-- A page counts once among those with fixups, and at most so among those with several starts. -/
theorem counts_of_scanPage {scan scan' : PageScan} {page : Nat}
    (scanned : scanPage info segment pageSize pageCount format available scan page = .ok scan') :
    scan'.pagesWithFixups ≤ scan.pagesWithFixups + 1 ∧
      (scan.multipleStartPages ≤ scan.pagesWithFixups →
        scan'.multipleStartPages ≤ scan'.pagesWithFixups) := by
  cases (scanPage_eq_ok scanned).2 with
  | none read => exact ⟨Nat.le_succ _, id⟩
  | single read some' plain below backed =>
      exact ⟨Nat.le_refl _, fun below => Nat.le_succ_of_le below⟩
  | several read some' marked behind walked =>
      exact ⟨Nat.le_refl _, fun below => Nat.succ_le_succ below⟩

theorem counts_of_pages {pages : List Nat} {scan scan' : PageScan}
    (ran : pages.foldlM (scanPage info segment pageSize pageCount format available) scan =
      .ok scan') :
    scan'.pagesWithFixups ≤ scan.pagesWithFixups + pages.length ∧
      (scan.multipleStartPages ≤ scan.pagesWithFixups →
        scan'.multipleStartPages ≤ scan'.pagesWithFixups) := by
  induction pages generalizing scan with
  | nil =>
      cases ran
      exact ⟨Nat.le_refl _, id⟩
  | cons page rest ih =>
      rw [List.foldlM_cons] at ran
      obtain ⟨next, first, others⟩ := bind_eq_ok.mp ran
      obtain ⟨few, ordered⟩ := counts_of_scanPage first
      obtain ⟨few', ordered'⟩ := ih others
      rw [List.length_cons]
      exact ⟨by omega, fun below => ordered' (ordered below)⟩

/-- A page with several starts has a list of them in its block, behind the array of the pages. -/
theorem several_of_scanPage {data : Bytes} {a size page first : Nat} {scan scan' : PageScan}
    (inside : a + size ≤ data.length)
    (scanned : scanPage (window data a size) segment pageSize pageCount format available scan
      page = .ok scan')
    (read : leAt data (a + (22 + page * 2)) 2 = first) (some' : first ≠ 0xffff)
    (marked : first &&& 0x8000 ≠ 0) :
    pageCount ≤ first &&& 0x7fff ∧
      ∃ starts, Listed data (a + size) (a + (22 + (first &&& 0x7fff) * 2)) starts := by
  cases (scanPage_eq_ok scanned).2 with
  | none read' =>
      obtain ⟨_, none⟩ := u16At_window read' inside
      exact absurd (read.symm.trans none.symm) some'
  | single read' _ plain below backed =>
      obtain ⟨_, first_eq⟩ := u16At_window read' inside
      rw [← read, ← first_eq] at marked
      exact absurd plain marked
  | several read' _ _ behind walked =>
      obtain ⟨_, first_eq⟩ := u16At_window read' inside
      obtain ⟨starts, listed, _⟩ := listed_of_walkStarts inside walked
      rw [first_eq, read] at behind listed
      exact ⟨behind, starts, listed⟩

/-- The scan of the pages checks the block that they belong to. -/
theorem blockOk_of_scanned {table : FixupTable} {scan : FixupScan} {block : FileRange}
    {info : FixupSegmentMetadata} {pages : PageScan}
    (checked : BlockScanned table scan segment block info pages) :
    BlockOk table.data segment info block.span := by
  have inside := checked.inside
  obtain ⟨counted, ordered⟩ := counts_of_pages checked.ran
  rw [List.length_range, Nat.zero_add] at counted
  obtain ⟨withFixups, multiple⟩ := checked.counts
  have page_scanned := rounds_of_foldlM checked.ran
  constructor
  · exact (u16At_window checked.pageSize inside).2
  · exact (u16At_window checked.pointerFormat inside).2
  · exact (u16At_window checked.pageCount inside).2
  · exact checked.array
  · rwa [withFixups]
  · rw [withFixups, multiple]
    exact ordered (Nat.le_refl 0)
  · intro page below
    obtain ⟨_, _, round⟩ := page_scanned page (List.mem_range.mpr below)
    obtain ⟨_, starts, has, each⟩ := pageStarts_of_scanPage inside round
    refine ⟨starts, has, fun start mem => ?_⟩
    obtain ⟨inPage, inFile, inMemory⟩ := each start mem
    exact ⟨inPage, inFile, inMemory⟩
  · intro page below first read some' marked
    obtain ⟨_, _, round⟩ := page_scanned page (List.mem_range.mpr below)
    obtain ⟨behind, starts, listed⟩ := several_of_scanPage inside round read some' marked
    exact ⟨behind, starts, listed, listed.stop_le⟩

end Pages

/-! ### Blocks -/

/-- Ranges that were found not to overlap have no byte in common, empty or not. -/
theorem disjoint_of_overlaps {a b : FileRange} (tested : overlaps a b = .ok false) :
    Disjoint a.span.bytes b.span.bytes := by
  rw [Set.disjoint_left]
  intro p mem mem'
  have ha : a.size ≠ 0 := by
    intro zero
    simp only [FileRange.span, Span.mem_bytes, Span.stop_mk] at mem
    omega
  have hb : b.size ≠ 0 := by
    intro zero
    simp only [FileRange.span, Span.mem_bytes, Span.stop_mk] at mem'
    omega
  exact (apart_of_overlaps tested ha hb).not_mem mem mem'

theorem u32At_data {data : Bytes} {offset n : Nat} (read : u32At data offset = .ok n) :
    offset + 4 ≤ data.length ∧ n = leAt data offset 4 := by
  have whole : window data 0 data.length = data := window_all rfl
  rw [← whole] at read
  obtain ⟨fits, rfl⟩ := u32At_window read (Nat.le_of_eq (Nat.zero_add _))
  rw [Nat.zero_add]
  exact ⟨fits, rfl⟩

/-- What is known of a segment's block before the blocks are compared. -/
structure Placed (table : FixupTable) (position : Nat) : Prop where
  behind : table.tableSize ≤ relativeOf table.data position
  inside : (blockSpan table.data position).stop ≤ table.data.length
  imports : Disjoint (blockSpan table.data position).bytes table.importRange.span.bytes
  symbols : Disjoint (blockSpan table.data position).bytes table.symbolRange.span.bytes

/-- What a segment with a block adds to the scan. -/
structure Added (table : FixupTable) (segment : SegmentMetadata) (position : Nat)
    (scan scan' : FixupScan) : Prop where
  placed : Placed table position
  ranges : ∃ r : FileRange, r.span = blockSpan table.data position ∧
    scan'.infoRanges = scan.infoRanges ++ [r]
  apart : ∀ r ∈ scan.infoRanges, Disjoint r.span.bytes (blockSpan table.data position).bytes
  result : ∃ info, scan'.result = scan.result ++ [info] ∧ info.segmentIndex = position ∧
    BlockOk table.data segment info (blockSpan table.data position)

/-- A test of a list that finds nothing has found nothing anywhere. -/
theorem anyM_eq_false {α ε : Type} {f : α → Outcome ε Bool} {list : List α}
    (none : anyM f list = .ok false) : ∀ a ∈ list, f a = .ok false := by
  induction list with
  | nil =>
      intro a mem
      cases mem
  | cons a rest ih =>
      obtain ⟨hit, first, none⟩ := bind_eq_ok.mp none
      cases hit with
      | true => cases none
      | false => exact List.forall_mem_cons.mpr ⟨first, ih none⟩

theorem added_of_scanFixupSegment {table : FixupTable} {scan scan' : FixupScan}
    {segment : SegmentMetadata} {position : Nat} (at_starts : table.starts = startsAt table.data)
    (scanned : scanFixupSegment table scan (segment, position) = .ok scan') :
    (relativeOf table.data position = 0 ∧ scan' = scan) ∨
      (relativeOf table.data position ≠ 0 ∧ Added table segment position scan scan') := by
  obtain ⟨relative, read, does⟩ := scanFixupSegment_eq_ok scanned
  obtain ⟨_, relative_eq⟩ := u32At_data read
  rw [at_starts] at relative_eq
  change relative = relativeOf table.data position at relative_eq
  subst relative_eq
  obtain none | ⟨nonzero, behind, block, info, pages, place, index, checked, rfl⟩ := does
  · exact .inl none
  refine .inr ⟨nonzero, ?_⟩
  have span : block.span = blockSpan table.data position := by
    obtain ⟨_, sized⟩ := u32At_data checked.sized
    rw [at_starts] at place
    rw [blockSpan, FileRange.span, sized, place]
  refine ⟨⟨behind, ?_, ?_, ?_⟩, ⟨block, span, rfl⟩, ?_, ⟨info, rfl, index, ?_⟩⟩
  · rw [← span]
    exact checked.inside
  · rw [← span]
    exact disjoint_of_overlaps checked.imports
  · rw [← span]
    exact disjoint_of_overlaps checked.symbols
  · intro r mem
    rw [← span]
    exact disjoint_of_overlaps (anyM_eq_false checked.blocks r mem)
  · rw [← span]
    exact blockOk_of_scanned checked

/-! ### The loop over the segments -/

/-- What the loop carries in front of the `k`-th segment: the blocks of those before it. -/
structure Scanned (table : FixupTable) (segments : List SegmentMetadata) (k : Nat)
    (scan : FixupScan) : Prop where
  ranges : scan.infoRanges.map FileRange.span =
    (blockIndices table.data k).map (blockSpan table.data)
  listed : scan.result.map (·.segmentIndex) = blockIndices table.data k
  placed : ∀ position ∈ blockIndices table.data k, Placed table position
  apart : ((blockIndices table.data k).map (blockSpan table.data)).Pairwise
    fun a b => Disjoint a.bytes b.bytes
  blocks : ∀ info ∈ scan.result, ∃ segment, segments[info.segmentIndex]? = some segment ∧
    BlockOk table.data segment info (blockSpan table.data info.segmentIndex)

theorem scanned_start (table : FixupTable) (segments : List SegmentMetadata) :
    Scanned table segments 0 ⟨[], [], 0⟩ where
  ranges := rfl
  listed := rfl
  placed := by
    intro position mem
    cases mem
  apart := List.Pairwise.nil
  blocks := by
    intro info mem
    cases mem

theorem Scanned.step {table : FixupTable} {segments : List SegmentMetadata} {k : Nat}
    {scan scan' : FixupScan} {segment : SegmentMetadata} (inv : Scanned table segments k scan)
    (at_starts : table.starts = startsAt table.data) (found : segments[k]? = some segment)
    (done : scanFixupSegment table scan (segment, k) = .ok scan') :
    Scanned table segments (k + 1) scan' := by
  rcases added_of_scanFixupSegment at_starts done with ⟨none, rfl⟩ | ⟨some', added⟩
  · have same : blockIndices table.data (k + 1) = blockIndices table.data k := by
      rw [blockIndices_succ, if_pos none, List.append_nil]
    obtain ⟨ranges, listed, placed, apart, blocks⟩ := inv
    rw [← same] at ranges listed placed apart
    exact ⟨ranges, listed, placed, apart, blocks⟩
  · have more : blockIndices table.data (k + 1) = blockIndices table.data k ++ [k] := by
      rw [blockIndices_succ, if_neg some']
    obtain ⟨r, span, ranges⟩ := added.ranges
    obtain ⟨info, result, index', ok⟩ := added.result
    constructor
    · rw [more, ranges, List.map_append, List.map_append, inv.ranges, List.map_singleton,
        List.map_singleton, span]
    · rw [more, result, List.map_append, inv.listed, List.map_singleton, index']
    · intro position mem
      rw [more] at mem
      rcases List.mem_append.mp mem with old | new
      · exact inv.placed position old
      · rw [List.mem_singleton.mp new]
        exact added.placed
    · rw [more, List.map_append, List.map_singleton, List.pairwise_append]
      refine ⟨inv.apart, List.pairwise_singleton .., ?_⟩
      intro a mem b mem'
      rw [← inv.ranges] at mem
      obtain ⟨earlier, earlier_mem, rfl⟩ := List.mem_map.mp mem
      rw [List.mem_singleton.mp mem']
      exact added.apart earlier earlier_mem
    · intro other mem
      rw [result] at mem
      rcases List.mem_append.mp mem with old | new
      · exact inv.blocks other old
      · rw [List.mem_singleton.mp new, index']
        exact ⟨segment, found, ok⟩

theorem scanned_of_scan {table : FixupTable} {segments : List SegmentMetadata}
    (at_starts : table.starts = startsAt table.data) :
    Ensures (Scanned table segments (0 + segments.length))
      (segments.zipIdx.foldlM (scanFixupSegment table) ⟨[], [], 0⟩) := by
  refine ensures_foldlM_zipIdx (scanned_start table segments) ?_
  intro k segment scan mem inv scan' done
  exact inv.step at_starts (List.mem_zipIdx_iff_getElem?.mp mem) done

/-! ### Blobs -/

/-- What has been checked of the parts of a fixup blob. -/
structure PartsOk (data : Bytes) (segments : List SegmentMetadata)
    (fixups : ChainedFixupMetadata) : Prop where
  size : data.length = fixups.file.size
  count : leAt data (startsAt data) 4 = segments.length
  listed : fixups.segments.map (·.segmentIndex) = blockIndices data segments.length
  inside : ∀ part ∈ parts data segments.length, part.stop ≤ data.length
  disjoint : (parts data segments.length).Pairwise fun a b => Disjoint a.bytes b.bytes
  blocks : ∀ info ∈ fixups.segments, ∃ segment, segments[info.segmentIndex]? = some segment ∧
    BlockOk data segment info (blockSpan data info.segmentIndex)

/-- Where a part ends before the other begins, they have no byte in common. -/
theorem disjoint_of_le {a b : Span} (before : a.stop ≤ b.start) : Disjoint a.bytes b.bytes := by
  rw [Set.disjoint_left]
  intro p mem mem'
  exact Nat.not_lt.mpr (before.trans mem'.1) mem.2

/-- What is known of the tables of a blob before its segments are looked at. -/
structure TablesOk (table : FixupTable) (count : Nat) : Prop where
  starts : table.starts = startsAt table.data
  tableSize : table.tableSize = 4 + count * 4
  importRange : table.importRange.span = importSpan table.data
  symbolRange : table.symbolRange.span = symbolSpan table.data
  behind : ∀ part ∈ [tableSpan table.data count, importSpan table.data, symbolSpan table.data],
    headerSpan.stop ≤ part.start
  inside : ∀ part ∈ [tableSpan table.data count, importSpan table.data, symbolSpan table.data],
    part.stop ≤ table.data.length
  apart : [tableSpan table.data count, importSpan table.data, symbolSpan table.data].Pairwise
    fun a b => Disjoint a.bytes b.bytes

section Tables

variable {table : FixupTable} {count : Nat}

/-- A block has the table of starts in front of it. -/
theorem TablesOk.before_block (tables : TablesOk table count) {position : Nat}
    (placed : Placed table position) :
    (tableSpan table.data count).stop ≤ (blockSpan table.data position).start := by
  have below := placed.behind
  rw [tables.tableSize] at below
  exact Nat.add_le_add_left below _

theorem TablesOk.parts_inside (tables : TablesOk table count)
    (placed : ∀ position ∈ blockIndices table.data count, Placed table position)
    (header : headerSpan.stop ≤ table.data.length) :
    ∀ part ∈ parts table.data count, part.stop ≤ table.data.length := by
  have inside := tables.inside
  simp only [List.forall_mem_cons] at inside
  obtain ⟨starts, imports, symbols, _⟩ := inside
  simp only [parts, List.forall_mem_cons]
  refine ⟨header, starts, imports, symbols, fun block mem => ?_⟩
  obtain ⟨position, listed, rfl⟩ := List.mem_map.mp mem
  exact (placed position listed).inside

theorem TablesOk.parts_disjoint (tables : TablesOk table count)
    (placed : ∀ position ∈ blockIndices table.data count, Placed table position)
    (apart : ((blockIndices table.data count).map (blockSpan table.data)).Pairwise
      fun a b => Disjoint a.bytes b.bytes) :
    (parts table.data count).Pairwise fun a b => Disjoint a.bytes b.bytes := by
  have behind := tables.behind
  have tables_apart := tables.apart
  simp only [List.forall_mem_cons] at behind
  simp only [List.pairwise_cons, List.forall_mem_cons] at tables_apart
  obtain ⟨starts, imports, symbols, _⟩ := behind
  obtain ⟨⟨startsImports, startsSymbols, _⟩, ⟨importsSymbols, _⟩, _⟩ := tables_apart
  simp only [parts, List.pairwise_cons, List.forall_mem_map, List.forall_mem_cons]
  refine ⟨⟨?_, ?_, ?_, ?_⟩, ⟨startsImports, startsSymbols, ?_⟩, ⟨importsSymbols, ?_⟩, ?_, apart⟩
  · exact disjoint_of_le starts
  · exact disjoint_of_le imports
  · exact disjoint_of_le symbols
  · -- The header is in front of the table of starts, and that of each block.
    intro position listed
    have before := tables.before_block (placed position listed)
    exact disjoint_of_le (starts.trans ((Nat.le_add_right ..).trans before))
  · intro position listed
    exact disjoint_of_le (tables.before_block (placed position listed))
  · intro position listed
    rw [← tables.importRange]
    exact (placed position listed).imports.symm
  · intro position listed
    rw [← tables.symbolRange]
    exact (placed position listed).symbols.symm

end Tables

/-- The tables of an accepted blob are those that its header describes. -/
theorem tablesOk_of_parsed {bytes : Bytes} {file : FileRange} {segments : List SegmentMetadata}
    {headerAddress : Nat} {fixups : ChainedFixupMetadata} {table : FixupTable} {scan : FixupScan}
    (found : FixupsParsed bytes file segments headerAddress fixups table scan) :
    TablesOk table segments.length := by
  obtain ⟨_, starts_eq⟩ := u32At_data found.starts
  obtain ⟨_, imports_eq⟩ := u32At_data found.imports
  obtain ⟨_, symbols_eq⟩ := u32At_data found.symbols
  obtain ⟨count, format, width, at_count, at_format, known, size⟩ := found.importSize
  obtain ⟨_, rfl⟩ := u32At_data at_count
  obtain ⟨_, rfl⟩ := u32At_data at_format
  have table_span : FileRange.span ⟨table.starts, table.tableSize⟩ =
      tableSpan table.data segments.length := by
    rw [tableSpan, FileRange.span, found.tableSize]
    exact congrArg (Span.mk · _) starts_eq
  have import_span : table.importRange.span = importSpan table.data := by
    rw [importSpan, FileRange.span, ← imports_eq, size, known, Option.getD_some]
  have symbol_span : table.symbolRange.span = symbolSpan table.data := by
    rw [symbolSpan, FileRange.span, ← symbols_eq, found.symbolSize]
  obtain ⟨starts, imports, symbols⟩ := found.low
  constructor
  · exact starts_eq
  · exact found.tableSize
  · exact import_span
  · exact symbol_span
  · rw [← table_span, ← import_span, ← symbol_span]
    simp only [List.forall_mem_cons]
    exact ⟨starts, imports, symbols, List.forall_mem_nil _⟩
  · rw [← table_span, ← import_span, ← symbol_span]
    simp only [List.forall_mem_cons]
    refine ⟨found.startsInside, found.importsInside, ?_, List.forall_mem_nil _⟩
    have inside := found.symbolsInside
    rw [FileRange.span, Span.stop_mk, found.symbolSize]
    omega
  · rw [← table_span, ← import_span, ← symbol_span]
    simp only [List.pairwise_cons, List.forall_mem_cons]
    exact ⟨⟨disjoint_of_overlaps found.startsImports, disjoint_of_overlaps found.startsSymbols,
      List.forall_mem_nil _⟩, ⟨disjoint_of_overlaps found.importsSymbols, List.forall_mem_nil _⟩,
      List.forall_mem_nil _, List.Pairwise.nil⟩

theorem partsOk_of_parseFixups {bytes : Bytes} {file : FileRange}
    {segments : List SegmentMetadata} {headerAddress : Nat} {fixups : ChainedFixupMetadata}
    (parsed : parseFixups bytes file segments headerAddress = .ok fixups) :
    fixups.file = file ∧ file.offset + file.size ≤ bytes.length ∧
      PartsOk (window bytes file.offset file.size) segments fixups := by
  obtain ⟨table, scan, found⟩ := parseFixups_eq_ok parsed
  have tables := tablesOk_of_parsed found
  have inv := scanned_of_scan tables.starts scan found.ran
  rw [Nat.zero_add] at inv
  refine ⟨found.same, found.inside, ?_⟩
  rw [← found.data]
  constructor
  · rw [found.data, found.same, length_window found.inside]
  · rw [← tables.starts]
    exact (u32At_data found.count).2.symm
  · rw [found.result]
    exact inv.listed
  · exact tables.parts_inside inv.placed found.head
  · exact tables.parts_disjoint inv.placed inv.apart
  · rw [found.result]
    exact inv.blocks

/-- The parts of an accepted blob lie in it and have no byte in common, and each list of starts
lies behind the array of the pages in its block. With fields of eight bytes, each start has its
field in the file-backed memory of its segment. -/
theorem fixup_parts_disjoint {bytes : Bytes} {file : FileRange}
    {segments : List SegmentMetadata} {headerAddress : Nat} {fixups : ChainedFixupMetadata}
    (parsed : parseFixups bytes file segments headerAddress = .ok fixups) :
    fixups.file = file ∧ file.offset + file.size ≤ bytes.length ∧
      PartsOk (window bytes file.offset file.size) segments fixups ∧
      ∀ info ∈ fixups.segments, info.pointerFormat = 8 ∨ info.pointerFormat = 11 →
        ∃ segment, segments[info.segmentIndex]? = some segment ∧
          ∀ page < info.pageCount, ∀ starts,
            PageStarts (window bytes file.offset file.size)
              (blockSpan (window bytes file.offset file.size) info.segmentIndex).start
              (blockSpan (window bytes file.offset file.size) info.segmentIndex).stop page starts →
            ∀ start ∈ starts, start < info.pageSize ∧
              page * info.pageSize + start + 8 ≤ min segment.file.size segment.memorySize := by
  obtain ⟨same, inside, ok⟩ := partsOk_of_parseFixups parsed
  refine ⟨same, inside, ok, fun info mem wide => ?_⟩
  obtain ⟨segment, found, block⟩ := ok.blocks info mem
  refine ⟨segment, found, fun page below starts has start start_mem => ?_⟩
  obtain ⟨starts', has', each⟩ := block.starts page below
  rw [has.unique has'] at start_mem
  have fits := each start start_mem
  have width : pageStartWidth info.pointerFormat = 8 := if_pos wide
  have inFile := fits.inFile
  have inMemory := fits.inMemory
  rw [width] at inFile inMemory
  exact ⟨fits.inPage, Nat.le_min.mpr ⟨inFile, inMemory⟩⟩

/-- A blob for one segment of a page, which has a list of one start behind its array. -/
def sampleBlob : Bytes :=
  packWords [(4, 0), (4, 28), (4, 62), (4, 62), (4, 0), (4, 1), (4, 0), (4, 1), (4, 8), (4, 26),
    (2, 4096), (2, 8), (8, 0x4000), (4, 0), (2, 1), (2, 0x8001), (2, 0x8010), (2, 0)]

def blobSegment : SegmentMetadata :=
  ⟨List.replicate 16 0, 0x4000, 0x1000, ⟨0x1000, 0x1000⟩, 3, 3, 0, []⟩

theorem fixup_parts_disjoint_sample :
    ∃ fixups, parseFixups sampleBlob ⟨0, 64⟩ [blobSegment] 0 = .ok fixups ∧
      PartsOk (window sampleBlob 0 64) [blobSegment] fixups ∧
        parts (window sampleBlob 0 64) 1 =
          [⟨0, 28⟩, ⟨28, 8⟩, ⟨62, 0⟩, ⟨62, 2⟩, ⟨36, 26⟩] := by
  obtain ⟨fixups, parsed⟩ := isOk_iff.mp
    (show (parseFixups sampleBlob ⟨0, 64⟩ [blobSegment] 0).isOk = true by decide +kernel)
  obtain ⟨_, _, ok, _⟩ := fixup_parts_disjoint parsed
  exact ⟨fixups, parsed, ok, by decide +kernel⟩

end Nextcore.FixupAudit
