import Nextcore.KernelCollection.WellFormed

/-!
Inspection does not panic, whatever the bytes.

The readers and the range tests return for every input. A sum or a difference without a guard is
safe for a reason found elsewhere: a bound from the check that was passed before it, a field no
wider than its word, a range that was sliced. Each function has a lemma that says so under what
its caller has established.
-/

namespace Nextcore.KernelCollection

open Checked Checked.Outcome

/-! ### Readers -/

@[simp] theorem rangeEnd_ne_panic {start size : Nat} : rangeEnd start size ≠ .panic := by
  simp [rangeEnd]

@[simp] theorem slice_ne_panic {bytes : Bytes} {offset size : Nat} :
    slice bytes offset size ≠ .panic := by
  simp only [slice, bind_ne_panic_iff]
  exact ⟨ofOption_ne_panic, fun _ _ => ofOption_ne_panic⟩

@[simp] theorem range_ne_panic {bytes : Bytes} {offset size : Nat} :
    range bytes offset size ≠ .panic := by
  simp [range, bind_ne_panic_iff]

@[simp] theorem fileRange_ne_panic {bytes : Bytes} {offset count width : Nat} :
    fileRange bytes offset count width ≠ .panic := by
  simp [fileRange, bind_ne_panic_iff]

@[simp] theorem exactSize_ne_panic {bytes : Bytes} {expected : Nat} :
    exactSize bytes expected ≠ .panic := rejectIf_ne_panic

@[simp] theorem u16At_ne_panic {bytes : Bytes} {offset : Nat} : u16At bytes offset ≠ .panic := by
  simp [u16At, bind_ne_panic_iff]

@[simp] theorem u32At_ne_panic {bytes : Bytes} {offset : Nat} : u32At bytes offset ≠ .panic := by
  simp [u32At, bind_ne_panic_iff]

@[simp] theorem u64At_ne_panic {bytes : Bytes} {offset : Nat} : u64At bytes offset ≠ .panic := by
  simp [u64At, bind_ne_panic_iff]

@[simp] theorem addBudget_ne_panic {value amount limit : Nat} :
    addBudget value amount limit ≠ .panic := by
  simp [addBudget, bind_ne_panic_iff]

@[simp] theorem commandRange_ne_panic {bytes cmd : Bytes} {at' width : Nat} :
    commandRange bytes cmd at' width ≠ .panic := by
  simp [commandRange, bind_ne_panic_iff]

theorem u16At_lt {bytes : Bytes} {offset n : Nat} (read : u16At bytes offset = .ok n) :
    n < 2 ^ 16 := by
  simp only [u16At, bind_eq_ok, pure_eq, ok.injEq] at read
  obtain ⟨word, sliced, rfl⟩ := read
  have bound := fromLeBytes_lt word
  rwa [length_of_slice sliced] at bound

/-- Where a word was read, its position ends in the word. -/
theorem u32At_inside {bytes : Bytes} {offset n : Nat} (read : u32At bytes offset = .ok n) :
    offset + 4 < 2 ^ 64 := by
  simp only [u32At, bind_eq_ok] at read
  obtain ⟨word, sliced, _⟩ := read
  exact (slice_eq_ok.mp sliced).1

/-- Ranges that end in the word can be compared. -/
theorem overlaps_ne_panic {a b : FileRange} (ha : a.offset + a.size < 2 ^ 64)
    (hb : b.offset + b.size < 2 ^ 64) : overlaps a b ≠ .panic := by
  rw [overlaps]
  split
  · refine bind_ne_panic (add_ne_panic_iff.mpr hb) fun stop _ => ?_
    split
    · exact bind_ne_panic (add_ne_panic_iff.mpr ha) fun _ _ => ok_ne_panic _
    · exact ok_ne_panic _
  · exact ok_ne_panic _

/-! ### Segments -/

theorem parseSection_ne_panic {bytes cmd s : Bytes} {address memorySize : Nat} {file : FileRange}
    (whole : s.length = 80) (named : 72 ≤ cmd.length) :
    parseSection bytes cmd address memorySize file s ≠ .panic := by
  rw [parseSection]
  refine bind_ne_panic u64At_ne_panic fun sa _ => ?_
  refine bind_ne_panic u64At_ne_panic fun size _ => ?_
  refine bind_ne_panic u32At_ne_panic fun sectionOffset _ => ?_
  refine bind_ne_panic u32At_ne_panic fun align _ => ?_
  refine bind_ne_panic u32At_ne_panic fun flags _ => ?_
  refine bind_ne_panic (index_ne_panic_iff.mpr (by omega)) fun segmentName _ => ?_
  refine bind_ne_panic (index_ne_panic_iff.mpr (by omega)) fun name _ => ?_
  refine bind_ne_panic rejectIf_ne_panic fun _ first => ?_
  have above : address ≤ sa := by
    rw [rejectIf_eq_ok] at first
    omega
  refine bind_ne_panic rangeEnd_ne_panic fun sectionEnd _ => ?_
  refine bind_ne_panic rangeEnd_ne_panic fun memoryEnd _ => ?_
  refine bind_ne_panic rejectIf_ne_panic fun _ _ => ?_
  refine bind_ne_panic rejectIf_ne_panic fun _ aligned => ?_
  have low : align < 64 := Nat.lt_of_not_le (rejectIf_eq_ok.mp aligned)
  refine bind_ne_panic (shl_ne_panic_iff.mpr low) fun bit shifted => ?_
  refine bind_ne_panic (sub_ne_panic_iff.mpr (one_le_of_shl shifted)) fun mask _ => ?_
  refine bind_ne_panic rejectIf_ne_panic fun _ _ => ?_
  have finish : ∀ whole : FileRange → SectionMetadata, (do
      let offset ← u32At s 56
      let count ← u32At s 60
      let relocations ← fileRange bytes offset count 8
      pure (whole relocations)) ≠ .panic := fun whole =>
    bind_ne_panic u32At_ne_panic fun _ _ => bind_ne_panic u32At_ne_panic fun _ _ =>
      bind_ne_panic fileRange_ne_panic fun _ _ => ok_ne_panic _
  split
  · refine bind_ne_panic rejectIf_ne_panic fun _ inside => ?_
    rw [rejectIf_eq_ok, Bool.not_eq_false, contains_iff] at inside
    have start : file.offset ≤ sectionOffset := inside.1.1
    refine bind_ne_panic (sub_ne_panic_iff.mpr start) fun fileDistance _ => ?_
    refine bind_ne_panic (sub_ne_panic_iff.mpr above) fun distance _ => ?_
    exact bind_ne_panic rejectIf_ne_panic fun _ _ => finish _
  · exact finish _

theorem parseSegment_ne_panic [UnstableSort] {bytes cmd : Bytes} {budget : Budget} :
    parseSegment bytes cmd budget ≠ .panic := by
  rw [parseSegment]
  refine bind_ne_panic slice_ne_panic fun head sliced => ?_
  have named : 72 ≤ cmd.length := by
    have inside := (slice_eq_ok.mp sliced).2.1
    omega
  refine bind_ne_panic u32At_ne_panic fun count counted => ?_
  have few : count < 2 ^ 32 := u32At_lt counted
  refine bind_ne_panic addBudget_ne_panic fun spent _ => ?_
  refine bind_ne_panic (mul_ne_panic_iff.mpr (by omega)) fun table sized => ?_
  rw [mul_eq_ok] at sized
  refine bind_ne_panic (add_ne_panic_iff.mpr (by omega)) fun expected _ => ?_
  refine bind_ne_panic rejectIf_ne_panic fun _ _ => ?_
  refine bind_ne_panic u64At_ne_panic fun address _ => ?_
  refine bind_ne_panic u64At_ne_panic fun memorySize _ => ?_
  refine bind_ne_panic u64At_ne_panic fun offset _ => ?_
  refine bind_ne_panic u64At_ne_panic fun size _ => ?_
  refine bind_ne_panic fileRange_ne_panic fun file _ => ?_
  refine bind_ne_panic u32At_ne_panic fun maximum _ => ?_
  refine bind_ne_panic u32At_ne_panic fun initial _ => ?_
  refine bind_ne_panic u32At_ne_panic fun flags _ => ?_
  refine bind_ne_panic rangeEnd_ne_panic fun _ _ => ?_
  refine bind_ne_panic rejectIf_ne_panic fun _ _ => ?_
  refine bind_ne_panic rejectIf_ne_panic fun _ _ => ?_
  refine bind_ne_panic (index_ne_panic_iff.mpr ⟨named, Nat.le_refl _⟩) fun rest _ => ?_
  have each : collect (parseSection bytes cmd address memorySize file) (chunksExact rest 80) ≠
      .panic :=
    collect_ne_panic fun s mem => parseSection_ne_panic (length_of_mem_chunksExact mem) named
  refine bind_ne_panic each fun sections _ => ?_
  refine bind_ne_panic (forWindows_ne_panic fun a _ b _ => ?_) fun _ _ => ?_
  · exact bind_ne_panic rangeEnd_ne_panic fun _ _ => rejectIf_ne_panic
  · exact bind_ne_panic (index_ne_panic_iff.mpr (by omega)) fun _ _ => ok_ne_panic _

/-! ### Chained fixups -/

theorem validatePageStart_ne_panic {offset pageSize backedBytes format : Nat}
    (small : offset < 2 ^ 16) : validatePageStart offset pageSize backedBytes format ≠ .panic := by
  have width : pageStartWidth format ≤ 8 := by
    rw [pageStartWidth]
    split <;> omega
  rw [validatePageStart]
  refine bind_ne_panic rejectIf_ne_panic fun _ _ => ?_
  exact bind_ne_panic (add_ne_panic_iff.mpr (by omega)) fun _ _ => rejectIf_ne_panic

section Pages

variable {info : Bytes} {pageSize backedBytes format : Nat}

/-- The loop over the starts of a page stays inside the table, and so does its cursor. -/
theorem walkStarts_ne_panic {remaining cursor visits : Nat}
    (inside : cursor + remaining < 2 ^ 32) :
    walkStarts info pageSize backedBytes format remaining cursor visits ≠ .panic := by
  induction remaining generalizing cursor visits with
  | zero => exact bind_ne_panic addBudget_ne_panic fun _ _ => by simp
  | succ remaining ih =>
      rw [walkStarts]
      refine bind_ne_panic addBudget_ne_panic fun visits _ => ?_
      refine bind_ne_panic (mul_ne_panic_iff.mpr (by omega)) fun step stepped => ?_
      rw [mul_eq_ok] at stepped
      refine bind_ne_panic (add_ne_panic_iff.mpr (by omega)) fun valueAt _ => ?_
      refine bind_ne_panic u16At_ne_panic fun value _ => ?_
      have small : value &&& 0x7fff < 2 ^ 16 := Nat.lt_of_le_of_lt Nat.and_le_right (by decide)
      refine bind_ne_panic (validatePageStart_ne_panic small) fun _ _ => ?_
      split
      · exact ok_ne_panic _
      · refine bind_ne_panic (add_ne_panic_iff.mpr (by omega)) fun next moved => ?_
        rw [add_eq_ok] at moved
        exact ih (by omega)

/-- The loop only adds to the visits, up to their limit. -/
theorem walkStarts_visits {remaining cursor visits visits' : Nat}
    (walked : walkStarts info pageSize backedBytes format remaining cursor visits = .ok visits') :
    visits ≤ visits' ∧ visits' ≤ maxPageStartVisits := by
  induction remaining generalizing cursor visits with
  | zero =>
      obtain ⟨_, _, failed⟩ := bind_eq_ok.mp walked
      cases failed
  | succ remaining ih =>
      rw [walkStarts] at walked
      obtain ⟨next, added, walked⟩ := bind_eq_ok.mp walked
      obtain ⟨_, limit, rfl⟩ := addBudget_eq_ok.mp added
      obtain ⟨_, _, walked⟩ := bind_eq_ok.mp walked
      obtain ⟨_, _, walked⟩ := bind_eq_ok.mp walked
      obtain ⟨_, _, walked⟩ := bind_eq_ok.mp walked
      obtain ⟨_, _, walked⟩ := bind_eq_ok.mp walked
      split at walked
      · cases walked
        exact ⟨Nat.le_add_right _ _, limit⟩
      · obtain ⟨_, _, walked⟩ := bind_eq_ok.mp walked
        obtain ⟨above, within⟩ := ih walked
        exact ⟨by omega, within⟩

/-- What the loop over the pages keeps: there are no more pages than visits. -/
structure PageScan.Inv (scan : PageScan) : Prop where
  pages : scan.pagesWithFixups ≤ scan.startVisits
  multiple : scan.multipleStartPages ≤ scan.startVisits
  limit : scan.startVisits ≤ maxPageStartVisits

variable {segment : SegmentMetadata} {pageCount available : Nat}

theorem scanPage_calm {scan : PageScan} {page : Nat} (inv : scan.Inv) (small : page < 2 ^ 16)
    (paged : pageSize < 2 ^ 16) (room : available < 2 ^ 32) :
    scanPage info segment pageSize pageCount format available scan page ≠ .panic ∧
      ∀ scan', scanPage info segment pageSize pageCount format available scan page = .ok scan' →
        scan'.Inv := by
  obtain ⟨pages, multiple, limit⟩ := inv
  rw [maxPageStartVisits] at limit
  have area : page * pageSize ≤ 2 ^ 16 * 2 ^ 16 := Nat.mul_le_mul (by omega) (by omega)
  constructor
  · rw [scanPage]
    refine bind_ne_panic addBudget_ne_panic fun visits added => ?_
    refine bind_ne_panic (mul_ne_panic_iff.mpr (by omega)) fun step stepped => ?_
    rw [mul_eq_ok] at stepped
    refine bind_ne_panic (add_ne_panic_iff.mpr (by omega)) fun firstAt _ => ?_
    refine bind_ne_panic u16At_ne_panic fun first read => ?_
    have short : first < 2 ^ 16 := u16At_lt read
    split
    · exact ok_ne_panic _
    · refine bind_ne_panic (addU32_ne_panic_iff.mpr (by omega)) fun counted _ => ?_
      refine bind_ne_panic (mul_ne_panic_iff.mpr (by omega)) fun pageOffset _ => ?_
      dsimp only
      split
      · exact bind_ne_panic (validatePageStart_ne_panic short) fun _ _ => ok_ne_panic _
      · refine bind_ne_panic (addU32_ne_panic_iff.mpr (by omega)) fun _ _ => ?_
        refine bind_ne_panic rejectIf_ne_panic fun _ _ => ?_
        have cursor : first &&& 0x7fff ≤ 0x7fff := Nat.and_le_right
        refine bind_ne_panic (walkStarts_ne_panic (by omega)) fun _ _ => ok_ne_panic _
  · intro scan' scanned
    obtain ⟨within, does⟩ := scanPage_eq_ok scanned
    cases does with
    | none read => exact ⟨Nat.le_succ_of_le pages, Nat.le_succ_of_le multiple, within⟩
    | single read some' plain below backed =>
        exact ⟨Nat.succ_le_succ pages, Nat.le_succ_of_le multiple, within⟩
    | several read some' marked behind walked =>
        obtain ⟨above, limit'⟩ := walkStarts_visits walked
        exact ⟨Nat.le_trans (Nat.succ_le_succ pages) above,
          Nat.le_trans (Nat.succ_le_succ multiple) above, limit'⟩

end Pages

/-- The ranges of a fixup blob end in the word. -/
structure FixupTable.Inv (table : FixupTable) : Prop where
  starts : table.starts < 2 ^ 32
  imports : table.importRange.offset + table.importRange.size < 2 ^ 64
  symbols : table.symbolRange.offset + table.symbolRange.size < 2 ^ 64

/-- What the loop over the segments of a blob keeps. -/
structure FixupScan.Inv (scan : FixupScan) : Prop where
  ranges : ∀ r ∈ scan.infoRanges, r.offset + r.size < 2 ^ 64
  limit : scan.startVisits ≤ maxPageStartVisits

theorem scanFixupSegment_calm {table : FixupTable} {scan : FixupScan}
    {entry : SegmentMetadata × Nat} (fixed : table.Inv) (inv : scan.Inv)
    (position : entry.2 < 2 ^ 32) :
    scanFixupSegment table scan entry ≠ .panic ∧
      ∀ scan', scanFixupSegment table scan entry = .ok scan' → scan'.Inv := by
  obtain ⟨segment, at'⟩ := entry
  dsimp only at position
  have starts := fixed.starts
  have pages_calm : ∀ {info : Bytes} {pageSize pageCount format available : Nat},
      pageSize < 2 ^ 16 → pageCount < 2 ^ 16 → available < 2 ^ 32 →
      (List.range pageCount).foldlM (scanPage info segment pageSize pageCount format available)
          ⟨0, 0, scan.startVisits⟩ ≠ .panic ∧
        ∀ pages, (List.range pageCount).foldlM
          (scanPage info segment pageSize pageCount format available) ⟨0, 0, scan.startVisits⟩ =
            .ok pages → pages.Inv := by
    intro info pageSize pageCount format available paged counted room
    refine foldlM_calm ⟨Nat.zero_le _, Nat.zero_le _, inv.limit⟩ fun pages kept page mem => ?_
    exact scanPage_calm kept (by have below := List.mem_range.mp mem; omega) paged room
  constructor
  · rw [scanFixupSegment]
    dsimp only
    refine bind_ne_panic (add_ne_panic_iff.mpr (by omega)) fun entries started => ?_
    rw [add_eq_ok] at started
    refine bind_ne_panic (mul_ne_panic_iff.mpr (by omega)) fun step stepped => ?_
    rw [mul_eq_ok] at stepped
    refine bind_ne_panic (add_ne_panic_iff.mpr (by omega)) fun relativeAt _ => ?_
    refine bind_ne_panic u32At_ne_panic fun relative _ => ?_
    split
    · exact ok_ne_panic _
    refine bind_ne_panic rejectIf_ne_panic fun _ _ => ?_
    refine bind_ne_panic ofOption_ne_panic fun start _ => ?_
    refine bind_ne_panic u32At_ne_panic fun size sized => ?_
    have short : size < 2 ^ 32 := u32At_lt sized
    refine bind_ne_panic rejectIf_ne_panic fun _ long => ?_
    rw [rejectIf_eq_ok] at long
    refine bind_ne_panic (sub_ne_panic_iff.mpr (by omega)) fun room roomy => ?_
    rw [sub_eq_ok] at roomy
    refine bind_ne_panic rejectIf_ne_panic fun _ _ => ?_
    refine bind_ne_panic slice_ne_panic fun info sliced => ?_
    have ends : start + size < 2 ^ 64 := (slice_eq_ok.mp sliced).1
    refine bind_ne_panic (anyM_ne_panic fun r mem => overlaps_ne_panic (inv.ranges r mem) ends)
      fun _ _ => ?_
    refine bind_ne_panic rejectIf_ne_panic fun _ _ => ?_
    refine bind_ne_panic (overlaps_ne_panic ends fixed.imports) fun _ _ => ?_
    refine bind_ne_panic rejectIf_ne_panic fun _ _ => ?_
    refine bind_ne_panic (overlaps_ne_panic ends fixed.symbols) fun _ _ => ?_
    refine bind_ne_panic rejectIf_ne_panic fun _ _ => ?_
    refine bind_ne_panic u16At_ne_panic fun pageSize paged => ?_
    refine bind_ne_panic u16At_ne_panic fun format _ => ?_
    refine bind_ne_panic u64At_ne_panic fun segmentOffset _ => ?_
    refine bind_ne_panic u16At_ne_panic fun pageCount counted => ?_
    refine bind_ne_panic rejectIf_ne_panic fun _ _ => ?_
    refine bind_ne_panic u32At_ne_panic fun reserved _ => ?_
    refine bind_ne_panic rejectIf_ne_panic fun _ _ => ?_
    refine bind_ne_panic rejectIf_ne_panic fun _ _ => ?_
    refine bind_ne_panic (pages_calm (u16At_lt paged) (u16At_lt counted) (by omega)).1
      fun _ _ => ok_ne_panic _
  · intro scan' scanned
    obtain ⟨_, _, ⟨_, rfl⟩ | ⟨_, _, block, info, pages, _, _, checked, rfl⟩⟩ :=
      scanFixupSegment_eq_ok scanned
    · exact inv
    have short : block.size < 2 ^ 32 := u32At_lt checked.sized
    have room : (block.size - 22) / 2 < 2 ^ 32 := by omega
    have kept : pages.Inv :=
      (pages_calm (u16At_lt checked.pageSize) (u16At_lt checked.pageCount) room).2 pages checked.ran
    refine ⟨fun r mem => ?_, kept.limit⟩
    rcases List.mem_append.mp mem with old | new
    · exact inv.ranges r old
    · rw [List.mem_singleton.mp new]
      exact checked.word

theorem parseFixups_ne_panic {bytes : Bytes} {file : FileRange} {segments : List SegmentMetadata}
    {headerAddress : Nat} : parseFixups bytes file segments headerAddress ≠ .panic := by
  rw [parseFixups]
  refine bind_ne_panic rejectIf_ne_panic fun _ limited => ?_
  refine bind_ne_panic range_ne_panic fun data ranged => ?_
  have short : data.length < 2 ^ 32 := by
    obtain ⟨_, inside, rfl⟩ := range_eq_ok.mp ranged
    rw [rejectIf_eq_ok, maxFixupBytes] at limited
    rw [length_window inside]
    omega
  refine bind_ne_panic slice_ne_panic fun _ _ => ?_
  refine bind_ne_panic u32At_ne_panic fun version _ => ?_
  refine bind_ne_panic rejectIf_ne_panic fun _ _ => ?_
  refine bind_ne_panic u32At_ne_panic fun starts started => ?_
  refine bind_ne_panic u32At_ne_panic fun imports _ => ?_
  refine bind_ne_panic u32At_ne_panic fun symbols _ => ?_
  refine bind_ne_panic u32At_ne_panic fun importsCount _ => ?_
  refine bind_ne_panic u32At_ne_panic fun importsFormat _ => ?_
  refine bind_ne_panic u32At_ne_panic fun symbolsFormat _ => ?_
  refine bind_ne_panic rejectIf_ne_panic fun _ valid => ?_
  rw [rejectIf_eq_ok] at valid
  refine bind_ne_panic ofOption_ne_panic fun width _ => ?_
  refine bind_ne_panic fileRange_ne_panic fun importRange imported => ?_
  obtain ⟨rfl, _, import_end, _⟩ := fileRange_eq_ok.mp imported
  refine bind_ne_panic (sub_ne_panic_iff.mpr (by omega)) fun symbolSize sized => ?_
  rw [sub_eq_ok] at sized
  dsimp only
  have symbol_end : symbols + symbolSize < 2 ^ 64 := by omega
  refine bind_ne_panic (overlaps_ne_panic import_end symbol_end) fun _ _ => ?_
  refine bind_ne_panic rejectIf_ne_panic fun _ _ => ?_
  refine bind_ne_panic u32At_ne_panic fun count counted => ?_
  have few : count < 2 ^ 32 := u32At_lt counted
  refine bind_ne_panic rejectIf_ne_panic fun _ same => ?_
  rw [rejectIf_eq_ok, not_not] at same
  refine bind_ne_panic (mul_ne_panic_iff.mpr (by omega)) fun entries product => ?_
  rw [mul_eq_ok] at product
  refine bind_ne_panic (add_ne_panic_iff.mpr (by omega)) fun tableSize sum => ?_
  refine bind_ne_panic slice_ne_panic fun _ sliced => ?_
  have table_end : starts + tableSize < 2 ^ 64 := (slice_eq_ok.mp sliced).1
  refine bind_ne_panic (overlaps_ne_panic table_end import_end) fun _ _ => ?_
  refine bind_ne_panic rejectIf_ne_panic fun _ _ => ?_
  refine bind_ne_panic (overlaps_ne_panic table_end symbol_end) fun _ _ => ?_
  refine bind_ne_panic rejectIf_ne_panic fun _ _ => ?_
  refine bind_ne_panic ?_ fun _ _ => ok_ne_panic _
  have start : FixupScan.Inv ⟨[], [], 0⟩ :=
    ⟨fun r mem => absurd mem List.not_mem_nil, Nat.zero_le _⟩
  refine (foldlM_calm start fun scan inv entry mem => ?_).1
  have below := List.snd_lt_of_mem_zipIdx mem
  exact scanFixupSegment_calm ⟨u32At_lt started, import_end, symbol_end⟩ inv (by omega)

/-! ### Load commands -/

section Commands

variable {bytes cmd : Bytes} {scan : CommandScan}

@[simp] theorem setEntry_ne_panic {value : EntryMetadata} : setEntry value scan ≠ .panic := by
  simp [setEntry, bind_ne_panic_iff]

theorem segmentCommand_ne_panic [UnstableSort] : segmentCommand bytes cmd scan ≠ .panic := by
  rw [segmentCommand]
  refine bind_ne_panic addBudget_ne_panic fun spent _ => ?_
  exact bind_ne_panic parseSegment_ne_panic fun _ _ => ok_ne_panic _

theorem filesetCommand_ne_panic {size : Nat} (whole : cmd.length = size) :
    filesetCommand bytes cmd size scan ≠ .panic := by
  rw [filesetCommand]
  refine bind_ne_panic rejectIf_ne_panic fun _ _ => ?_
  refine bind_ne_panic rejectIf_ne_panic fun _ _ => ?_
  refine bind_ne_panic u32At_ne_panic fun stringOffset _ => ?_
  refine bind_ne_panic rejectIf_ne_panic fun _ placed => ?_
  rw [rejectIf_eq_ok] at placed
  refine bind_ne_panic u32At_ne_panic fun reserved _ => ?_
  refine bind_ne_panic rejectIf_ne_panic fun _ _ => ?_
  refine bind_ne_panic (index_ne_panic_iff.mpr ⟨by omega, Nat.le_refl _⟩) fun tail _ => ?_
  refine bind_ne_panic ofOption_ne_panic fun length found => ?_
  have inside : length < tail.length :=
    List.findIdx?_eq_some_iff_getElem.mp (ofOption_eq_ok.mp found) |>.1
  refine bind_ne_panic rejectIf_ne_panic fun _ _ => ?_
  refine bind_ne_panic (index_ne_panic_iff.mpr ⟨Nat.zero_le _, Nat.le_of_lt inside⟩) fun _ _ => ?_
  refine bind_ne_panic u64At_ne_panic fun memberOffset _ => ?_
  refine bind_ne_panic u64At_ne_panic fun address _ => ?_
  refine bind_ne_panic range_ne_panic fun _ _ => ?_
  exact bind_ne_panic rejectIf_ne_panic fun _ _ => ok_ne_panic _

theorem threadCommand_ne_panic {profile : Profile} : threadCommand cmd profile scan ≠ .panic := by
  have state : threadState cmd profile ≠ .panic := by
    cases profile with
    | x86_64 =>
        refine bind_ne_panic exactSize_ne_panic fun _ _ => ?_
        refine bind_ne_panic u32At_ne_panic fun flavor _ => ?_
        refine bind_ne_panic rejectIf_ne_panic fun _ _ => ?_
        refine bind_ne_panic u32At_ne_panic fun count _ => ?_
        refine bind_ne_panic rejectIf_ne_panic fun _ _ => ?_
        exact bind_ne_panic u64At_ne_panic fun _ _ => ok_ne_panic _
    | arm64 =>
        refine bind_ne_panic rejectIf_ne_panic fun _ _ => ?_
        refine bind_ne_panic u32At_ne_panic fun flavor _ => ?_
        refine bind_ne_panic rejectIf_ne_panic fun _ _ => ?_
        refine bind_ne_panic u32At_ne_panic fun count _ => ?_
        refine bind_ne_panic rejectIf_ne_panic fun _ _ => ?_
        refine bind_ne_panic u64At_ne_panic fun instructionPointer _ => ?_
        refine bind_ne_panic u64At_ne_panic fun stackPointer _ => ?_
        refine bind_ne_panic u32At_ne_panic fun cpsr _ => ?_
        exact bind_ne_panic u32At_ne_panic fun _ _ => ok_ne_panic _
  exact bind_ne_panic state fun _ _ => setEntry_ne_panic

theorem mainCommand_ne_panic : mainCommand cmd scan ≠ .panic := by
  refine bind_ne_panic exactSize_ne_panic fun _ _ => ?_
  refine bind_ne_panic u64At_ne_panic fun textOffset _ => ?_
  exact bind_ne_panic u64At_ne_panic fun stackSize _ => setEntry_ne_panic

theorem symtabCommand_ne_panic : symtabCommand bytes cmd scan ≠ .panic := by
  refine bind_ne_panic exactSize_ne_panic fun _ _ => ?_
  refine bind_ne_panic rejectIf_ne_panic fun _ _ => ?_
  refine bind_ne_panic commandRange_ne_panic fun symbols _ => ?_
  refine bind_ne_panic commandRange_ne_panic fun strings _ => ?_
  exact bind_ne_panic u32At_ne_panic fun _ _ => ok_ne_panic _

theorem dysymtabCommand_ne_panic : dysymtabCommand bytes cmd scan ≠ .panic := by
  rw [dysymtabCommand]
  refine bind_ne_panic exactSize_ne_panic fun _ _ => ?_
  refine bind_ne_panic rejectIf_ne_panic fun _ _ => ?_
  exact bind_ne_panic (collect_ne_panic fun _ _ => commandRange_ne_panic) fun _ _ => ok_ne_panic _

theorem fixupsCommand_ne_panic : fixupsCommand bytes cmd scan ≠ .panic := by
  refine bind_ne_panic exactSize_ne_panic fun _ _ => ?_
  refine bind_ne_panic rejectIf_ne_panic fun _ _ => ?_
  exact bind_ne_panic commandRange_ne_panic fun _ _ => ok_ne_panic _

theorem sizedCommand_ne_panic {expected : Nat} : sizedCommand cmd expected scan ≠ .panic := by
  simp [sizedCommand, bind_ne_panic_iff]

theorem buildVersionCommand_ne_panic {size : Nat} : buildVersionCommand cmd size scan ≠ .panic := by
  rw [buildVersionCommand]
  refine bind_ne_panic slice_ne_panic fun _ _ => ?_
  refine bind_ne_panic u32At_ne_panic fun tools read => ?_
  have few : tools < 2 ^ 32 := u32At_lt read
  refine bind_ne_panic (mul_ne_panic_iff.mpr (by omega)) fun table product => ?_
  rw [mul_eq_ok] at product
  refine bind_ne_panic (add_ne_panic_iff.mpr (by omega)) fun expected _ => ?_
  exact bind_ne_panic rejectIf_ne_panic fun _ _ => ok_ne_panic _

theorem linkeditCommand_ne_panic {kind : Nat} : linkeditCommand bytes cmd kind scan ≠ .panic := by
  refine bind_ne_panic exactSize_ne_panic fun _ _ => ?_
  refine bind_ne_panic u32At_ne_panic fun n _ => ?_
  refine bind_ne_panic rejectIf_ne_panic fun _ _ => ?_
  refine bind_ne_panic u32At_ne_panic fun offset _ => ?_
  exact bind_ne_panic fileRange_ne_panic fun _ _ => ok_ne_panic _

variable [UnstableSort] {outer : Bool} {profile : Profile}

theorem loadCommand_ne_panic {kind size : Nat} (whole : cmd.length = size) :
    loadCommand bytes outer profile kind size cmd scan ≠ .panic := by
  rw [loadCommand]
  refine ite_ne_panic segmentCommand_ne_panic ?_
  refine ite_ne_panic (filesetCommand_ne_panic whole) ?_
  refine ite_ne_panic threadCommand_ne_panic ?_
  refine ite_ne_panic mainCommand_ne_panic ?_
  refine ite_ne_panic symtabCommand_ne_panic ?_
  refine ite_ne_panic dysymtabCommand_ne_panic ?_
  refine ite_ne_panic fixupsCommand_ne_panic ?_
  refine ite_ne_panic sizedCommand_ne_panic ?_
  refine ite_ne_panic sizedCommand_ne_panic ?_
  refine ite_ne_panic buildVersionCommand_ne_panic ?_
  exact ite_ne_panic linkeditCommand_ne_panic (by simp)

theorem scanCommand_ne_panic {commands : Bytes} :
    scanCommand bytes outer profile commands scan ≠ .panic := by
  rw [scanCommand]
  refine bind_ne_panic u32At_ne_panic fun kind read => ?_
  refine bind_ne_panic (add_ne_panic_iff.mpr (u32At_inside read)) fun sizeAt _ => ?_
  refine bind_ne_panic u32At_ne_panic fun size _ => ?_
  refine bind_ne_panic rejectIf_ne_panic fun _ _ => ?_
  refine bind_ne_panic slice_ne_panic fun cmd sliced => ?_
  refine bind_ne_panic (loadCommand_ne_panic (length_of_slice sliced)) fun _ _ => ?_
  exact bind_ne_panic ofOption_ne_panic fun _ _ => ok_ne_panic _

theorem scanCommands_ne_panic {commands : Bytes} {count : Nat} :
    scanCommands bytes outer profile commands count scan ≠ .panic := by
  induction count generalizing scan with
  | zero => exact ok_ne_panic _
  | succ count ih => exact bind_ne_panic scanCommand_ne_panic fun _ _ => ih

end Commands

/-! ### Images and collections -/

theorem headerIn_ne_panic {base size : Nat} {s : SegmentMetadata} :
    headerIn base size s ≠ .panic := by
  rw [headerIn]
  split
  · next inside =>
      have start : s.file.offset ≤ base := (contains_iff.mp inside).1.1
      exact bind_ne_panic (sub_ne_panic_iff.mpr start) fun _ _ => ok_ne_panic _
  · exact ok_ne_panic _

theorem parseRelocations_ne_panic {bytes : Bytes} {scan : CommandScan} :
    parseRelocations bytes scan ≠ .panic := by
  rw [parseRelocations]
  split
  · exact ok_ne_panic _
  · refine bind_ne_panic ofOption_ne_panic fun symbols _ => ?_
    refine bind_ne_panic (forEach_ne_panic fun at' _ => ?_) fun _ _ => ?_
    · refine bind_ne_panic u32At_ne_panic fun first _ => ?_
      refine bind_ne_panic u32At_ne_panic fun count _ => ?_
      exact bind_ne_panic rangeEnd_ne_panic fun _ _ => rejectIf_ne_panic
    · refine bind_ne_panic commandRange_ne_panic fun localRange _ => ?_
      refine bind_ne_panic commandRange_ne_panic fun external _ => ?_
      refine bind_ne_panic u32At_ne_panic fun localCount _ => ?_
      exact bind_ne_panic u32At_ne_panic fun _ _ => ok_ne_panic _

theorem parseFixupRange_ne_panic {bytes : Bytes} {scan : CommandScan} {headerAddress : Nat} :
    parseFixupRange bytes scan headerAddress ≠ .panic := by
  rw [parseFixupRange]
  split
  · exact ok_ne_panic _
  · exact bind_ne_panic parseFixups_ne_panic fun _ _ => ok_ne_panic _

section Images

variable [UnstableSort] {bytes : Bytes}

theorem validateNonoverlap_ne_panic {segments : List SegmentMetadata} (word : bytes.length < 2 ^ 64)
    (each : ∀ s ∈ segments, SegmentOk bytes s) : validateNonoverlap segments ≠ .panic := by
  rw [validateNonoverlap]
  refine bind_ne_panic (forWindows_ne_panic fun a _ b _ => ?_) fun _ _ => ?_
  · exact bind_ne_panic rangeEnd_ne_panic fun _ _ => rejectIf_ne_panic
  · have ends : ∀ s ∈ UnstableSort.sortByKey (·.file.offset) (segments.filter (·.file.size ≠ 0)),
        s.file.offset + s.file.size < 2 ^ 64 := by
      intro s mem
      have inside := (each s (List.mem_filter.mp (UnstableSort.mem_sortByKey.mp mem)).1).inside
      omega
    refine forWindows_ne_panic fun a a_mem b b_mem => ?_
    exact bind_ne_panic (overlaps_ne_panic (ends a a_mem) (ends b b_mem))
      fun _ _ => rejectIf_ne_panic

theorem parseImage_ne_panic {base : Nat} {outer : Bool} {profile : Profile} {budget : Budget}
    (word : bytes.length < 2 ^ 64) (within : budget.segments ≤ maxSegments) :
    parseImage bytes base outer profile budget ≠ .panic := by
  rw [parseImage]
  refine bind_ne_panic range_ne_panic fun h _ => ?_
  refine bind_ne_panic u32At_ne_panic fun magic _ => ?_
  refine bind_ne_panic rejectIf_ne_panic fun _ _ => ?_
  refine bind_ne_panic u32At_ne_panic fun cpuType _ => ?_
  refine bind_ne_panic u32At_ne_panic fun cpuSubtype _ => ?_
  refine bind_ne_panic rejectIf_ne_panic fun _ _ => ?_
  refine bind_ne_panic u32At_ne_panic fun fileType _ => ?_
  refine bind_ne_panic rejectIf_ne_panic fun _ _ => ?_
  refine bind_ne_panic u32At_ne_panic fun count _ => ?_
  refine bind_ne_panic u32At_ne_panic fun commandBytes sized => ?_
  have short : commandBytes < 2 ^ 32 := u32At_lt sized
  refine bind_ne_panic u32At_ne_panic fun reserved _ => ?_
  refine bind_ne_panic rejectIf_ne_panic fun _ _ => ?_
  refine bind_ne_panic addBudget_ne_panic fun spent _ => ?_
  refine bind_ne_panic rejectIf_ne_panic fun _ _ => ?_
  refine bind_ne_panic rangeEnd_ne_panic fun first _ => ?_
  refine bind_ne_panic range_ne_panic fun commands _ => ?_
  refine bind_ne_panic scanCommands_ne_panic fun scan ran => ?_
  have start : ScanInv bytes budget.segments (.start { budget with commands := spent }) :=
    .start { budget with commands := spent } within
  have inv := start.run ran
  refine bind_ne_panic rejectIf_ne_panic fun _ _ => ?_
  refine bind_ne_panic (validateNonoverlap_ne_panic word inv.segments) fun _ _ => ?_
  refine bind_ne_panic (add_ne_panic_iff.mpr (by omega)) fun headerSize _ => ?_
  refine bind_ne_panic (findMapM_ne_panic fun _ _ => headerIn_ne_panic) fun found _ => ?_
  refine bind_ne_panic ofOption_ne_panic fun headerAddress _ => ?_
  refine bind_ne_panic rejectIf_ne_panic fun _ _ => ?_
  refine bind_ne_panic rejectIf_ne_panic fun _ _ => ?_
  refine bind_ne_panic parseRelocations_ne_panic fun _ _ => ?_
  refine bind_ne_panic parseFixupRange_ne_panic fun _ _ => ?_
  exact bind_ne_panic u32At_ne_panic fun _ _ => ok_ne_panic _

theorem inspectMember_ne_panic {profile : Profile} {outer : ImageMetadata}
    {reference : MemberReference} {budget : Budget} (word : bytes.length < 2 ^ 64)
    (within : budget.segments ≤ maxSegments) :
    inspectMember bytes profile outer reference budget ≠ .panic := by
  rw [inspectMember]
  refine bind_ne_panic (parseImage_ne_panic word within) fun parsed done => ?_
  obtain ⟨inv, _⟩ := parseImage_eq_ok done within
  obtain ⟨s, mem, viewed⟩ := inv.header
  have header : parsed.1.image.headerFileOffset + (32 + parsed.1.image.commandBytes) ≤
      s.file.offset + s.file.size := viewed.within.2
  have inside := (inv.each s mem).inside
  dsimp only
  refine bind_ne_panic rejectIf_ne_panic fun _ _ => ?_
  refine bind_ne_panic rejectIf_ne_panic fun _ _ => ?_
  refine bind_ne_panic (add_ne_panic_iff.mpr (by omega)) fun headerSize _ => ?_
  refine bind_ne_panic rejectIf_ne_panic fun _ _ => ?_
  refine bind_ne_panic (forEach_ne_panic fun s _ => ?_) fun _ _ => ok_ne_panic _
  exact bind_ne_panic rejectIf_ne_panic fun _ _ => rejectIf_ne_panic

theorem inspectMembers_ne_panic {profile : Profile} {outer : ImageMetadata}
    {references : List MemberReference} {budget : Budget} (word : bytes.length < 2 ^ 64)
    (within : budget.segments ≤ maxSegments) :
    inspectMembers bytes profile outer references budget ≠ .panic := by
  induction references generalizing budget with
  | nil => exact ok_ne_panic _
  | cons reference rest ih =>
      rw [inspectMembers]
      refine bind_ne_panic (inspectMember_ne_panic word within) fun left done => ?_
      obtain ⟨_, _, _, limit⟩ := inspectMember_eq_ok done within
      exact bind_ne_panic (ih limit) fun _ _ => ok_ne_panic _

theorem inspectProfile_ne_panic {profile : Profile} : inspectProfile bytes profile ≠ .panic := by
  have entry : ∀ image, validateCollectionEntry image ≠ .panic := by
    intro image
    refine bind_ne_panic ofOption_ne_panic fun entry _ => ?_
    cases entry <;> simp
  rw [inspectProfile]
  refine bind_ne_panic rejectIf_ne_panic fun _ limited => ?_
  have word : bytes.length < 2 ^ 64 := by
    rw [rejectIf_eq_ok, maxInputSize] at limited
    omega
  refine bind_ne_panic (parseImage_ne_panic word (Nat.zero_le _)) fun outer done => ?_
  obtain ⟨_, _, _, _, limit⟩ := parseImage_eq_ok done (Nat.zero_le _)
  refine bind_ne_panic (entry _) fun _ _ => ?_
  refine bind_ne_panic rejectIf_ne_panic fun _ _ => ?_
  exact bind_ne_panic (inspectMembers_ne_panic word limit) fun _ _ => ok_ne_panic _

end Images

/-- Inspection ends in a value or an error, for both profiles and every byte string. -/
theorem inspect_never_panics [UnstableSort] (bytes : Bytes) :
    inspectKernelCollection bytes ≠ .panic ∧ inspectArm64KernelCollection bytes ≠ .panic :=
  ⟨inspectProfile_ne_panic, inspectProfile_ne_panic⟩

end Nextcore.KernelCollection
