import Nextcore.StartupImage.Staged

/-!
Staging writes everything or nothing.

Reading an image does not panic, whatever the bytes: what each unguarded sum needs has been
checked of the segment before (`SegmentOk`). Neither does placing two images, and staging images
that were parsed and placed does not fail at all. So an error is returned only while the memory
is still as it was.
-/

namespace Nextcore.StartupImage

open Checked Checked.Outcome Checked.Exec

/-! ### Reading an image -/

section Parse

variable {source command : Bytes} {s : Segment}

@[simp] theorem bytes_ne_panic {offset size : Nat} : bytes source offset size ≠ .panic :=
  sliceOr_ne_panic

@[simp] theorem read32_ne_panic {offset : Nat} : read32 source offset ≠ .panic := wordOr_ne_panic

@[simp] theorem read64_ne_panic {offset : Nat} : read64 source offset ≠ .panic := wordOr_ne_panic

@[simp] theorem fileTable_ne_panic {offset count width : Nat} :
    fileTable source offset count width ≠ .panic := by
  simp [fileTable, bind_ne_panic_iff]

@[simp] theorem alignUp_ne_panic {value : Nat} : alignUp value ≠ .panic := by
  simp [alignUp, bind_ne_panic_iff]

theorem SegmentOk.fileWord (ok : SegmentOk source s) (short : source.length ≤ maxFileSize) :
    s.fileoff + s.filesize < 2 ^ 64 := by
  have inside := ok.inside
  rw [maxFileSize] at short
  omega

theorem validateFile_ne_panic (ok : SegmentOk source s) (short : source.length ≤ maxFileSize)
    (section' : Bytes) (flags size : Nat) : validateFile s section' flags size ≠ .panic := by
  rw [validateFile]
  split
  · refine bind_ne_panic read32_ne_panic fun _ _ => ?_
    refine bind_ne_panic ofOption_ne_panic fun _ _ => ?_
    exact bind_ne_panic (add_ne_panic_iff.mpr (ok.fileWord short)) fun _ _ => rejectIf_ne_panic
  · exact ok_ne_panic _

theorem validateSection_ne_panic (ok : SegmentOk source s) (short : source.length ≤ maxFileSize)
    (section' : Bytes) : validateSection source s section' ≠ .panic := by
  rw [validateSection]
  refine bind_ne_panic read64_ne_panic fun _ _ => ?_
  refine bind_ne_panic read64_ne_panic fun _ _ => ?_
  refine bind_ne_panic ofOption_ne_panic fun _ _ => ?_
  refine bind_ne_panic (add_ne_panic_iff.mpr ok.word) fun _ _ => ?_
  refine bind_ne_panic rejectIf_ne_panic fun _ _ => ?_
  refine bind_ne_panic read32_ne_panic fun _ _ => ?_
  refine bind_ne_panic rejectIf_ne_panic fun _ _ => ?_
  refine bind_ne_panic read32_ne_panic fun _ _ => ?_
  refine bind_ne_panic (validateFile_ne_panic ok short _ _ _) fun _ _ => ?_
  refine bind_ne_panic read32_ne_panic fun _ _ => ?_
  exact bind_ne_panic read32_ne_panic fun _ _ => fileTable_ne_panic

/-- The sections that a command has room for are sliced inside it. -/
theorem sectionAt_ne_panic {count k : Nat} (room : count * 80 + 72 ≤ command.length)
    (few : count ≤ 1024) (below : k < count) : sectionAt command k ≠ .panic := by
  have room' : (k + 1) * 80 + 72 ≤ command.length :=
    (Nat.add_le_add_right (Nat.mul_le_mul_right 80 below) 72).trans room
  rw [sectionAt, mul_of_lt (by omega), bind_ok, add_of_lt (by omega), bind_ok,
    add_of_lt (by omega), bind_ok, mul_of_lt (by omega), bind_ok, add_of_lt (by omega), bind_ok]
  exact index_ne_panic_iff.mpr ⟨by omega, by omega⟩

/-- The sections are read only for a segment that has been checked. -/
theorem segmentCommand_ne_panic (short : source.length ≤ maxFileSize) {size : Nat}
    (whole : command.length = size) (scan : Scan) :
    segmentCommand source command size scan ≠ .panic := by
  rw [segmentCommand]
  refine bind_ne_panic rejectIf_ne_panic fun _ long => ?_
  rw [rejectIf_eq_ok, Nat.not_lt] at long
  refine bind_ne_panic read32_ne_panic fun nsects _ => ?_
  refine bind_ne_panic ofOption_ne_panic fun expected sized => ?_
  refine bind_ne_panic rejectIf_ne_panic fun _ exact' => ?_
  refine bind_ne_panic read64_ne_panic fun vmaddr _ => ?_
  refine bind_ne_panic read64_ne_panic fun vmsize _ => ?_
  refine bind_ne_panic read64_ne_panic fun fileoff _ => ?_
  refine bind_ne_panic read64_ne_panic fun filesize _ => ?_
  refine bind_ne_panic (index_ne_panic_iff.mpr ⟨by decide, by omega⟩) fun name _ => ?_
  split
  · simp [bind_ne_panic_iff]
  · refine bind_ne_panic rejectIf_ne_panic fun _ valid => ?_
    refine bind_ne_panic bytes_ne_panic fun _ inside => ?_
    rw [rejectIf_eq_ok] at valid
    push Not at valid
    obtain ⟨_, _, fits, word⟩ := valid
    obtain ⟨stop, added⟩ := Option.ne_none_iff_exists'.mp word
    have ok : SegmentOk source ⟨vmaddr, vmsize, fileoff, filesize⟩ :=
      ⟨fits, (checkedAdd_eq_some.mp added).1, (sliceOr_eq_ok.mp inside).1.2⟩
    rw [ofOption_eq_ok, Option.bind_eq_some_iff] at sized
    obtain ⟨table, multiplied, summed⟩ := sized
    obtain ⟨_, rfl⟩ := checkedMul_eq_some.mp multiplied
    obtain ⟨_, rfl⟩ := checkedAdd_eq_some.mp summed
    rw [rejectIf_eq_ok] at exact'
    push Not at exact'
    refine bind_ne_panic (forEach_ne_panic fun k mem => ?_) fun _ _ => ok_ne_panic _
    have room : nsects * 80 + 72 ≤ command.length := by omega
    have section' := sectionAt_ne_panic room exact'.2 (List.mem_range.mp mem)
    exact bind_ne_panic section' fun _ _ => validateSection_ne_panic ok short _

theorem loadCommand_ne_panic (short : source.length ≤ maxFileSize) {kind size : Nat}
    (whole : command.length = size) (scan : Scan) :
    loadCommand source command kind size scan ≠ .panic := by
  have symtab : symtabCommand source command size scan ≠ .panic := by
    simp [symtabCommand, bind_ne_panic_iff]
  have dysymtab : dysymtabCommand source command size scan ≠ .panic := by
    refine bind_ne_panic rejectIf_ne_panic fun _ _ => ?_
    refine bind_ne_panic (forEach_ne_panic fun table mem => ?_) fun _ _ => ?_
    · have low : ∀ table ∈ [(32, 8), (40, 56), (48, 4), (56, 4), (64, 8), (72, 8)],
          table.1 + 4 < 2 ^ 64 := by decide
      refine bind_ne_panic read32_ne_panic fun _ _ => ?_
      refine bind_ne_panic (add_ne_panic_iff.mpr (low table mem)) fun _ _ => ?_
      exact bind_ne_panic read32_ne_panic fun _ _ => fileTable_ne_panic
    · refine bind_ne_panic (collect_ne_panic fun _ _ => ?_) fun _ _ => ok_ne_panic _
      exact bind_ne_panic read32_ne_panic fun _ _ =>
        bind_ne_panic read32_ne_panic fun _ _ => ok_ne_panic _
  have thread : threadCommand command size scan ≠ .panic := by
    simp [threadCommand, bind_ne_panic_iff]
  rw [loadCommand]
  apply ite_ne_panic (segmentCommand_ne_panic short whole scan)
  apply ite_ne_panic symtab
  apply ite_ne_panic dysymtab
  apply ite_ne_panic (ok_ne_panic _)
  apply ite_ne_panic (ok_ne_panic _)
  apply ite_ne_panic thread
  split <;> simp

theorem scanCommand_ne_panic (short : source.length ≤ maxFileSize) (commands : Bytes)
    (scan : Scan) : scanCommand source commands scan ≠ .panic := by
  rw [scanCommand]
  refine bind_ne_panic read32_ne_panic fun _ _ => ?_
  refine bind_ne_panic ofOption_ne_panic fun _ _ => ?_
  refine bind_ne_panic read32_ne_panic fun size _ => ?_
  refine bind_ne_panic rejectIf_ne_panic fun _ _ => ?_
  refine bind_ne_panic bytes_ne_panic fun command sliced => ?_
  obtain ⟨inside, rfl⟩ := sliceOr_eq_ok.mp sliced
  refine bind_ne_panic (loadCommand_ne_panic short (length_window inside.2) _) fun _ _ => ?_
  exact bind_ne_panic ofOption_ne_panic fun _ _ => ok_ne_panic _

theorem validateSymbols_ne_panic {count : Option Nat} (dysymtab : Option (List (Nat × Nat))) :
    validateSymbols count dysymtab ≠ .panic := by
  cases dysymtab with
  | none => exact ok_ne_panic _
  | some ranges =>
      refine bind_ne_panic ofOption_ne_panic fun _ _ => forEach_ne_panic fun _ _ => ?_
      exact bind_ne_panic ofOption_ne_panic fun _ _ => rejectIf_ne_panic

end Parse

section Plan

variable [UnstableSort] {source : Bytes}

/-- The sums over the segments are those that the commands have checked. -/
theorem planImage_ne_panic (short : source.length ≤ maxFileSize) {commandBytes : Nat}
    (few : commandBytes ≤ maxCommandBytes) {scan : Scan}
    (each : ∀ s ∈ scan.segments, SegmentOk source s) :
    planImage source commandBytes scan ≠ .panic := by
  have sorted_each : ∀ s ∈ UnstableSort.sortByKey (·.vmaddr) scan.segments, SegmentOk source s := by
    intro s mem
    exact each s (UnstableSort.mem_sortByKey.mp mem)
  rw [planImage]
  refine bind_ne_panic (validateSymbols_ne_panic _) fun _ _ => ?_
  refine bind_ne_panic rejectIf_ne_panic fun _ nonempty => ?_
  rw [rejectIf_eq_ok, List.isEmpty_iff] at nonempty
  refine bind_ne_panic ?_ fun first _ => ?_
  · rw [Ne, expect_eq_panic, UnstableSort.head?_sortByKey_eq_none]
    exact nonempty
  refine bind_ne_panic rejectIf_ne_panic fun _ _ => ?_
  have header : 32 + commandBytes < 2 ^ 64 := by
    rw [maxCommandBytes] at few
    omega
  refine bind_ne_panic (add_ne_panic_iff.mpr header) fun _ _ => ?_
  refine bind_ne_panic rejectIf_ne_panic fun _ _ => ?_
  refine bind_ne_panic (forWindows_ne_panic fun a mem _ _ => ?_) fun _ _ => ?_
  · exact bind_ne_panic (add_ne_panic_iff.mpr (sorted_each a mem).word) fun _ _ =>
      rejectIf_ne_panic
  refine bind_ne_panic (forEarlier_ne_panic fun a mem b b_mem => ?_) fun _ _ => ?_
  · have earlier : b ∈ UnstableSort.sortByKey (·.vmaddr) scan.segments :=
      b_mem.resolve_left List.not_mem_nil
    rw [rejectShared, overlaps, rangesMeet_of_lt ((sorted_each a mem).fileWord short)
      ((sorted_each b earlier).fileWord short), bind_ok]
    exact rejectIf_ne_panic
  refine bind_ne_panic ofOption_ne_panic fun last found => ?_
  have last_mem := List.mem_of_getLast? (ofOption_eq_ok.mp found)
  refine bind_ne_panic (add_ne_panic_iff.mpr (sorted_each last last_mem).word) fun _ _ => ?_
  refine bind_ne_panic alignUp_ne_panic fun _ _ => ?_
  refine bind_ne_panic ofOption_ne_panic fun _ _ => ?_
  refine bind_ne_panic rejectIf_ne_panic fun _ _ => ?_
  exact bind_ne_panic (foldlM_ne_panic fun _ _ _ => ofOption_ne_panic) fun _ _ => ok_ne_panic _

theorem parseImage_ne_panic (source : Bytes) : parseImage source ≠ .panic := by
  rw [parseImage]
  refine bind_ne_panic rejectIf_ne_panic fun _ limit => ?_
  rw [rejectIf_eq_ok, Nat.not_lt] at limit
  refine bind_ne_panic read32_ne_panic fun _ _ => ?_
  refine bind_ne_panic rejectIf_ne_panic fun _ _ => ?_
  refine bind_ne_panic bytes_ne_panic fun header _ => ?_
  -- The words of the header, each with its check.
  iterate 5
    refine bind_ne_panic read32_ne_panic fun _ _ => ?_
    refine bind_ne_panic rejectIf_ne_panic fun _ _ => ?_
  refine bind_ne_panic read32_ne_panic fun count _ => ?_
  refine bind_ne_panic read32_ne_panic fun commandBytes _ => ?_
  refine bind_ne_panic rejectIf_ne_panic fun _ few => ?_
  rw [rejectIf_eq_ok, not_or, Nat.not_lt, Nat.not_lt] at few
  refine bind_ne_panic rejectIf_ne_panic fun _ _ => ?_
  refine bind_ne_panic bytes_ne_panic fun commands _ => ?_
  have scanned : iterate (scanCommand source commands) count .start ≠ .panic ∧
      ∀ last, iterate (scanCommand source commands) count .start = .ok last →
        Scan.Inv source commands (0 + count) last :=
    iterate_calm (Scan.inv_start source commands) fun k _ scan inv =>
      ⟨scanCommand_ne_panic limit commands scan, fun _ done => inv.step done⟩
  refine bind_ne_panic scanned.1 fun scan ran => ?_
  refine bind_ne_panic rejectIf_ne_panic fun _ _ => ?_
  exact planImage_ne_panic limit few.2 (scanned.2 scan ran).each

/-! ### Placing and staging -/

omit [UnstableSort] in
theorem place_ne_panic (sptm txm : Image) (physicalBase occupiedEnd memorySize : Nat) :
    place sptm txm physicalBase occupiedEnd memorySize ≠ .panic := by
  rw [place]
  refine bind_ne_panic ofOption_ne_panic fun _ _ => ?_
  refine bind_ne_panic rejectIf_ne_panic fun _ _ => ?_
  refine bind_ne_panic alignUp_ne_panic fun sptmBase aligned => ?_
  obtain ⟨_, rfl⟩ := alignUp_eq_ok.mp aligned
  refine bind_ne_panic ofOption_ne_panic fun sptmEnd summed => ?_
  obtain ⟨_, rfl⟩ := checkedAdd_eq_some.mp (ofOption_eq_ok.mp summed)
  refine bind_ne_panic alignUp_ne_panic fun txmBase aligned' => ?_
  obtain ⟨_, rfl⟩ := alignUp_eq_ok.mp aligned'
  have behind := le_roundUp (p := pageSize) (by decide) (max occupiedEnd physicalBase)
  have follows := le_roundUp (p := pageSize) (by decide)
    (roundUp pageSize (max occupiedEnd physicalBase) + sptm.span)
  refine bind_ne_panic ofOption_ne_panic fun _ _ => ?_
  refine bind_ne_panic rejectIf_ne_panic fun _ _ => ?_
  refine bind_ne_panic (sub_ne_panic_iff.mpr (by omega)) fun _ _ => ?_
  refine bind_ne_panic (sub_ne_panic_iff.mpr (by omega)) fun _ _ => ?_
  refine bind_ne_panic ofOption_ne_panic fun _ _ => ?_
  refine bind_ne_panic ofOption_ne_panic fun _ _ => ?_
  exact bind_ne_panic rejectIf_ne_panic fun _ _ => ok_ne_panic _

end Plan

/-- A call either stops in front of the first write or runs to its end. -/
theorem refused_or_staged [UnstableSort] (sptm txm memory : Bytes)
    (physicalBase occupiedEnd : Nat) :
    (∃ e, (stageStartupImages sptm txm physicalBase occupiedEnd).on memory = (.err e, memory)) ∨
      ∃ result after, (stageStartupImages sptm txm physicalBase occupiedEnd).on memory =
        (.ok result, after) := by
  cases parsed : parseImage sptm with
  | panic => exact absurd parsed (parseImage_ne_panic sptm)
  | err e => exact .inl ⟨e, on_look_bind_of_err (g := fun _ => parseImage sptm) parsed⟩
  | ok sptmImage =>
      cases parsed' : parseImage txm with
      | panic => exact absurd parsed' (parseImage_ne_panic txm)
      | err e =>
          left
          refine ⟨e, (on_look_bind_of_ok (g := fun _ => parseImage sptm) parsed).trans ?_⟩
          exact on_look_bind_of_err (g := fun _ => parseImage txm) parsed'
      | ok txmImage =>
          cases placed : place sptmImage txmImage physicalBase occupiedEnd memory.length with
          | panic => exact absurd placed (place_ne_panic _ _ _ _ _)
          | err e =>
              left
              refine ⟨e, (on_look_bind_of_ok (g := fun _ => parseImage sptm) parsed).trans ?_⟩
              refine (on_look_bind_of_ok (g := fun _ => parseImage txm) parsed').trans ?_
              exact on_look_bind_of_err (s := memory) (g := fun memory =>
                place sptmImage txmImage physicalBase occupiedEnd memory.length) placed
          | ok places => exact .inr ⟨_, _, on_stageStartupImages parsed parsed' placed⟩

/-- What the offsets of a parsed image stay below, in the file and in the span. -/
structure InRange (image : Image) : Prop where
  span : image.span ≤ maxImageSize
  source : image.source.length ≤ maxFileSize
  low : ∀ s ∈ image.segments, image.virtualBase ≤ s.vmaddr
  span_of : ∀ s ∈ image.segments, s.vmaddr - image.virtualBase + s.vmsize ≤ image.span
  files : ∀ s ∈ image.segments,
    s.filesize ≤ s.vmsize ∧ s.fileoff + s.filesize ≤ image.source.length

theorem Parsed.inRange {source : Bytes} {image : Image} (parsed : Parsed source image) :
    InRange image where
  span := parsed.small
  source := parsed.source_eq ▸ parsed.short
  low := parsed.low
  span_of := by
    intro s mem
    have low := parsed.low s mem
    have high := parsed.high s mem
    omega
  files := by
    intro s mem
    have ok := parsed.each s mem
    exact ⟨ok.fits, parsed.source_eq ▸ ok.inside⟩

/-- No call panics, and one that returns an error leaves the memory as it was. Reading an image
does not panic on any bytes, and whatever is read can be staged in its span without an error; so
images that were read and placed are staged. -/
theorem staging_transactional [UnstableSort] (sptm txm memory : Bytes)
    (physicalBase occupiedEnd : Nat) :
    ((stageStartupImages sptm txm physicalBase occupiedEnd).on memory).1 ≠ .panic ∧
    (∀ e, ((stageStartupImages sptm txm physicalBase occupiedEnd).on memory).1 = .err e →
      ((stageStartupImages sptm txm physicalBase occupiedEnd).on memory).2 = memory) ∧
    (∀ sptmImage txmImage places, parseImage sptm = .ok sptmImage →
      parseImage txm = .ok txmImage →
        place sptmImage txmImage physicalBase occupiedEnd memory.length = .ok places →
          ((stageStartupImages sptm txm physicalBase occupiedEnd).on memory).1 =
            .ok places.result) ∧
    ∀ source, parseImage source ≠ .panic ∧ ∀ image, parseImage source = .ok image →
      InRange image ∧ ∀ destination : Bytes, destination.length = image.span →
        ((stageImage image).on destination).1 = .ok () := by
  refine ⟨?_, ?_, ?_, fun source => ⟨parseImage_ne_panic source, ?_⟩⟩
  · rcases refused_or_staged sptm txm memory physicalBase occupiedEnd with
      ⟨e, refused⟩ | ⟨result, after, staged⟩
    · rw [refused]
      simp
    · rw [staged]
      simp
  · intro e failed
    rcases refused_or_staged sptm txm memory physicalBase occupiedEnd with
      ⟨_, refused⟩ | ⟨result, after, staged⟩
    · rw [refused]
    · rw [staged] at failed
      cases failed
  · intro sptmImage txmImage places parsed parsed' placed
    rw [on_stageStartupImages parsed parsed' placed]
  · intro image parsed
    refine ⟨(parseImage_eq_ok parsed).inRange, fun destination length => ?_⟩
    rw [on_stageImage (parseImage_eq_ok parsed) length]

end Nextcore.StartupImage
