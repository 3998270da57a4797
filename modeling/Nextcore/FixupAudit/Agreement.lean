import Nextcore.FixupAudit.Limits
import Nextcore.FixupAudit.Starts

/-!
The inspector and the audit agree about the fixups.

Once the inspector has accepted a source, its audit returns a result or runs into a limit, and the
result has a record for the first word of every chain. `ImageGiven` collects what the inspector
has checked of an image; each part of the audit then ends well (`Ends`), adding records that the
pass over them can order (`Onward`).
-/

namespace Nextcore.FixupAudit

open Checked Checked.Outcome KernelCollection

/-! ### The outer mappings -/

section Mappings

variable [UnstableSort] {source : Bytes} {image : ImageMetadata} {maps : List Mapping}

/-- The mapping of a segment. -/
def mappingOf (s : SegmentMetadata) : Mapping :=
  ⟨s.address, s.address + s.memorySize, s.address + s.file.size, s.file.offset⟩

/-- The addresses of a mapping. -/
def Mapping.memory (m : Mapping) : Span := ⟨m.start, m.stop - m.start⟩

theorem mappings_of_segments {segments : List SegmentMetadata}
    (each : ∀ s ∈ segments, SegmentOk source s) :
    mappings segments = .ok (UnstableSort.sortByKey (·.start)
      ((segments.filter (·.memorySize ≠ 0)).map mappingOf)) := by
  have made : ∀ s ∈ segments.filter (·.memorySize ≠ 0), mapping s = .ok (mappingOf s) := by
    intro s mem
    have noWrap := (each s (List.mem_filter.mp mem).1).noWrap
    have fits := (each s (List.mem_filter.mp mem).1).fileFits
    rw [mapping, addWord_eq_ok.mpr ⟨noWrap, rfl⟩, bind_ok,
      addWord_eq_ok.mpr ⟨by omega, rfl⟩, bind_ok]
    rfl
  rw [mappings, collect_of made, bind_ok, pure_eq]

/-- Mappings take up the memory of their segments, so they ascend when they are sorted. -/
theorem ascending_mappings (inv : ImageInv source image) :
    (UnstableSort.sortByKey (·.start)
      ((image.segments.filter (·.memorySize ≠ 0)).map mappingOf)).Pairwise fun a b =>
        a.memory.stop ≤ b.memory.start := by
  apply @UnstableSort.ascending_of_apart _ Mapping Mapping.memory
  · intro m mem
    obtain ⟨s, s_mem, rfl⟩ := List.mem_map.mp mem
    have nonempty := of_decide_eq_true (List.mem_filter.mp s_mem).2
    simp only [Mapping.memory, mappingOf]
    omega
  · rw [List.pairwise_map]
    refine inv.nonoverlap.memory.imp ?_
    intro a b apart
    simpa only [Mapping.memory, mappingOf, SegmentMetadata.memory, Nat.add_sub_cancel_left]
      using apart

/-- The memory of a segment is found in its mapping. -/
theorem containing_of_segment (inv : ImageInv source image)
    (mapped : mappings image.segments = .ok maps) {s : SegmentMetadata} (mem : s ∈ image.segments)
    {address width : Nat} (positive : 0 < width) (above : s.address ≤ address)
    (inside : address + width ≤ s.address + s.memorySize) :
    containing maps address width = some (mappingOf s) := by
  rw [mappings_of_segments inv.each, Outcome.ok.injEq] at mapped
  have noWrap := (inv.each s mem).noWrap
  have ascending := ascending_mappings inv
  rw [mapped] at ascending
  have has_memory : s ∈ image.segments.filter (·.memorySize ≠ 0) :=
    List.mem_filter.mpr ⟨mem, decide_eq_true (by omega)⟩
  have listed : mappingOf s ∈ maps := by
    rw [← mapped]
    exact UnstableSort.mem_sortByKey.mpr (List.mem_map_of_mem has_memory)
  have here : address ∈ (mappingOf s).memory.bytes := by
    simp only [Mapping.memory, mappingOf, Span.mem_bytes, Span.stop]
    omega
  have last : lastOfFront (fun m => decide (m.start ≤ address)) maps = some (mappingOf s) :=
    lastOfFront_of_ascending ascending listed here
  have sum : checkedAdd address width = some (address + width) :=
    checkedAdd_eq_some.mpr ⟨by omega, rfl⟩
  simp only [containing, Option.bind_eq_bind, last, Option.bind_some, sum]
  exact if_pos inside

/-- The bytes of a segment that the file has are found where the file has them. -/
theorem fileLocation_of_segment (inv : ImageInv source image)
    (mapped : mappings image.segments = .ok maps) {s : SegmentMetadata} (mem : s ∈ image.segments)
    {address width : Nat} (positive : 0 < width) (above : s.address ≤ address)
    (inside : address + width ≤ s.address + s.file.size) :
    fileLocation maps address width = some (s.file.offset + (address - s.address)) := by
  have noWrap := (inv.each s mem).noWrap
  have fits := (inv.each s mem).fileFits
  have held := containing_of_segment inv mapped mem positive above (by omega)
  have sum : checkedAdd address width = some (address + width) :=
    checkedAdd_eq_some.mpr ⟨by omega, rfl⟩
  simp only [fileLocation, Option.bind_eq_bind, held, Option.bind_some, sum]
  exact if_pos inside

end Mappings

/-- The outer image has the file-backed bytes of a segment where the segment has them. -/
def Agrees (outer : List Mapping) (s : SegmentMetadata) : Prop :=
  ∀ k, k + 8 ≤ s.file.size → fileLocation outer (s.address + k) 8 = some (s.file.offset + k)

/-- What the inspector has checked of an image that is audited. -/
structure ImageGiven (source : Bytes) (outer : List Mapping) (image : ImageMetadata) : Prop where
  ok : ImageOk source image
  each : ∀ s ∈ image.segments, SegmentOk source s
  agrees : ∀ s ∈ image.segments, Agrees outer s

/-- Segments of the outer image agree with it, and so do those that view one. -/
theorem agrees_of_views [UnstableSort] {source : Bytes} {image : ImageMetadata}
    {outer : List Mapping} (inv : ImageInv source image)
    (mapped : mappings image.segments = .ok outer) {o s : SegmentMetadata}
    (mem : o ∈ image.segments) (views : o.Views s.file.span s.address) : Agrees outer s := by
  intro k inside
  obtain ⟨⟨low, high⟩, above, displacement⟩ := views
  simp only [FileRange.span, Span.stop] at low high displacement
  have above' : o.address ≤ s.address + k := by omega
  have inside' : s.address + k + 8 ≤ o.address + o.file.size := by omega
  rw [fileLocation_of_segment inv mapped mem (by decide) above' inside']
  congr 1
  omega

theorem imageGiven_of_accepted [UnstableSort] {source : Bytes} {inspection : KcMetadataInspection}
    {outer : List Mapping} (accepted : inspectKernelCollection source = .ok inspection)
    (mapped : mappings inspection.collection.segments = .ok outer) :
    ∀ entry ∈ images inspection, ImageGiven source outer entry.1 := by
  have inv := inspectionInv_of_accepted (.inl accepted)
  have ok := imageOk_of_accepted accepted
  intro entry mem
  rcases List.mem_cons.mp (List.fst_mem_of_mem_zipIdx mem) with first | later
  · refine ⟨ok entry mem, ?_, ?_⟩
    · rw [first]
      exact inv.collection.each
    · rw [first]
      intro s s_mem
      have whole : s.Views s.file.span s.address :=
        ⟨⟨Nat.le_refl _, Nat.le_refl _⟩, Nat.le_refl _, by simp [FileRange.span]⟩
      exact agrees_of_views inv.collection mapped s_mem whole
  · obtain ⟨member, member_mem, same⟩ := List.mem_map.mp later
    obtain ⟨own, placed⟩ := inv.members member member_mem
    refine ⟨ok entry mem, ?_, ?_⟩
    · rw [← same]
      exact own.each
    · rw [← same]
      intro s s_mem k inside
      obtain ⟨o, o_mem, views⟩ := placed.files s s_mem (by omega)
      exact agrees_of_views inv.collection mapped o_mem views k inside

/-! ### What a part of the audit leaves -/

/-- The only error that an accepted source leads to. -/
def CutOff (e : AuditError) : Prop := e = .limitExceeded

theorem ends_limit {p : Prop} [Decidable p] :
    Ends (fun _ => ¬ p) CutOff (rejectIf p AuditError.limitExceeded) :=
  ends_rejectIf fun _ => rfl

/-- A record that the pass over the records can order: where it writes to the file, it has an
address, and the end of what it writes is a word. -/
def Writable (r : AuditRecord) : Prop :=
  r.writeFileOffset.isSome = true → ∃ address, r.writeAddress = some address ∧
    address + r.width < 2 ^ 64

/-- The audit after a part of it has the records before it, and only writable ones. -/
structure Onward (out out' : KcFixupAudit) : Prop where
  records : out.records <+: out'.records
  writable : ∀ r ∈ out'.records, Writable r

section Onward

variable {α : Type} {out out' : KcFixupAudit}

theorem Onward.refl (writable : ∀ r ∈ out.records, Writable r) : Onward out out :=
  ⟨List.prefix_rfl, writable⟩

theorem Onward.trans {out'' : KcFixupAudit} (first : Onward out out') (second : Onward out' out'') :
    Onward out out'' :=
  ⟨first.records.trans second.records, second.writable⟩

theorem Onward.mem (on : Onward out out') {r : AuditRecord} (mem : r ∈ out.records) :
    r ∈ out'.records :=
  on.records.subset mem

/-- A loop over such parts. -/
theorem ends_onward_foldlM {f : KcFixupAudit → α → Result KcFixupAudit} {list : List α}
    (writable : ∀ r ∈ out.records, Writable r)
    (step : ∀ out', (∀ r ∈ out'.records, Writable r) → ∀ a ∈ list,
      Ends (Onward out') CutOff (f out' a)) :
    Ends (Onward out) CutOff (list.foldlM f out) :=
  ends_foldlM (Onward.refl writable) fun out' on a mem =>
    (step out' on.writable a mem).imp fun _ on' => on.trans on'

/-- A loop whose rounds each serve their element. -/
theorem ends_onward_each {f : KcFixupAudit → α → Result KcFixupAudit} {list : List α}
    {served : α → KcFixupAudit → Prop} (writable : ∀ r ∈ out.records, Writable r)
    (kept : ∀ a out out', served a out → Onward out out' → served a out')
    (step : ∀ out', (∀ r ∈ out'.records, Writable r) → ∀ a ∈ list,
      Ends (fun out'' => Onward out' out'' ∧ served a out'') CutOff (f out' a)) :
    Ends (fun out' => Onward out out' ∧ ∀ a ∈ list, served a out') CutOff (list.foldlM f out) := by
  have loop := @ends_foldlM_each _ _ CutOff _ (Onward out) served f list out (Onward.refl writable)
    fun out' on a mem => (step out' on.writable a mem).imp fun out'' known =>
      ⟨on.trans known.1, known.2, fun b before => kept b out' out'' before known.1⟩
  exact loop.imp fun out' known => ⟨known.1, known.2.1⟩

end Onward

namespace Audit

section Parts

variable {audit : Audit} {out : KcFixupAudit} {code : IssueCode} {image : Nat}
  {record related : Option Nat}

/-- An issue leaves the records as they are. -/
theorem ends_issue_records :
    Ends (fun out' => out'.records = out.records) CutOff
      (audit.issue code image record related out) := by
  simp only [issue, pushBounded, bind_assoc, pure_eq, bind_ok]
  exact ends_limit.bind fun _ _ => ends_ok rfl

theorem ends_issue (writable : ∀ r ∈ out.records, Writable r) :
    Ends (Onward out) CutOff (audit.issue code image record related out) := by
  refine ends_issue_records.imp ?_
  intro out' same
  exact ⟨same ▸ List.prefix_rfl, same ▸ writable⟩

theorem ends_issues {codes : List IssueCode} (writable : ∀ r ∈ out.records, Writable r) :
    Ends (Onward out) CutOff
      (codes.foldlM (fun out code => audit.issue code image record related out) out) :=
  ends_onward_foldlM writable fun _ writable' _ _ => ends_issue writable'

theorem ends_issueIf {p : Prop} [Decidable p] (writable : ∀ r ∈ out.records, Writable r) :
    Ends (Onward out) CutOff (audit.issueIf p code image out) := by
  unfold issueIf
  split
  · exact ends_issue writable
  · exact Onward.refl writable

theorem ends_pageStart (writable : ∀ r ∈ out.records, Writable r) :
    Ends (Onward out) CutOff (audit.pageStart out) :=
  ends_limit.bind fun _ _ => ends_ok ⟨List.prefix_rfl, writable⟩

theorem ends_record {r : AuditRecord} (writable : ∀ r ∈ out.records, Writable r)
    (new : Writable r) :
    Ends (fun done => Onward out done.2 ∧ r ∈ done.2.records) CutOff (audit.record r out) := by
  simp only [Audit.record, pushBounded, bind_assoc, pure_eq, bind_ok]
  refine ends_limit.bind fun _ _ => ends_ok ⟨⟨List.prefix_append _ _, ?_⟩, ?_⟩
  · intro r' mem
    rcases List.mem_append.mp mem with before | now
    · exact writable r' before
    · rwa [List.mem_singleton.mp now]
  · exact List.mem_append_right _ (List.mem_singleton_self r)

end Parts

/-! ### Classic entries -/

section Classic

variable [UnstableSort] {audit : Audit} {segments : List SegmentMetadata} {maps : List Mapping}
  {c : ClassicRange} {out : KcFixupAudit}

/-- An entry whose bytes are found in the file has an address, and the file has the bytes. -/
theorem of_classicFile_eq_some (each : ∀ s ∈ segments, SegmentOk audit.source s)
    (mapped : mappings segments = .ok maps) {address : Option Nat} {width file : Nat}
    (found : audit.classicFile maps address width = some file) :
    (∃ a, address = some a ∧ a + width < 2 ^ 64) ∧ file + width ≤ audit.source.length := by
  have held := (Option.filter_eq_some_iff.mp found).1
  obtain ⟨a, rfl, located⟩ := Option.bind_eq_some_iff.mp held
  obtain ⟨s, mem, above, inside, rfl⟩ := inFile_of_fileLocation mapped located
  have noWrap := (each s mem).noWrap
  have fits := (each s mem).fileFits
  have backed := (each s mem).inside
  exact ⟨⟨a, rfl, by omega⟩, by omega⟩

theorem ends_classicEntry (small : audit.source.length < 2 ^ 64)
    (each : ∀ s ∈ segments, SegmentOk audit.source s) (mapped : mappings segments = .ok maps)
    {at' : Nat} (inside : c.range.offset + at' + 8 ≤ audit.source.length)
    (writable : ∀ r ∈ out.records, Writable r) :
    Ends (Onward out) CutOff (audit.classicEntry maps c out at') := by
  unfold classicEntry
  refine Ends.after_ok (addWord_eq_ok.mpr ⟨by omega, rfl⟩) ?_
  refine Ends.after_ok (wordAt_eq_ok.mpr ⟨by omega, by omega, rfl⟩) ?_
  refine Ends.after_ok (add_of_lt (by omega)) ?_
  refine Ends.after_ok (wordAt_eq_ok.mpr ⟨by omega, by omega, rfl⟩) ?_
  -- The stored value is read where the file was found to have it.
  have stored : ∀ address width, Ends (fun _ => True) CutOff
      (audit.storedValue width (audit.classicFile maps address width)) := by
    intro address width
    cases found : audit.classicFile maps address width with
    | none => trivial
    | some file =>
        have backed := (of_classicFile_eq_some each mapped found).2
        exact Ends.after_ok (wordAt_eq_ok.mpr ⟨by omega, backed, rfl⟩) trivial
  refine (stored _ _).bind fun value _ => ?_
  refine (ends_record writable ?_).bind fun done recorded => ?_
  · intro located
    obtain ⟨file, found⟩ := Option.isSome_iff_exists.mp located
    exact (of_classicFile_eq_some each mapped found).1
  · obtain ⟨on, _⟩ := recorded
    refine Ends.imp ?_ (ends_issues on.writable)
    intro out' on'
    exact ⟨on.records.trans on'.records, on'.writable⟩

theorem ends_classic (small : audit.source.length < 2 ^ 64)
    (each : ∀ s ∈ segments, SegmentOk audit.source s) (mapped : mappings segments = .ok maps)
    (table : EntriesOk audit.source c.range) (writable : ∀ r ∈ out.records, Writable r) :
    Ends (Onward out) CutOff (audit.classic maps out c) := by
  refine ends_onward_foldlM writable ?_
  intro out' writable' at' mem
  obtain ⟨i, below, rfl⟩ := List.mem_map.mp mem
  rw [List.mem_range, divCeil] at below
  obtain ⟨n, size⟩ := table.whole
  have inside := table.inside
  exact ends_classicEntry small each mapped (by omega) writable'

end Classic

end Audit

/-! ### Chained words -/

/-- The segment and the page of a chained word. -/
def chainPlace : RecordDetail → Option (Nat × Nat)
  | .classic .. => none
  | .chain11 segmentIndex pageIndex .. => some (segmentIndex, pageIndex)

/-- The record of the word of a chain at an offset in the page. -/
structure WordRecord (c : ChainStart) (inPage : Nat) (r : AuditRecord) : Prop where
  image : r.imageIndex = c.imageIndex
  place : chainPlace r.detail = some (c.segmentIndex, c.pageIndex)
  width : r.width = 8
  address : r.writeAddress = some (c.segment.address + c.into inPage)
  file : r.writeFileOffset = some (c.segment.file.offset + c.into inPage)

/-- The word at an offset in the page lies in the file-backed bytes of its segment. -/
def ChainStart.Fits (c : ChainStart) (inPage : Nat) : Prop :=
  c.into inPage + 8 ≤ c.segment.file.size ∧ c.into inPage + 8 ≤ c.segment.memorySize

instance (c : ChainStart) (inPage : Nat) : Decidable (c.Fits inPage) :=
  inferInstanceAs (Decidable (_ ∧ _))

/-- The first word of a chain has its record. -/
def ChainStart.Recorded (c : ChainStart) (out : KcFixupAudit) : Prop :=
  ∃ r ∈ out.records, WordRecord c c.start r

theorem ChainStart.Recorded.onward {c : ChainStart} {out out' : KcFixupAudit}
    (recorded : c.Recorded out) (on : Onward out out') : c.Recorded out' := by
  obtain ⟨r, mem, told⟩ := recorded
  exact ⟨r, on.mem mem, told⟩

/-- What the inspector has checked of the page that a chain is in. -/
structure ChainGiven (audit : Audit) (c : ChainStart) : Prop where
  small : audit.source.length < 2 ^ 64
  segment : SegmentOk audit.source c.segment
  agrees : Agrees audit.outer c.segment
  pageSize : c.pageSize < 2 ^ 16
  pageIndex : c.pageIndex < 2 ^ 16

namespace Audit

section Chain

variable {audit : Audit} {c : ChainStart} {inPage : Nat} {out : KcFixupAudit}

/-- A word in the page is found exactly where it fits. -/
theorem chainLocation_of_given (given : ChainGiven audit c) (inside : inPage < c.pageSize) :
    audit.chainLocation c (c.pageIndex * c.pageSize) inPage =
      .ok (if c.Fits inPage then
        some (c.segment.address + c.into inPage, c.segment.file.offset + c.into inPage)
      else none) := by
  have noWrap := given.segment.noWrap
  have backed := given.segment.inside
  have small := given.small
  have page := given.pageSize
  have area : c.pageIndex * c.pageSize ≤ 2 ^ 16 * 2 ^ 16 :=
    Nat.mul_le_mul (Nat.le_of_lt given.pageIndex) (Nat.le_of_lt page)
  have word : c.into inPage + 8 < 2 ^ 64 := by
    unfold ChainStart.into
    omega
  have sum : addWord (c.pageIndex * c.pageSize) inPage = .ok (c.into inPage) :=
    addWord_eq_ok.mpr ⟨Nat.lt_of_le_of_lt (Nat.le_add_right _ 8) word, rfl⟩
  rw [chainLocation, sum, bind_ok, checkedAdd_of_lt word, Option.all_some]
  by_cases fits : c.Fits inPage
  · obtain ⟨inFile, inMemory⟩ := fits
    rw [if_neg (by simp [inFile, inMemory]), if_pos ⟨inFile, inMemory⟩,
      addWord_eq_ok.mpr ⟨by omega, rfl⟩, bind_ok, addWord_eq_ok.mpr ⟨by omega, rfl⟩, bind_ok,
      given.agrees _ inFile, if_neg (not_not.mpr rfl), pure_eq]
  · have outside : c.into inPage + 8 > c.segment.file.size ∨
        c.into inPage + 8 > c.segment.memorySize := by
      unfold ChainStart.Fits at fits
      omega
    rw [if_pos (decide_eq_true outside), if_neg fits, pure_eq]

theorem nextOffset_lt (word : Nat) : nextOffset word < 2 ^ 12 :=
  Nat.lt_succ_of_le Nat.and_le_right

/-- The record of a word that was found. -/
theorem wordRecord_chainRecord (primaryBase word : Nat) :
    WordRecord c inPage (audit.chainRecord c primaryBase (c.segment.address + c.into inPage)
      (c.segment.file.offset + c.into inPage) word) :=
  { image := rfl, place := rfl, width := rfl, address := rfl, file := rfl }

/-- A round appends a record where the word fits, and its link is short. -/
theorem ends_chainStep (given : ChainGiven audit c) (inside : inPage < c.pageSize)
    (writable : ∀ r ∈ out.records, Writable r) :
    Ends (fun done => Onward out done.2 ∧ done.1 < 2 ^ 12 ∧
        (c.Fits inPage → ∃ r ∈ done.2.records, WordRecord c inPage r)) CutOff
      (audit.chainStep c (c.pageIndex * c.pageSize) inPage out) := by
  have noWrap := given.segment.noWrap
  have backed := given.segment.inside
  have small := given.small
  refine Ends.after_ok (chainLocation_of_given given inside) ?_
  by_cases fits : c.Fits inPage
  · rw [if_pos fits]
    obtain ⟨inFile, inMemory⟩ := fits
    have read : wordAt audit.source (c.segment.file.offset + c.into inPage) 8 =
        .ok (c.wordAt audit.source inPage) := wordAt_eq_ok.mpr ⟨by omega, by omega, rfl⟩
    have word : Ends (fun done => Onward out done.2 ∧ done.1 < 2 ^ 12 ∧
        ∃ r ∈ done.2.records, WordRecord c inPage r) CutOff
        (audit.chainWord c inPage (c.segment.address + c.into inPage)
          (c.segment.file.offset + c.into inPage) out) := by
      refine Ends.after_ok read ?_
      refine (ends_record writable ?_).bind fun done recorded => ?_
      · intro _
        have stop : c.segment.address + c.into inPage + 8 < 2 ^ 64 := by omega
        exact ⟨_, rfl, stop⟩
      · obtain ⟨on, mem⟩ := recorded
        dsimp only
        refine Ends.bind (ends_issues on.writable) fun out' on' => ends_ok ?_
        exact ⟨⟨on.records.trans on'.records, on'.writable⟩, nextOffset_lt _, _, on'.mem mem,
          wordRecord_chainRecord _ _⟩
    refine word.bind fun done known => ends_ok ?_
    obtain ⟨on, short, recorded⟩ := known
    exact ⟨⟨on.records, on.writable⟩, short, fun _ => recorded⟩
  · rw [if_neg fits]
    refine (ends_issue writable).bind fun out' on => ends_ok ?_
    exact ⟨on, Nat.two_pow_pos 12, fun here => absurd here fits⟩

/-- A chain that starts where a word fits has the record of that word. -/
theorem ends_chainFrom (given : ChainGiven audit c) (writable : ∀ r ∈ out.records, Writable r) :
    Ends (fun out' => Onward out out' ∧ (inPage < c.pageSize → c.Fits inPage →
        ∃ r ∈ out'.records, WordRecord c inPage r)) CutOff
      (audit.chainFrom c (c.pageIndex * c.pageSize) inPage out) := by
  induction gap : c.pageSize - inPage using Nat.strongRecOn generalizing inPage out with
  | ind gap ih =>
      subst gap
      rw [chainFrom]
      split
      · next outside =>
          refine (ends_issue writable).imp fun out' on => ⟨on, fun inside => ?_⟩
          exact absurd outside (Nat.not_le_of_lt inside)
      next inside =>
      rw [Nat.not_le] at inside
      refine (ends_chainStep given inside writable).bind fun done known => ?_
      obtain ⟨next, out'⟩ := done
      obtain ⟨on, short, recorded⟩ := known
      dsimp only at on short recorded ⊢
      split
      · exact ⟨on, fun _ => recorded⟩
      next linked =>
      have page := given.pageSize
      have word : inPage + next < 2 ^ 64 := by omega
      split
      · next overflow =>
          rw [checkedAdd_of_lt word] at overflow
          cases overflow
      next inPage' stride =>
      obtain ⟨_, rfl⟩ := checkedAdd_eq_some.mp stride
      refine (ih _ (by omega) on.writable rfl).imp ?_
      rintro out'' ⟨on', _⟩
      refine ⟨on.trans on', fun _ fits => ?_⟩
      obtain ⟨r, mem, told⟩ := recorded fits
      exact ⟨r, on'.mem mem, told⟩

/-- A chain ends well, and a start that fits has its record. -/
theorem ends_chain (given : ChainGiven audit c) (start : c.start < c.pageSize)
    (fits : c.Fits c.start) (writable : ∀ r ∈ out.records, Writable r) :
    Ends (fun out' => Onward out out' ∧ c.Recorded out') CutOff (audit.chain c out) := by
  have page := given.pageSize
  have area : c.pageIndex * c.pageSize ≤ 2 ^ 16 * 2 ^ 16 :=
    Nat.mul_le_mul (Nat.le_of_lt given.pageIndex) (Nat.le_of_lt page)
  have product : checkedMul c.pageIndex c.pageSize = some (c.pageIndex * c.pageSize) :=
    checkedMul_eq_some.mpr ⟨by omega, rfl⟩
  refine Ends.after_ok (ofOption_eq_ok.mpr product) ?_
  refine Ends.imp ?_ (ends_chainFrom given writable)
  rintro out' ⟨on, recorded⟩
  exact ⟨⟨on.records, on.writable⟩, recorded start fits⟩

end Chain

/-! ### Pages -/

section Pages

variable {audit : Audit} {table : StartTable} {page : Nat} {out : KcFixupAudit}

/-- A list of starts that ends inside the table is walked to its end. -/
theorem ends_walkStarts (block : table.infoEnd ≤ audit.source.length)
    (given : ∀ start, ChainGiven audit (table.chainAt page start)) {at' : Nat} {starts : List Nat}
    (listed : Listed audit.source table.infoEnd at' starts)
    (checked : ∀ start ∈ starts,
      start < table.pageSize ∧ (table.chainAt page start).Fits start)
    (writable : ∀ r ∈ out.records, Writable r) :
    Ends (fun out' => Onward out out' ∧ ∀ start ∈ starts, (table.chainAt page start).Recorded out')
      CutOff (audit.walkStarts table page at' out) := by
  have small := (given 0).small
  induction listed generalizing out with
  | @last at' inside ends =>
      obtain ⟨below, fits⟩ := checked _ List.mem_cons_self
      rw [walkStarts]
      refine (ends_pageStart writable).bind fun out₁ on₁ => ?_
      rw [checkedAdd_of_lt (by omega)]
      dsimp only
      rw [dif_neg (Nat.not_lt.mpr inside), wordAt_eq_ok.mpr ⟨by omega, by omega, rfl⟩, bind_ok]
      refine (ends_chain (given _) below fits on₁.writable).bind fun out₂ known => ?_
      rw [if_pos ends]
      exact ⟨on₁.trans known.1, List.forall_mem_singleton.mpr known.2⟩
  | @more at' rest inside goes later ih =>
      obtain ⟨⟨below, fits⟩, others⟩ := List.forall_mem_cons.mp checked
      rw [walkStarts]
      refine (ends_pageStart writable).bind fun out₁ on₁ => ?_
      rw [checkedAdd_of_lt (by omega)]
      dsimp only
      rw [dif_neg (Nat.not_lt.mpr inside), wordAt_eq_ok.mpr ⟨by omega, by omega, rfl⟩, bind_ok]
      refine (ends_chain (given _) below fits on₁.writable).bind fun out₂ known => ?_
      rw [if_neg (not_not.mpr goes)]
      refine (ih others known.1.writable).imp ?_
      rintro out₃ ⟨on₃, recorded⟩
      refine ⟨(on₁.trans known.1).trans on₃, List.forall_mem_cons.mpr ⟨?_, recorded⟩⟩
      exact known.2.onward on₃

/-- The chains of a page whose starts were checked. -/
theorem ends_fixupPage (block : table.infoEnd ≤ audit.source.length)
    (given : ∀ start, ChainGiven audit (table.chainAt page start))
    (inside : table.info + (22 + page * 2) + 2 ≤ table.infoEnd) {starts : List Nat}
    (has : PageStarts audit.source table.info table.infoEnd page starts)
    (checked : ∀ start ∈ starts,
      start < table.pageSize ∧ (table.chainAt page start).Fits start)
    (writable : ∀ r ∈ out.records, Writable r) :
    Ends (fun out' => Onward out out' ∧ ∀ start ∈ starts, (table.chainAt page start).Recorded out')
      CutOff (audit.fixupPage table out page) := by
  have small := (given 0).small
  unfold fixupPage
  refine (ends_pageStart writable).bind fun out₁ on₁ => ?_
  refine Ends.after_ok (addWord_eq_ok.mpr ⟨by omega, rfl⟩) ?_
  refine Ends.after_ok (wordAt_eq_ok.mpr ⟨by omega, by omega, rfl⟩) ?_
  cases has with
  | none first =>
      rw [if_pos first]
      exact ⟨on₁, nofun⟩
  | single read some' plain =>
      obtain ⟨below, fits⟩ := checked _ List.mem_cons_self
      rw [read, if_neg some', if_pos plain]
      refine (ends_chain (given _) below fits on₁.writable).imp ?_
      rintro out₂ ⟨on₂, recorded⟩
      exact ⟨on₁.trans on₂, List.forall_mem_singleton.mpr recorded⟩
  | several read some' marked listed =>
      rw [read, if_neg some', if_neg marked]
      refine Ends.bind (ends_issue ?_) fun out₂ on₂ => ?_
      · exact on₁.writable
      have place := listed.inside
      refine Ends.after_ok (addWord_eq_ok.mpr ⟨by omega, rfl⟩) ?_
      refine (ends_walkStarts block given listed checked on₂.writable).imp ?_
      rintro out₃ ⟨on₃, recorded⟩
      exact ⟨⟨(on₁.records.trans on₂.records).trans on₃.records, on₃.writable⟩, recorded⟩

end Pages

/-! ### Images -/

section Images

variable {audit : Audit} {image : ImageMetadata} {index : Nat} {out : KcFixupAudit}

/-- The pages of a table of starts that was checked. -/
theorem ends_fixupPages (small : audit.source.length < 2 ^ 64) {table : StartTable}
    {info : FixupSegmentMetadata} (segment : SegmentOk audit.source table.segment)
    (agrees : Agrees audit.outer table.segment)
    (ok : TableOk audit.source table.segment info table.info)
    (paged : table.pageSize = info.pageSize)
    (stop : table.infoEnd = table.info + leAt audit.source table.info 4)
    (eleven : info.pointerFormat = 11) (writable : ∀ r ∈ out.records, Writable r) :
    Ends (fun out' => Onward out out' ∧ ∀ page ∈ List.range info.pageCount, ∀ starts,
        PageStarts audit.source table.info table.infoEnd page starts →
          ∀ start ∈ starts, (table.chainAt page start).Recorded out') CutOff
      ((List.range info.pageCount).foldlM (audit.fixupPage table) out) := by
  have block := ok.block
  rw [← stop] at block
  refine ends_onward_each writable ?_ ?_
  · intro page out out' recorded on starts has start mem
    exact (recorded starts has start mem).onward on
  · intro out' writable' page mem
    have below := List.mem_range.mp mem
    obtain ⟨inside, starts, has, each⟩ := ok.pages page below
    rw [← stop] at has
    have short : table.pageSize < 2 ^ 16 := paged ▸ ok.pageSize
    have given : ∀ start, ChainGiven audit (table.chainAt page start) := by
      intro start
      exact ⟨small, segment, agrees, short, below.trans ok.pageCount⟩
    have checked : ∀ start ∈ starts,
        start < table.pageSize ∧ (table.chainAt page start).Fits start := by
      intro start start_mem
      obtain ⟨inPage, inFile, inMemory⟩ := each start start_mem
      rw [pageStartWidth, if_pos (.inr eleven)] at inFile inMemory
      refine ⟨paged ▸ inPage, ?_, ?_⟩
      · simpa only [ChainStart.into, StartTable.chainAt, paged] using inFile
      · simpa only [ChainStart.into, StartTable.chainAt, paged] using inMemory
    refine (ends_fixupPage block given (by omega) has checked writable').imp ?_
    rintro out'' ⟨on, recorded⟩
    refine ⟨on, fun starts' has' => ?_⟩
    rw [has'.unique has]
    exact recorded

/-- The chain starts of a segment with format 11 have their records. -/
def SegmentServed (source : Bytes) (index : Nat) (image : ImageMetadata) (table : Nat)
    (info : FixupSegmentMetadata) (out : KcFixupAudit) : Prop :=
  info.pointerFormat = 11 → ∀ c, StartOf source index image info table c → c.Recorded out

/-- The chain starts of the fixups of an image have their records. -/
def ImageServed (source : Bytes) (entry : ImageMetadata × Nat) (out : KcFixupAudit) : Prop :=
  ∀ fixups ∈ entry.1.chainedFixups, ∀ info ∈ fixups.segments, SegmentServed source entry.2 entry.1
    (startTable source fixups info.segmentIndex) info out

theorem SegmentServed.onward {source : Bytes} {table : Nat} {info : FixupSegmentMetadata}
    {out' : KcFixupAudit} (served : SegmentServed source index image table info out)
    (on : Onward out out') : SegmentServed source index image table info out' :=
  fun eleven c start => (served eleven c start).onward on

theorem ImageServed.onward {source : Bytes} {entry : ImageMetadata × Nat} {out' : KcFixupAudit}
    (served : ImageServed source entry out) (on : Onward out out') :
    ImageServed source entry out' :=
  fun fixups has info mem => (served fixups has info mem).onward on

/-- The chains of a segment whose table of starts was checked. -/
theorem ends_fixupSegment (small : audit.source.length < 2 ^ 64)
    (given : ImageGiven audit.source audit.outer image) {starts : Nat}
    {info : FixupSegmentMetadata}
    (entry : EntryOk audit.source image.segments image.headerAddress starts info)
    (writable : ∀ r ∈ out.records, Writable r) :
    Ends (fun out' => Onward out out' ∧ SegmentServed audit.source index image
        (starts + leAt audit.source (starts + (4 + info.segmentIndex * 4)) 4) info out') CutOff
      (audit.fixupSegment index image starts out info) := by
  obtain ⟨segment, there, displaced, entry_inside, ok⟩ := entry
  have mem := List.mem_of_getElem? there
  have inside := ok.inside
  have block := ok.block
  unfold fixupSegment
  split
  · next other =>
      refine (ends_issue writable).imp fun out' on => ⟨on, fun eleven => ?_⟩
      exact absurd eleven other
  next eleven =>
  rw [not_not] at eleven
  rw [there, expect_some, bind_ok, rejectIf_of_not _ (not_not.mpr displaced), bind_ok]
  refine Ends.after_ok (addWord_eq_ok.mpr ⟨by omega, rfl⟩) ?_
  refine Ends.after_ok (wordAt_eq_ok.mpr ⟨by omega, by omega, rfl⟩) ?_
  refine Ends.after_ok (addWord_eq_ok.mpr ⟨by omega, rfl⟩) ?_
  refine Ends.after_ok (wordAt_eq_ok.mpr ⟨by omega, by omega, rfl⟩) ?_
  refine Ends.after_ok (addWord_eq_ok.mpr ⟨by omega, rfl⟩) ?_
  refine Ends.imp ?_ (ends_fixupPages small (given.each segment mem) (given.agrees segment mem) ok
    rfl rfl eleven writable)
  rintro out' ⟨on, recorded⟩
  refine ⟨on, fun _ c start => ?_⟩
  obtain ⟨rfl, segmentIndex, segment_eq, paged, below, found, has, start_mem⟩ := start
  rw [there, Option.some.injEq] at segment_eq
  have same :
    c = ⟨c.imageIndex, info.segmentIndex, c.pageIndex, segment, info.pageSize, c.start⟩ := by
    rw [← segmentIndex, segment_eq, ← paged]
  rw [same]
  exact recorded c.pageIndex (List.mem_range.mpr below) found has c.start start_mem

theorem ends_imageFixups (small : audit.source.length < 2 ^ 32)
    (given : ImageGiven audit.source audit.outer image)
    (writable : ∀ r ∈ out.records, Writable r) :
    Ends (fun out' => Onward out out' ∧ ImageServed audit.source (image, index) out') CutOff
      (audit.imageFixups index image out) := by
  unfold imageFixups ImageServed
  cases has : image.chainedFixups with
  | none => exact ⟨Onward.refl writable, nofun⟩
  | some fixups =>
      obtain ⟨header, each⟩ := given.ok.fixups fixups has
      have relative : leAt audit.source (fixups.file.offset + 4) 4 < 2 ^ 32 := leAt_lt (by omega)
      have wide : audit.source.length < 2 ^ 64 := by omega
      have step : ∀ out', (∀ r ∈ out'.records, Writable r) → ∀ info ∈ fixups.segments,
          Ends (fun out'' => Onward out' out'' ∧ SegmentServed audit.source index image
            (startTable audit.source fixups info.segmentIndex) info out'') CutOff
            (audit.fixupSegment index image
              (fixups.file.offset + leAt audit.source (fixups.file.offset + 4) 4) out' info) := by
        intro out' writable' info mem
        exact ends_fixupSegment wide given (each info mem) writable'
      dsimp only
      refine (ends_issueIf writable).bind fun out₁ on₁ => ?_
      refine (ends_issueIf on₁.writable).bind fun out₂ on₂ => ?_
      refine Ends.after_ok (add_of_lt (by omega)) ?_
      refine Ends.after_ok (wordAt_eq_ok.mpr ⟨by omega, by omega, rfl⟩) ?_
      refine Ends.after_ok (addWord_eq_ok.mpr ⟨by omega, rfl⟩) ?_
      refine (ends_onward_each on₂.writable ?_ step).imp ?_
      · intro info out out' served on
        exact served.onward on
      · rintro out₃ ⟨on₃, served⟩
        refine ⟨(on₁.trans on₂).trans on₃, ?_⟩
        rintro _ ⟨rfl⟩
        exact served

theorem ends_image [UnstableSort] (small : audit.source.length < 2 ^ 32)
    {entry : ImageMetadata × Nat} (given : ImageGiven audit.source audit.outer entry.1)
    (writable : ∀ r ∈ out.records, Writable r) :
    Ends (fun out' => Onward out out' ∧ ImageServed audit.source entry out') CutOff
      (audit.image out entry) := by
  unfold Audit.image
  refine Ends.after_ok (mappings_of_segments given.each) ?_
  have tables : ∀ c ∈ classicRanges entry.2 entry.1, EntriesOk audit.source c.range := by
    intro c mem
    rcases mem_classicRanges.mp mem with ⟨r, has, dynamic⟩ | ⟨s, s_mem, sec, sec_mem, rfl⟩
    · obtain ⟨at_local, at_external⟩ := given.ok.dynamic r has
      rcases dynamic with rfl | rfl
      · exact at_local
      · exact at_external
    · exact given.ok.sections s s_mem sec sec_mem
  refine (ends_onward_foldlM writable fun out' writable' c mem => ?_).bind fun out₁ on₁ => ?_
  · exact ends_classic (by omega) given.each (mappings_of_segments given.each) (tables c mem)
      writable'
  · refine (ends_imageFixups small given on₁.writable).imp ?_
    rintro out₂ ⟨on₂, served⟩
    exact ⟨on₁.trans on₂, served⟩

end Images

/-! ### The pass over the records -/

section Overlaps

variable {audit : Audit} {sweep : Sweep} {r : AuditRecord} {address i : Nat} {out : KcFixupAudit}

theorem ends_duplicateIssue :
    Ends (fun sweep' => sweep'.out.records = sweep.out.records) CutOff
      (audit.duplicateIssue sweep r address i) := by
  unfold duplicateIssue
  by_cases chained : isChained r.detail = true
  · rw [if_pos chained]
    cases sweep.lastChain with
    | none => exact rfl
    | some last =>
        dsimp only
        split
        · exact ends_issue_records.bind fun out' same => ends_ok same
        · exact rfl
  · rw [if_neg chained]
    exact rfl

theorem ends_overlapIssue {kind : Bool} :
    Ends (fun sweep' => sweep'.out.records = sweep.out.records) CutOff
      (audit.overlapIssue r address i kind sweep) := by
  unfold overlapIssue
  cases sweep.furthest kind with
  | none => exact rfl
  | some last =>
      dsimp only
      split
      · exact ends_issue_records.bind fun out' same => ends_ok same
      · exact rfl

/-- The keys are the addresses of the records that write to the file. -/
theorem writeKeys_of_writable {records : List AuditRecord} (writable : ∀ r ∈ records, Writable r) :
    ∃ keys, writeKeys records = .ok keys ∧ ∀ key ∈ keys, ∃ r, records[key.2]? = some r ∧
      r.writeAddress = some key.1 ∧ key.1 + r.width < 2 ^ 64 := by
  have addressed : ∀ entry ∈ records.zipIdx.filter (·.1.writeFileOffset.isSome),
      ∃ address, entry.1.writeAddress = some address ∧ address + entry.1.width < 2 ^ 64 := by
    intro entry mem
    obtain ⟨listed, backed⟩ := List.mem_filter.mp mem
    exact writable entry.1 (List.fst_mem_of_mem_zipIdx listed) backed
  refine ⟨_, collect_of (g := fun entry => (entry.1.writeAddress.getD 0, entry.2)) ?_, ?_⟩
  · intro entry mem
    obtain ⟨address, has, _⟩ := addressed entry mem
    rw [has, expect_some, bind_ok, Option.getD_some, pure_eq]
  · intro key mem
    obtain ⟨entry, entry_mem, rfl⟩ := List.mem_map.mp mem
    obtain ⟨address, has, word⟩ := addressed entry entry_mem
    rw [has, Option.getD_some]
    exact ⟨entry.1, List.mem_zipIdx_iff_getElem?.mp (List.mem_filter.mp entry_mem).1, has, word⟩

/-- Writable records are passed over without another error than a limit. -/
theorem ends_overlaps (writable : ∀ r ∈ out.records, Writable r) :
    Ends (fun out' => out'.records = out.records) CutOff (audit.overlaps out) := by
  obtain ⟨keys, made, known⟩ := writeKeys_of_writable writable
  refine Ends.after_ok made ?_
  have pass : Ends (fun sweep => sweep.out.records = out.records) CutOff
      ((sortPairs keys).foldlM audit.sweepRecord ⟨none, none, none, out⟩) := by
    refine ends_foldlM rfl ?_
    intro sweep same place mem
    obtain ⟨r, there, has, word⟩ := known place ((perm_sortPairs keys).mem_iff.mp mem)
    unfold sweepRecord
    rw [same, there, expect_some, bind_ok, has, expect_some, bind_ok,
      addWord_eq_ok.mpr ⟨word, rfl⟩, bind_ok]
    refine ends_duplicateIssue.bind fun sweep₁ same₁ => ?_
    refine ends_overlapIssue.bind fun sweep₂ same₂ => ?_
    refine ends_overlapIssue.bind fun sweep₃ same₃ => ends_ok ?_
    rw [Sweep.reach_out, same₃, same₂, same₁, same]
  exact pass.bind fun sweep same => ends_ok same

end Overlaps

end Audit

/-! ### The whole audit -/

theorem ends_memberRanges {source : Bytes} {inspection : KcMetadataInspection} {fileType : Nat}
    (each : ∀ member ∈ inspection.members, ∀ s ∈ member.image.segments, SegmentOk source s) :
    Ends (fun _ => True) CutOff (memberRanges inspection fileType) := by
  unfold memberRanges
  refine (@ends_foldlM _ _ CutOff _ (fun _ => True) _ _ _ trivial ?_).bind fun _ _ => trivial
  intro ranges _ s mem
  obtain ⟨member, member_mem, s_mem⟩ := List.mem_flatMap.mp mem
  have noWrap :=
    (each member (List.mem_filter.mp member_mem).1 s (List.mem_filter.mp s_mem).1).noWrap
  refine Ends.after_ok (addWord_eq_ok.mpr ⟨noWrap, rfl⟩) ?_
  simp only [pushBounded, bind_assoc, pure_eq, bind_ok]
  exact ends_limit.bind fun _ _ => trivial

/-- A chain start of an accepted collection: single or listed, at a page of a segment with
format 11. -/
def IsChainStart (source : Bytes) (inspection : KcMetadataInspection) (c : ChainStart) : Prop :=
  ∃ entry ∈ images inspection, ∃ fixups ∈ entry.1.chainedFixups, ∃ info ∈ fixups.segments,
    info.pointerFormat = 11 ∧
      StartOf source entry.2 entry.1 info (startTable source fixups info.segmentIndex) c

theorem isSome_min_of_ne_nil {list : List Nat} (some' : list ≠ []) : ∃ n, list.min? = some n := by
  cases list with
  | nil => exact absurd rfl some'
  | cons a rest => exact ⟨_, List.min?_cons'⟩

/-- The audit of an accepted source returns a result, with a record for the first word of every
chain, or runs into a limit. -/
theorem ends_audit [UnstableSort] {source : Bytes} {limits : AuditLimits}
    {inspection : KcMetadataInspection} (accepted : inspectKernelCollection source = .ok inspection)
    (valid : limits.Valid) :
    Ends (fun a => ∀ c, IsChainStart source inspection c → c.Recorded a) CutOff
      (auditKernelCollectionWithLimits source limits) := by
  have inv := inspectionInv_of_accepted (.inl accepted)
  obtain ⟨maps, outer⟩ : ∃ maps, mappings inspection.collection.segments = .ok maps :=
    ⟨_, mappings_of_segments inv.collection.each⟩
  have given := imageGiven_of_accepted accepted outer
  have small : source.length < 2 ^ 32 := by
    have input := inv.input
    simp only [maxInputSize] at input
    omega
  have some' : inspection.collection.segments.map (·.address) ≠ [] := by
    intro none
    exact (given (inspection.collection, 0) List.mem_cons_self).ok.some'
      (List.map_eq_nil_iff.mp none)
  obtain ⟨base, least⟩ := isSome_min_of_ne_nil some'
  rw [auditKernelCollectionWithLimits, valid.accepted, bind_ok, accepted]
  refine Ends.after_ok (mapErr_eq_ok.mpr rfl) ?_
  refine Ends.after_ok (ofOption_eq_ok.mpr least) ?_
  refine Ends.after_ok outer ?_
  have members : ∀ member ∈ inspection.members, ∀ s ∈ member.image.segments, SegmentOk source s :=
    fun member mem => (inv.members member mem).1.each
  refine (ends_memberRanges members).bind fun executable _ => ?_
  refine (ends_memberRanges members).bind fun kext _ => ?_
  dsimp only
  have all : Ends (fun out => Onward ⟨.zero, [], [], base⟩ out ∧
      ∀ entry ∈ images inspection, Audit.ImageServed source entry out) CutOff
      ((images inspection).foldlM (Audit.image ⟨source, limits, maps, executable, kext⟩)
        ⟨.zero, [], [], base⟩) := by
    refine ends_onward_each (fun r none => absurd none List.not_mem_nil) ?_ ?_
    · intro entry out out' served on
      exact served.onward on
    · intro out writable entry mem
      exact Audit.ends_image small (given entry mem) writable
  refine all.bind fun out known => ?_
  obtain ⟨on, served⟩ := known
  refine (Audit.ends_overlaps on.writable).imp ?_
  rintro a same c ⟨entry, mem, fixups, has, info, info_mem, eleven, start⟩
  obtain ⟨r, recorded, told⟩ := served entry mem fixups has info info_mem eleven c start
  exact ⟨r, same ▸ recorded, told⟩

/-- What the inspector has checked of a chain start. -/
theorem chainStart_checked [UnstableSort] {source : Bytes} {inspection : KcMetadataInspection}
    {maps : List Mapping} (accepted : inspectKernelCollection source = .ok inspection)
    (mapped : mappings inspection.collection.segments = .ok maps) {c : ChainStart}
    (start : IsChainStart source inspection c) :
    c.start < c.pageSize ∧ c.Fits c.start ∧
      fileLocation maps (c.segment.address + c.into c.start) 8 =
        some (c.segment.file.offset + c.into c.start) := by
  obtain ⟨entry, mem, fixups, has, info, info_mem, eleven, start⟩ := start
  have given := imageGiven_of_accepted accepted mapped entry mem
  obtain ⟨_, each⟩ := given.ok.fixups fixups has
  obtain ⟨segment, there, _, _, ok⟩ := each info info_mem
  obtain ⟨_, _, segment_eq, paged, below, starts, found, start_mem⟩ := start
  rw [there, Option.some.injEq] at segment_eq
  subst segment_eq
  obtain ⟨_, starts', found', checked⟩ := ok.pages c.pageIndex below
  rw [found.unique found'] at start_mem
  obtain ⟨inPage, inFile, inMemory⟩ := checked c.start start_mem
  rw [pageStartWidth, if_pos (.inr eleven), ← paged] at inFile inMemory
  rw [← paged] at inPage
  have agrees := given.agrees c.segment (List.mem_of_getElem? there)
  exact ⟨inPage, ⟨inFile, inMemory⟩, agrees _ inFile⟩

/-- The inspector and the audit agree about the fixups of an accepted source. Every list of starts
ends inside its table; the first word of every chain lies in its page, in the file-backed bytes of
its segment and where the outer image has them; and the audit returns a result in which each of
these words has a record, or runs into a limit. -/
theorem audit_agrees [UnstableSort] {source : Bytes} {limits : AuditLimits}
    {inspection : KcMetadataInspection} (accepted : inspectKernelCollection source = .ok inspection)
    (valid : limits.Valid) :
    (∀ entry ∈ images inspection, ∀ fixups ∈ entry.1.chainedFixups, ∀ info ∈ fixups.segments,
      ∀ page < info.pageCount, ∃ starts, PageStarts source
        (startTable source fixups info.segmentIndex)
        (startTable source fixups info.segmentIndex +
          leAt source (startTable source fixups info.segmentIndex) 4) page starts) ∧
    (∃ maps, mappings inspection.collection.segments = .ok maps ∧
      ∀ c, IsChainStart source inspection c → c.start < c.pageSize ∧ c.Fits c.start ∧
        fileLocation maps (c.segment.address + c.into c.start) 8 =
          some (c.segment.file.offset + c.into c.start)) ∧
    ((∃ a, auditKernelCollectionWithLimits source limits = .ok a ∧
        ∀ c, IsChainStart source inspection c → ∃ r ∈ a.records, WordRecord c c.start r) ∨
      auditKernelCollectionWithLimits source limits = .err .limitExceeded) := by
  have inv := inspectionInv_of_accepted (.inl accepted)
  have outer := mappings_of_segments inv.collection.each
  refine ⟨?_, ⟨_, outer, fun c start => chainStart_checked accepted outer start⟩, ?_⟩
  · intro entry mem fixups has info info_mem page below
    obtain ⟨_, each⟩ := (imageOk_of_accepted accepted entry mem).fixups fixups has
    obtain ⟨_, _, _, _, ok⟩ := each info info_mem
    obtain ⟨_, starts, found, _⟩ := ok.pages page below
    exact ⟨starts, found⟩
  · have ends := ends_audit accepted valid
    cases audited : auditKernelCollectionWithLimits source limits with
    | ok a => exact .inl ⟨a, rfl, ends.of_ok audited⟩
    | err e =>
        have cut : e = .limitExceeded := ends.of_err audited
        rw [cut]
        exact .inr rfl
    | panic => exact absurd audited ends.ne_panic

/-- A collection whose tables of fixups start at `blob` and have one page with one chain. -/
theorem exists_chainStart {source : Bytes} {blob table start : Nat}
    (found : (@inspectKernelCollection UnstableSort.insertion source).isOkAnd
      (fun i => i.collection.segments[0]?.isSome ∧ i.collection.chainedFixups.any fun fixups =>
        fixups.file.offset = blob ∧ fixups.segments.any fun info => info.segmentIndex = 0 ∧
          info.pointerFormat = 11 ∧ info.pageSize = 4096 ∧ info.pageCount = 1) = true)
    (table_eq : startTable source ⟨⟨blob, 0⟩, 0, 0, 0, []⟩ 0 = table)
    (first : leAt source (table + (22 + 0 * 2)) 2 = start) (some' : start ≠ 0xffff)
    (plain : start &&& 0x8000 = 0) :
    ∃ inspection segment,
      @inspectKernelCollection UnstableSort.insertion source = .ok inspection ∧
        IsChainStart source inspection ⟨0, 0, 0, segment, 4096, start⟩ := by
  obtain ⟨inspection, accepted, found⟩ := isOkAnd_iff.mp found
  obtain ⟨there, found⟩ := of_decide_eq_true found
  obtain ⟨segment, there⟩ := Option.isSome_iff_exists.mp there
  obtain ⟨fixups, has, found⟩ := (Option.any_eq_true _ _).mp found
  obtain ⟨blob_eq, found⟩ := of_decide_eq_true found
  obtain ⟨info, mem, found⟩ := List.any_eq_true.mp found
  obtain ⟨index, eleven, sized, counted⟩ := of_decide_eq_true found
  refine ⟨inspection, segment, accepted, _, List.mem_cons_self, fixups, has, info, mem, eleven, ?_⟩
  rw [show startTable source fixups info.segmentIndex = table by
    rw [← table_eq, startTable, startTable, blob_eq, index]]
  refine ⟨rfl, index.symm, index ▸ there, sized.symm, ?_, [start], ?_, List.mem_cons_self⟩
  · rw [counted]
    exact Nat.one_pos
  · exact .single first some' plain

/-- The sample has one chain start, for the word at 632. -/
theorem isChainStart_sample :
    ∃ inspection segment,
      @inspectKernelCollection UnstableSort.insertion sampleFixups = .ok inspection ∧
        IsChainStart sampleFixups inspection ⟨0, 0, 0, segment, 4096, 632⟩ :=
  @exists_chainStart sampleFixups 648 _ 632 (by decide +kernel) rfl (by decide +kernel) (by decide)
    (by decide)

theorem audit_agrees_sample :
    ∃ a, @auditKernelCollectionWithLimits UnstableSort.insertion sampleFixups .default = .ok a ∧
      ∃ r ∈ a.records, r.imageIndex = 0 ∧ chainPlace r.detail = some (0, 0) := by
  obtain ⟨inspection, segment, accepted, start⟩ := isChainStart_sample
  obtain ⟨a, audited⟩ := isOk_iff.mp
    (show (@auditKernelCollectionWithLimits UnstableSort.insertion sampleFixups .default).isOk =
      true by
      decide +kernel)
  have valid : AuditLimits.default.Valid := by constructor <;> decide
  rcases (@audit_agrees UnstableSort.insertion _ _ _ accepted valid).2.2 with
    ⟨a', audited', recorded⟩ | cut
  · obtain ⟨r, mem, told⟩ := recorded _ start
    exact ⟨a', audited', r, mem, told.image, told.place⟩
  · rw [audited] at cut
    cases cut

/-- A collection whose one chain starts four bytes before the end of its page. -/
def straddlingFixups : Bytes :=
  fixupCollection (sampleHeader 2 1 72 ++ sampleSegment 4616 120 520 120)
    (toLeBytes 8 5000 ++ zeros 3472) 12288 [624] 4092

/-- The first word of a chain need not end in its page: the inspector accepts a start with fewer
than eight bytes of the page behind it. -/
theorem chainStart_straddles :
    ∃ inspection c,
      @inspectKernelCollection UnstableSort.insertion straddlingFixups = .ok inspection ∧
        IsChainStart straddlingFixups inspection c ∧ c.start < c.pageSize ∧
        c.pageSize < c.start + 8 := by
  obtain ⟨inspection, segment, accepted, start⟩ := @exists_chainStart straddlingFixups 4112 _ 4092
    (by decide +kernel) rfl (by decide +kernel) (by decide) (by decide)
  exact ⟨inspection, _, accepted, start, (by decide : 4092 < 4096), (by decide : 4096 < 4092 + 8)⟩

end Nextcore.FixupAudit
