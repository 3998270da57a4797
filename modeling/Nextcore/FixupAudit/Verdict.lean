import Nextcore.FixupAudit.Audit
import Nextcore.KernelCollection.WellFormed
import Nextcore.Lib.Trace

/-!
What an audit without issues says.

The first part is the verdict in its own terms: which words of the source are entries and
chained words, and what a record must say of one (`ClassicSound`, `ChainSound`). The second part
follows the audit: each part of it appends records and issues (`Emits`), and the records of a
part that has raised no issue are those of its words, one for each.
-/

namespace Nextcore.FixupAudit

open Checked Checked.Outcome KernelCollection

/-! ### The verdict -/

/-- The little-endian word of a width at an offset. -/
def leAt (source : Bytes) (at' width : Nat) : Nat := fromLeBytes (window source at' width)

/-- The bytes at an address lie in the file-backed bytes of a segment, where the file has them
at the given offset. -/
def InFile (segments : List SegmentMetadata) (address width file : Nat) : Prop :=
  ∃ s ∈ segments, s.address ≤ address ∧ address + width ≤ s.address + s.file.size ∧
    file = s.file.offset + (address - s.address)

/-- What a record must say of the classic entry at an offset of its table. -/
structure ClassicSound (source : Bytes) (outer : List SegmentMetadata) (c : ClassicRange)
    (offset : Nat) (r : AuditRecord) : Prop where
  image : r.imageIndex = c.imageIndex
  place : r.sourceRecordOffset = offset
  kind : leAt source (offset + 4) 4 >>> 28 = 0
  pcRelative : leAt source (offset + 4) 4 &&& 2 ^ 24 = 0
  external : leAt source (offset + 4) 4 &&& 2 ^ 27 = 0
  table : c.table ≠ .externalDynamic
  width : r.width = 2 ^ Audit.classicLength (leAt source (offset + 4) 4)
  pointer : r.width = 4 ∨ r.width = 8
  writes : ∃ base address file : Nat, c.base = some base ∧
    (base : Int) + asI32 (leAt source offset 4) = address ∧ r.writeAddress = some address ∧
    r.writeFileOffset = some file ∧ InFile outer address r.width file ∧
    r.detail = .classic c.table (asI32 (leAt source offset 4))
      (leAt source (offset + 4) 4 &&& 0xffffff) 0
      (Audit.classicLength (leAt source (offset + 4) 4)) false false
      (some (leAt source file r.width))
  inSection : ∀ size ∈ c.sectionSize, 0 ≤ asI32 (leAt source offset 4) ∧
    asI32 (leAt source offset 4) + r.width ≤ size

/-- Where a chain has its word at an offset in the page: how far into the segment. -/
def ChainStart.into (c : ChainStart) (inPage : Nat) : Nat :=
  c.pageIndex * c.pageSize + inPage

/-- The word of a chain at an offset in the page. -/
def ChainStart.wordAt (c : ChainStart) (source : Bytes) (inPage : Nat) : Nat :=
  leAt source (c.segment.file.offset + c.into inPage) 8

/-- What a record must say of the word of a chain at an offset in the page. -/
structure ChainSound (source : Bytes) (outer : List SegmentMetadata) (primaryBase : Nat)
    (c : ChainStart) (inPage : Nat) (r : AuditRecord) : Prop where
  image : r.imageIndex = c.imageIndex
  place : r.sourceRecordOffset = c.segment.file.offset + c.into inPage
  width : r.width = 8
  address : r.writeAddress = some (c.segment.address + c.into inPage)
  file : r.writeFileOffset = some (c.segment.file.offset + c.into inPage)
  inFile : InFile outer (c.segment.address + c.into inPage) 8
    (c.segment.file.offset + c.into inPage)
  plain : c.wordAt source inPage >>> 63 = 0
  cache : Audit.cacheLevel (c.wordAt source inPage) = 0
  target : ∃ s ∈ outer, s.address ≤ primaryBase + (c.wordAt source inPage &&& 0x3fffffff) ∧
    primaryBase + (c.wordAt source inPage &&& 0x3fffffff) < s.address + s.memorySize
  detail : r.detail = .chain11 c.segmentIndex c.pageIndex
    (c.wordAt source inPage &&& 0x3fffffff) 0 (c.wordAt source inPage >>> 32 &&& 0xffff)
    (c.wordAt source inPage &&& 2 ^ 48 ≠ 0) (c.wordAt source inPage >>> 49 &&& 3)
    (Audit.nextOffset (c.wordAt source inPage)) false
    (some (primaryBase + (c.wordAt source inPage &&& 0x3fffffff))) true

/-- The words of a chain, from its start up to one without a link, each with its record. -/
def ChainRecorded (source : Bytes) (outer : List SegmentMetadata) (primaryBase : Nat)
    (c : ChainStart) (records : List AuditRecord) : Prop :=
  ∃ offsets, Walk (fun inPage => Audit.nextOffset (c.wordAt source inPage)) c.pageSize c.start
    offsets ∧ List.Forall₂ (ChainSound source outer primaryBase c) offsets records

/-- Where the table of the page starts of a segment lies. -/
def startTable (source : Bytes) (fixups : ChainedFixupMetadata) (segmentIndex : Nat) : Nat :=
  let starts := fixups.file.offset + leAt source (fixups.file.offset + 4) 4
  starts + leAt source (starts + (4 + segmentIndex * 4)) 4

/-- A page has no fixups, or one chain. -/
def PageRecorded (source : Bytes) (outer : List SegmentMetadata) (primaryBase table : Nat)
    (chainAt : Nat → Nat → ChainStart) (page : Nat) (records : List AuditRecord) : Prop :=
  let first := leAt source (table + (22 + page * 2)) 2
  (first = 0xffff ∧ records = []) ∨
    (first < 2 ^ 15 ∧ ChainRecorded source outer primaryBase (chainAt page first) records)

/-- The pages of a segment with fixups, each with its records. -/
def SegmentRecorded (source : Bytes) (outer : List SegmentMetadata) (primaryBase index : Nat)
    (image : ImageMetadata) (fixups : ChainedFixupMetadata) (info : FixupSegmentMetadata)
    (records : List AuditRecord) : Prop :=
  info.pointerFormat = 11 ∧ ∃ segment, image.segments[info.segmentIndex]? = some segment ∧
    InTurn (PageRecorded source outer primaryBase (startTable source fixups info.segmentIndex)
      fun page start => ⟨index, info.segmentIndex, page, segment, info.pageSize, start⟩)
      (List.range info.pageCount) records

/-- The chained fixups of an image, each word with its record. -/
def FixupsRecorded (source : Bytes) (outer : List SegmentMetadata) (primaryBase index : Nat)
    (image : ImageMetadata) (records : List AuditRecord) : Prop :=
  match image.chainedFixups with
  | none => records = []
  | some fixups => fixups.importsCount = 0 ∧ fixups.symbolsFormat = 0 ∧
    InTurn (SegmentRecorded source outer primaryBase index image fixups) fixups.segments records

/-- The entries of a table, each with its record. -/
def TableRecorded (source : Bytes) (outer : List SegmentMetadata) (c : ClassicRange)
    (records : List AuditRecord) : Prop :=
  List.Forall₂ (ClassicSound source outer c)
    ((Audit.entryOffsets c.range.size).map (c.range.offset + ·)) records

/-- The tables of entries of an image: the local and the external one of its symbols, and the one of
every section. -/
theorem Audit.mem_classicRanges {index : Nat} {image : ImageMetadata} {c : ClassicRange} :
    c ∈ classicRanges index image ↔
      (∃ relocations ∈ image.relocations,
        c = ⟨index, none, .localDynamic, relocations.localRange, classicBase image⟩ ∨
          c = ⟨index, none, .externalDynamic, relocations.external, classicBase image⟩) ∨
      ∃ segment ∈ image.segments, ∃ s ∈ segment.sections,
        c = ⟨index, some s.size, .section, s.relocations, some s.address⟩ := by
  rw [classicRanges, List.mem_append]
  refine or_congr ?_ ?_
  · cases image.relocations <;> simp
  · simp only [List.mem_flatMap, List.mem_map, eq_comm]

/-- The fixups of an image: first its tables of entries, then its chains. -/
def ImageRecorded (source : Bytes) (outer : List SegmentMetadata) (primaryBase : Nat)
    (entry : ImageMetadata × Nat) (records : List AuditRecord) : Prop :=
  ∃ classic chained, records = classic ++ chained ∧
    InTurn (TableRecorded source outer) (Audit.classicRanges entry.2 entry.1) classic ∧
    FixupsRecorded source outer primaryBase entry.2 entry.1 chained

/-- A record of a write of some bytes, which a segment has file bytes for. -/
def Backed (outer : List SegmentMetadata) (r : AuditRecord) : Prop :=
  0 < r.width ∧ ∃ address file, r.writeAddress = some address ∧ r.writeFileOffset = some file ∧
    InFile outer address r.width file

/-- What the two records write is apart. -/
def WritesApart (a b : AuditRecord) : Prop :=
  ∀ x ∈ a.writeAddress, ∀ y ∈ b.writeAddress, Span.Apart ⟨x, a.width⟩ ⟨y, b.width⟩

/-! ### Reading -/

theorem addWord_eq_ok {a b c : Nat} : addWord a b = .ok c ↔ a + b < 2 ^ 64 ∧ a + b = c := by
  rw [addWord, ofOption_eq_ok, checkedAdd_eq_some]

theorem wordAt_eq_ok {source : Bytes} {at' width n : Nat} :
    wordAt source at' width = .ok n ↔
      at' + width < 2 ^ 64 ∧ at' + width ≤ source.length ∧ leAt source at' width = n := by
  simp only [wordAt, raw, bind_eq_ok, exists_const, addWord_eq_ok, rejectIf_eq_ok, index_eq_ok,
    pure_eq, ok.injEq, leAt]
  constructor
  · rintro ⟨_, ⟨_, ⟨word, rfl⟩, inside, _, rfl⟩, rfl⟩
    exact ⟨word, Nat.le_of_not_lt inside, by rw [Nat.add_sub_cancel_left]⟩
  · rintro ⟨word, inside, rfl⟩
    exact ⟨_, ⟨_, ⟨word, rfl⟩, Nat.not_lt.mpr inside, ⟨Nat.le_add_right _ _, inside⟩, rfl⟩,
      by rw [Nat.add_sub_cancel_left]⟩

/-! ### Mappings -/

/-- A mapping of one of the segments. -/
def IsMapping (segments : List SegmentMetadata) (m : Mapping) : Prop :=
  ∃ s ∈ segments, m = ⟨s.address, s.address + s.memorySize, s.address + s.file.size, s.file.offset⟩

theorem isMapping_of_mem [UnstableSort] {segments : List SegmentMetadata} {maps : List Mapping}
    (mapped : mappings segments = .ok maps) {m : Mapping} (mem : m ∈ maps) :
    IsMapping segments m := by
  simp only [mappings, bind_eq_ok, pure_eq, ok.injEq] at mapped
  obtain ⟨collected, each, rfl⟩ := mapped
  obtain ⟨s, s_mem, made⟩ := exists_of_mem_collect each (UnstableSort.mem_sortByKey.mp mem)
  simp only [mapping, bind_eq_ok, addWord_eq_ok, pure_eq, ok.injEq] at made
  obtain ⟨_, ⟨_, rfl⟩, _, ⟨_, rfl⟩, rfl⟩ := made
  exact ⟨s, (List.mem_filter.mp s_mem).1, rfl⟩

section Lookup

variable {maps : List Mapping} {address width : Nat}

theorem of_containing_eq_some {m : Mapping} (found : containing maps address width = some m) :
    m ∈ maps ∧ m.start ≤ address ∧ address + width ≤ m.stop := by
  simp only [containing, Option.bind_eq_bind, Option.bind_eq_some_iff, checkedAdd_eq_some,
    Option.ite_none_right_eq_some, Option.some.injEq] at found
  obtain ⟨last, front, _, ⟨_, rfl⟩, inside, rfl⟩ := found
  obtain ⟨mem, before⟩ := lastOfFront_eq_some front
  exact ⟨mem, of_decide_eq_true before, inside⟩

theorem of_fileLocation_eq_some {file : Nat} (found : fileLocation maps address width = some file) :
    ∃ m ∈ maps, m.start ≤ address ∧ address + width ≤ m.fileEnd ∧
      file = m.fileOffset + (address - m.start) := by
  simp only [fileLocation, Option.bind_eq_bind, Option.bind_eq_some_iff, checkedAdd_eq_some,
    Option.ite_none_right_eq_some, Option.some.injEq] at found
  obtain ⟨m, held, _, ⟨_, rfl⟩, inside, rfl⟩ := found
  obtain ⟨mem, before, _⟩ := of_containing_eq_some held
  exact ⟨m, mem, before, inside, rfl⟩

variable [UnstableSort] {segments : List SegmentMetadata}

theorem inFile_of_fileLocation (mapped : mappings segments = .ok maps) {file : Nat}
    (found : fileLocation maps address width = some file) : InFile segments address width file := by
  obtain ⟨m, mem, before, inside, rfl⟩ := of_fileLocation_eq_some found
  obtain ⟨s, s_mem, rfl⟩ := isMapping_of_mem mapped mem
  exact ⟨s, s_mem, before, inside, rfl⟩

theorem exists_of_containing (mapped : mappings segments = .ok maps) {m : Mapping}
    (found : containing maps address width = some m) :
    ∃ s ∈ segments, s.address ≤ address ∧ address + width ≤ s.address + s.memorySize := by
  obtain ⟨mem, before, inside⟩ := of_containing_eq_some found
  obtain ⟨s, s_mem, rfl⟩ := isMapping_of_mem mapped mem
  exact ⟨s, s_mem, before, inside⟩

end Lookup

/-! ### What a part of the audit appends -/

/-- The audit after a part of it: with records and issues more. -/
structure Grown (out out' : KcFixupAudit) (records : List AuditRecord) (issues : List AuditIssue) :
    Prop where
  records : out'.records = out.records ++ records
  issues : out'.issues = out.issues ++ issues
  primaryBase : out'.primaryBase = out.primaryBase

/-- A part of the audit appends records and issues; when no issues, records as described. -/
def Emits (P : List AuditRecord → Prop) (out : KcFixupAudit) (x : Result KcFixupAudit) : Prop :=
  ∀ out', x = .ok out' → ∃ records issues, Grown out out' records issues ∧
    (issues = [] → P records)

section Emits

variable {P Q : List AuditRecord → Prop} {out : KcFixupAudit} {x : Result KcFixupAudit}

theorem Emits.imp (weaken : ∀ records, P records → Q records) (emits : Emits P out x) :
    Emits Q out x := by
  intro out' returned
  obtain ⟨records, issues, grown, known⟩ := emits out' returned
  exact ⟨records, issues, grown, fun clean => weaken records (known clean)⟩

/-- A part that appends nothing. -/
theorem emits_pure {out' : KcFixupAudit} (records : out'.records = out.records)
    (issues : out'.issues = out.issues) (base : out'.primaryBase = out.primaryBase) :
    Emits (· = []) out (.ok out') := by
  rintro _ ⟨rfl⟩
  exact ⟨[], [], ⟨by rw [records, List.append_nil], by rw [issues, List.append_nil], base⟩,
    fun _ => rfl⟩

/-- One part after another. -/
theorem Emits.bind {f : KcFixupAudit → Result KcFixupAudit} (emits : Emits P out x)
    (rest : ∀ out', out'.primaryBase = out.primaryBase → Emits Q out' (f out')) :
    Emits (fun records => ∃ a b, P a ∧ Q b ∧ records = a ++ b) out (x >>= f) := by
  intro out'' returned
  obtain ⟨out', first, second⟩ := bind_eq_ok.mp returned
  obtain ⟨a, issues, grown, known⟩ := emits out' first
  obtain ⟨b, issues', grown', known'⟩ := rest out' grown.primaryBase out'' second
  refine ⟨a ++ b, issues ++ issues', ⟨?_, ?_, ?_⟩, fun clean => ?_⟩
  · rw [grown'.records, grown.records, List.append_assoc]
  · rw [grown'.issues, grown.issues, List.append_assoc]
  · rw [grown'.primaryBase, grown.primaryBase]
  · obtain ⟨rfl, rfl⟩ := List.append_eq_nil_iff.mp clean
    exact ⟨a, b, known rfl, known' rfl, rfl⟩

/-- A part after something that only reads. -/
theorem emits_read {α : Type} {y : Result α} {f : α → Result KcFixupAudit}
    (rest : ∀ a, y = .ok a → Emits P out (f a)) : Emits P out (y >>= f) := by
  intro out' returned
  obtain ⟨a, read, ran⟩ := bind_eq_ok.mp returned
  exact rest a read out' ran

/-- The counters are no part of what is appended. -/
theorem emits_counted {summary : AuditSummary} (emits : Emits P { out with summary } x) :
    Emits P out x := by
  intro out' returned
  obtain ⟨records, issues, grown, known⟩ := emits out' returned
  exact ⟨records, issues, ⟨grown.records, grown.issues, grown.primaryBase⟩, known⟩

/-- A loop appends what its rounds append. -/
theorem emits_foldlM {α : Type} {step : KcFixupAudit → α → Result KcFixupAudit} {b : Nat}
    {R : α → List AuditRecord → Prop}
    (each : ∀ a out, out.primaryBase = b → Emits (R a) out (step out a)) (list : List α)
    {out : KcFixupAudit} (start : out.primaryBase = b) :
    Emits (InTurn R list) out (list.foldlM step out) := by
  induction list generalizing out with
  | nil =>
      rw [List.foldlM_nil]
      refine (emits_pure rfl rfl rfl).imp ?_
      rintro _ rfl
      exact .nil
  | cons a rest ih =>
      rw [List.foldlM_cons]
      refine ((each a out start).bind fun out' same => ih (same.trans start)).imp ?_
      rintro _ ⟨first, others, head, tail, rfl⟩
      exact .cons head tail

end Emits

namespace Audit

/-! ### Issues and records -/

section Parts

variable {audit : Audit} {out : KcFixupAudit}

theorem of_issue_eq_ok {code : IssueCode} {image : Nat} {record related : Option Nat}
    {out' : KcFixupAudit} (raised : audit.issue code image record related out = .ok out') :
    out' = { out with issues := out.issues ++ [⟨code, image, record, related⟩] } := by
  simp only [issue, pushBounded, bind_assoc, bind_eq_ok, pure_eq, bind_ok, ok.injEq] at raised
  obtain ⟨_, _, rfl⟩ := raised
  rfl

/-- A part that raises an issue is not clean. -/
theorem emits_issue {code : IssueCode} {image : Nat} {record related : Option Nat} :
    Emits (fun _ => False) out (audit.issue code image record related out) := by
  intro out' raised
  rw [of_issue_eq_ok raised]
  exact ⟨[], _, ⟨(List.append_nil _).symm, rfl, rfl⟩, fun clean => by cases clean⟩

theorem emits_issues {codes : List IssueCode} {image : Nat} {record related : Option Nat} :
    Emits (fun records => codes = [] ∧ records = []) out
      (codes.foldlM (fun out code => audit.issue code image record related out) out) := by
  refine (emits_foldlM (fun _ _ _ => emits_issue) codes rfl).imp fun records turns => ?_
  cases turns with
  | nil => exact ⟨rfl, rfl⟩
  | cons raised _ => exact raised.elim

theorem emits_issueIf {p : Prop} [Decidable p] {code : IssueCode} {index : Nat} :
    Emits (fun records => ¬ p ∧ records = []) out (audit.issueIf p code index out) := by
  unfold issueIf
  split
  · exact emits_issue.imp fun _ raised => raised.elim
  · next clear => exact (emits_pure rfl rfl rfl).imp fun _ none => ⟨clear, none⟩

/-- A record, and what follows it. -/
theorem emits_record {r : AuditRecord} {P : List AuditRecord → Prop}
    {f : Nat × KcFixupAudit → Result KcFixupAudit}
    (rest : ∀ index out', out'.primaryBase = out.primaryBase → Emits P out' (f (index, out'))) :
    Emits (fun records => ∃ b, P b ∧ records = r :: b) out (audit.record r out >>= f) := by
  intro out'' returned
  simp only [record, pushBounded, bind_assoc, bind_eq_ok, pure_eq, bind_ok] at returned
  obtain ⟨_, _, ran⟩ := returned
  obtain ⟨b, issues, grown, known⟩ := rest _ { out with
    records := out.records ++ [r], summary := out.summary.countRecord r } rfl out'' ran
  refine ⟨r :: b, issues, ⟨?_, grown.issues, grown.primaryBase⟩, fun clean => ⟨b, known clean, rfl⟩⟩
  rw [grown.records, List.append_assoc]
  rfl

end Parts

/-! ### Classic entries -/

theorem codeIf_eq_nil {p : Prop} [Decidable p] {code : IssueCode} : codeIf p code = [] ↔ ¬ p := by
  unfold codeIf
  split <;> simp_all

theorem storedValue_eq_ok {audit : Audit} {width file : Nat} {stored : Option Nat}
    (read : audit.storedValue width (some file) = .ok stored) :
    stored = some (leAt audit.source file width) := by
  simp only [storedValue, bind_eq_ok, wordAt_eq_ok, pure_eq, ok.injEq] at read
  obtain ⟨_, ⟨_, _, rfl⟩, rfl⟩ := read
  rfl

/-- What an entry writes lies in its section. -/
theorem inSection_of_leavesSection {displacement : Int} {width size : Nat}
    (inside : leavesSection displacement width size = false) :
    0 ≤ displacement ∧ displacement + width ≤ size := by
  have clear := of_decide_eq_false inside
  rw [not_or, all_checkedAdd] at clear
  obtain ⟨positive, fits⟩ := clear
  simp only [decide_eq_true_eq, not_forall, Nat.not_lt, exists_prop] at fits
  omega

theorem two_pow_classicLength {info : Nat} (wide : 2 ≤ classicLength info) :
    2 ^ classicLength info = 4 ∨ 2 ^ classicLength info = 8 := by
  have short : classicLength info ≤ 3 := Nat.and_le_right
  rcases (by omega : classicLength info = 2 ∨ classicLength info = 3) with two | three
  · exact .inl (congrArg (2 ^ ·) two)
  · exact .inr (congrArg (2 ^ ·) three)

section Classic

variable [UnstableSort] {audit : Audit} {segments : List SegmentMetadata} {maps : List Mapping}
  {c : ClassicRange}

/-- An entry without codes is sound. -/
theorem classicSound_of_codes (mapped : mappings segments = .ok audit.outer) {offset : Nat}
    {stored : Option Nat}
    (read : audit.storedValue (2 ^ classicLength (leAt audit.source (offset + 4) 4))
      (audit.classicFile maps (classicAddress c (asI32 (leAt audit.source offset 4)))
        (2 ^ classicLength (leAt audit.source (offset + 4) 4))) = .ok stored)
    (clean : audit.classicCodes maps c (asI32 (leAt audit.source offset 4))
      (leAt audit.source (offset + 4) 4) = []) :
    ClassicSound audit.source segments c offset
      (audit.classicRecord maps c offset (asI32 (leAt audit.source offset 4))
        (leAt audit.source (offset + 4) 4) stored) := by
  simp only [classicCodes, List.append_eq_nil_iff, codeIf_eq_nil, not_or, not_not, Nat.not_lt,
    ne_eq] at clean
  obtain ⟨⟨⟨⟨⟨⟨⟨kind, wide⟩, pcRelative⟩, external, table⟩, _⟩, _⟩, inSection⟩, found⟩ := clean
  obtain ⟨file, found⟩ := Option.ne_none_iff_exists'.mp found
  have shown := found
  simp only [classicFile, Option.filter_eq_some_iff, decide_eq_true_eq,
    Option.bind_eq_some_iff] at found
  obtain ⟨_, address, addressed, located⟩ := found
  rw [shown] at read
  have value := storedValue_eq_ok read
  obtain ⟨base, based, sum⟩ := Option.bind_eq_some_iff.mp addressed
  obtain ⟨sum, _⟩ := checkedAddSigned_eq_some.mp sum
  refine ⟨rfl, rfl, kind, pcRelative, external, table, rfl, two_pow_classicLength wide,
    ⟨base, address, file, based, sum, addressed, shown, inFile_of_fileLocation mapped located, ?_⟩,
    ?_⟩
  · simp only [classicRecord, kind, pcRelative, external, value, ne_eq, not_true_eq_false,
      decide_false]
  · intro size mem
    refine inSection_of_leavesSection ?_
    rw [mem, Option.any_some, Bool.not_eq_true] at inSection
    exact inSection

/-- The record of an entry, which is sound when the entry raised no issue. -/
theorem emits_classicEntry (mapped : mappings segments = .ok audit.outer) {out : KcFixupAudit}
    {at' : Nat} :
    Emits (fun records => ∃ r, records = [r] ∧
        ClassicSound audit.source segments c (c.range.offset + at') r)
      out (audit.classicEntry maps c out at') := by
  refine emits_read fun offset offset_eq => emits_read fun word word_eq =>
    emits_read fun infoOffset infoOffset_eq => emits_read fun info info_eq =>
    emits_read fun stored read => ?_
  obtain ⟨_, rfl⟩ := addWord_eq_ok.mp offset_eq
  obtain ⟨_, rfl⟩ := add_eq_ok.mp infoOffset_eq
  obtain ⟨_, _, rfl⟩ := wordAt_eq_ok.mp word_eq
  obtain ⟨_, _, rfl⟩ := wordAt_eq_ok.mp info_eq
  refine (emits_record fun index out' _ => emits_counted emits_issues).imp ?_
  rintro _ ⟨_, ⟨clean, rfl⟩, rfl⟩
  exact ⟨_, rfl, classicSound_of_codes mapped read clean⟩

/-- The records of a table, one for each entry. -/
theorem emits_classic (mapped : mappings segments = .ok audit.outer) {out : KcFixupAudit} :
    Emits (TableRecorded audit.source segments c) out (audit.classic maps out c) := by
  refine (emits_foldlM (fun _ _ _ => emits_classicEntry mapped) _ rfl).imp fun records turns => ?_
  exact (List.forall₂_map_left_iff).mpr turns.forall₂

end Classic

/-! ### Chained words -/

theorem chainLocation_eq_ok {audit : Audit} {c : ChainStart} {inPage address file : Nat}
    (found : audit.chainLocation c (c.pageIndex * c.pageSize) inPage = .ok (some (address, file))) :
    address = c.segment.address + c.into inPage ∧ file = c.segment.file.offset + c.into inPage ∧
      fileLocation audit.outer address 8 = some file := by
  obtain ⟨_, sum, found⟩ := bind_eq_ok.mp found
  obtain ⟨_, rfl⟩ := addWord_eq_ok.mp sum
  split at found
  · cases found
  · simp only [bind_eq_ok, addWord_eq_ok] at found
    obtain ⟨_, ⟨_, rfl⟩, _, ⟨_, rfl⟩, found⟩ := found
    split at found
    · cases found
    · next agree =>
        cases found
        exact ⟨rfl, rfl, not_not.mp agree⟩

section Chain

variable [UnstableSort] {audit : Audit} {segments : List SegmentMetadata} {c : ChainStart}
  {inPage : Nat}

/-- A word without codes is sound. -/
theorem chainSound_of_codes (mapped : mappings segments = .ok audit.outer) {primaryBase : Nat}
    (located : fileLocation audit.outer (c.segment.address + c.into inPage) 8 =
      some (c.segment.file.offset + c.into inPage))
    (clean : audit.chainCodes primaryBase (c.wordAt audit.source inPage) = []) :
    ChainSound audit.source segments primaryBase c inPage
      (audit.chainRecord c primaryBase (c.segment.address + c.into inPage)
        (c.segment.file.offset + c.into inPage) (c.wordAt audit.source inPage)) := by
  obtain ⟨targeted, plain⟩ := List.append_eq_nil_iff.mp clean
  rw [codeIf_eq_nil, not_not] at plain
  split at targeted
  · cases targeted
  next based =>
  split at targeted
  · cases targeted
  next resolves =>
  rw [codeIf_eq_nil, Bool.not_eq_false] at targeted
  obtain ⟨cache, _⟩ := not_or.mp based
  obtain ⟨target, resolved⟩ := Option.ne_none_iff_exists'.mp resolves
  have covered := targeted
  have shown := resolved
  rw [resolvedTarget, Option.ite_none_right_eq_some, checkedAdd_eq_some] at resolved
  obtain ⟨_, _, rfl⟩ := resolved
  rw [targetCovered, shown, Option.any_some, Option.isSome_iff_exists] at targeted
  obtain ⟨m, held⟩ := targeted
  obtain ⟨s, mem, above, below⟩ := exists_of_containing mapped held
  refine ⟨rfl, rfl, rfl, rfl, rfl, inFile_of_fileLocation mapped located, plain, not_not.mp cache,
    ⟨s, mem, above, below⟩, ?_⟩
  simp only [chainRecord, shown, covered, not_not.mp cache, plain, ne_eq, not_true_eq_false,
    decide_false]

/-- A round of the loop, and what follows it. -/
theorem emits_chainStep (mapped : mappings segments = .ok audit.outer) {out : KcFixupAudit}
    {P : Nat → List AuditRecord → Prop} {f : Nat × KcFixupAudit → Result KcFixupAudit}
    (rest : ∀ next out', out'.primaryBase = out.primaryBase →
      Emits (P next) out' (f (next, out'))) :
    Emits (fun records => ∃ r b, ChainSound audit.source segments out.primaryBase c inPage r ∧
        P (nextOffset (c.wordAt audit.source inPage)) b ∧ records = r :: b)
      out (audit.chainStep c (c.pageIndex * c.pageSize) inPage out >>= f) := by
  rw [chainStep, bind_assoc]
  refine emits_read fun location found => ?_
  match location with
  | none =>
      rw [bind_assoc]
      refine (emits_issue.bind fun out' same => rest 0 out' same).imp ?_
      rintro _ ⟨_, _, raised, _⟩
      exact raised.elim
  | some (address, file) =>
      obtain ⟨rfl, rfl, located⟩ := chainLocation_eq_ok found
      simp only [chainWord, bind_assoc, pure_eq, bind_ok]
      refine emits_read fun word word_eq => ?_
      obtain ⟨_, _, rfl⟩ := wordAt_eq_ok.mp word_eq
      refine (emits_record fun index out' same => emits_counted (emits_issues.bind
        fun out'' same' => emits_counted (rest _ _ (by exact same'.trans same)))).imp ?_
      rintro _ ⟨_, ⟨_, _, ⟨clean, rfl⟩, known, rfl⟩, rfl⟩
      exact ⟨_, _, chainSound_of_codes mapped located clean, known, rfl⟩

/-- The records of a chain, from an offset in the page on. -/
theorem emits_chainFrom (mapped : mappings segments = .ok audit.outer) (inPage : Nat)
    (out : KcFixupAudit) :
    Emits (fun records => ∃ offsets,
        Walk (fun inPage => nextOffset (c.wordAt audit.source inPage)) c.pageSize inPage offsets ∧
          List.Forall₂ (ChainSound audit.source segments out.primaryBase c) offsets records)
      out (audit.chainFrom c (c.pageIndex * c.pageSize) inPage out) := by
  induction gap : c.pageSize - inPage using Nat.strongRecOn generalizing inPage out with
  | ind gap ih =>
      subst gap
      rw [chainFrom]
      split
      · exact emits_issue.imp fun _ raised => raised.elim
      next inside =>
      refine (emits_chainStep (P := fun next records => (next = 0 ∧ records = []) ∨
          (next ≠ 0 ∧ ∃ offsets, Walk (fun inPage => nextOffset (c.wordAt audit.source inPage))
            c.pageSize (inPage + next) offsets ∧
            List.Forall₂ (ChainSound audit.source segments out.primaryBase c) offsets records))
        mapped fun next out' same => ?_).imp ?_
      · dsimp only
        split
        · next terminal =>
            exact (emits_pure rfl rfl rfl).imp fun _ none => .inl ⟨terminal, none⟩
        next linked =>
        split
        · intro _ failed
          cases failed
        next inPage' stride =>
        obtain ⟨_, rfl⟩ := checkedAdd_eq_some.mp stride
        refine (ih _ (by omega) (inPage + next) out' rfl).imp fun records walked => ?_
        rw [same] at walked
        exact .inr ⟨linked, walked⟩
      · rintro _ ⟨r, b, sound, ⟨terminal, rfl⟩ | ⟨linked, offsets, walked, each⟩, rfl⟩
        · exact ⟨[inPage], .last (Nat.lt_of_not_le inside) terminal, .cons sound .nil⟩
        · exact ⟨inPage :: offsets, .step (Nat.lt_of_not_le inside) linked walked,
            .cons sound each⟩

/-- The records of a chain. -/
theorem emits_chain (mapped : mappings segments = .ok audit.outer) (c : ChainStart)
    (out : KcFixupAudit) :
    Emits (ChainRecorded audit.source segments out.primaryBase c) out (audit.chain c out) := by
  refine emits_read fun pageOffset product => ?_
  rw [ofOption_eq_ok, checkedMul_eq_some] at product
  obtain ⟨_, rfl⟩ := product
  exact emits_counted (emits_chainFrom mapped c.start _)

end Chain

/-! ### Images -/

theorem leAt_lt {source : Bytes} {at' width : Nat} (inside : at' + width ≤ source.length) :
    leAt source at' width < 256 ^ width := by
  have bound := fromLeBytes_lt (window source at' width)
  rwa [length_window inside] at bound

theorem emits_pageStart {audit : Audit} {out : KcFixupAudit} :
    Emits (· = []) out (audit.pageStart out) :=
  emits_read fun _ _ => emits_pure rfl rfl rfl

section Image

variable [UnstableSort] {audit : Audit} {segments : List SegmentMetadata}

/-- The chains of a page with several starts append something; the page has raised an issue. -/
theorem emits_walkStarts (mapped : mappings segments = .ok audit.outer) (table : StartTable)
    (page at' : Nat) (out : KcFixupAudit) :
    Emits (fun _ => True) out (audit.walkStarts table page at' out) := by
  induction gap : table.infoEnd - at' using Nat.strongRecOn generalizing at' out with
  | ind gap ih =>
      subst gap
      rw [walkStarts]
      refine Emits.imp (fun _ _ => trivial)
        (Emits.bind (Q := fun _ => True) emits_pageStart fun out' _ => ?_)
      split
      · intro _ failed
        cases failed
      next stop room =>
      split
      · intro _ failed
        cases failed
      next inside =>
      obtain ⟨_, rfl⟩ := checkedAdd_eq_some.mp room
      refine emits_read fun start _ => Emits.imp (fun _ _ => trivial)
        (Emits.bind (Q := fun _ => True) (emits_chain mapped _ _) fun out'' _ => ?_)
      split
      · exact (emits_pure rfl rfl rfl).imp fun _ _ => trivial
      · exact ih _ (by omega) (at' + 2) out'' rfl

/-- The records of a page: of one chain, or none. -/
theorem emits_fixupPage (mapped : mappings segments = .ok audit.outer) (table : StartTable)
    (out : KcFixupAudit) (page : Nat) :
    Emits (PageRecorded audit.source segments out.primaryBase table.info table.chainAt page) out
      (audit.fixupPage table out page) := by
  refine Emits.imp ?_ (Emits.bind
    (Q := PageRecorded audit.source segments out.primaryBase table.info table.chainAt page)
    emits_pageStart fun out' same => emits_read fun entry entry_eq =>
      emits_read fun first read => ?_)
  · rintro _ ⟨_, _, rfl, recorded, rfl⟩
    exact recorded
  obtain ⟨_, rfl⟩ := addWord_eq_ok.mp entry_eq
  obtain ⟨_, inside, rfl⟩ := wordAt_eq_ok.mp read
  split
  · next none =>
      refine (emits_pure rfl rfl rfl).imp ?_
      rintro _ rfl
      exact .inl ⟨none, rfl⟩
  split
  · next single =>
      have small : leAt audit.source (table.info + (22 + page * 2)) 2 < 2 ^ 15 := by
        by_contra large
        exact (and_top_ne_zero (leAt_lt inside)).mpr (Nat.le_of_not_lt large) single
      rw [← same]
      exact (emits_chain mapped _ _).imp fun records recorded => .inr ⟨small, recorded⟩
  · refine emits_counted (Emits.imp ?_ (Emits.bind (Q := fun _ => True) emits_issue fun out'' _ =>
      emits_read fun _ _ => emits_walkStarts mapped table page _ out''))
    rintro _ ⟨_, _, raised, _⟩
    exact raised.elim

/-- The records of the pages of a segment. -/
theorem emits_fixupSegment (mapped : mappings segments = .ok audit.outer) {index starts : Nat}
    {image : ImageMetadata} {fixups : ChainedFixupMetadata}
    (starts_eq : starts = fixups.file.offset + leAt audit.source (fixups.file.offset + 4) 4)
    (info : FixupSegmentMetadata) (out : KcFixupAudit) :
    Emits (SegmentRecorded audit.source segments out.primaryBase index image fixups info) out
      (audit.fixupSegment index image starts out info) := by
  rw [fixupSegment]
  split
  · exact emits_issue.imp fun _ raised => raised.elim
  next format =>
  refine emits_read fun segment found => emits_read fun _ _ => emits_read fun entry entry_eq =>
    emits_read fun relative read => emits_read fun table table_eq => emits_read fun size _ =>
    emits_read fun tableEnd _ => ?_
  obtain ⟨_, rfl⟩ := addWord_eq_ok.mp entry_eq
  obtain ⟨_, _, rfl⟩ := wordAt_eq_ok.mp read
  obtain ⟨_, rfl⟩ := addWord_eq_ok.mp table_eq
  refine (emits_foldlM (b := out.primaryBase) (fun page out' same => ?_) _ rfl).imp
    fun records pages => ⟨not_not.mp format, segment, expect_eq_ok.mp found, pages⟩
  subst starts_eq
  rw [← same]
  exact emits_fixupPage mapped _ out' page

/-- The records of the chained fixups of an image. -/
theorem emits_imageFixups (mapped : mappings segments = .ok audit.outer) (index : Nat)
    (image : ImageMetadata) (out : KcFixupAudit) :
    Emits (FixupsRecorded audit.source segments out.primaryBase index image) out
      (audit.imageFixups index image out) := by
  unfold imageFixups FixupsRecorded
  generalize image.chainedFixups = chained
  cases chained with
  | none => exact emits_pure rfl rfl rfl
  | some fixups =>
      refine Emits.imp ?_ (emits_issueIf.bind fun out' same => emits_issueIf.bind fun out'' same' =>
        emits_read fun at' at_eq => emits_read fun relative read =>
          emits_read fun starts starts_eq =>
        emits_foldlM (b := out.primaryBase)
          (R := SegmentRecorded audit.source segments out.primaryBase index image fixups)
          (fun info out same => ?_) _ (by exact same'.trans same))
      · rintro _ ⟨_, _, ⟨imports, rfl⟩, ⟨_, _, ⟨symbols, rfl⟩, turns, rfl⟩, rfl⟩
        exact ⟨not_not.mp imports, not_not.mp symbols, turns⟩
      · obtain ⟨_, rfl⟩ := add_eq_ok.mp at_eq
        obtain ⟨_, _, rfl⟩ := wordAt_eq_ok.mp read
        obtain ⟨_, rfl⟩ := addWord_eq_ok.mp starts_eq
        rw [← same]
        exact emits_fixupSegment mapped rfl info out

/-- The records of an image. -/
theorem emits_image (mapped : mappings segments = .ok audit.outer) (entry : ImageMetadata × Nat)
    (out : KcFixupAudit) :
    Emits (ImageRecorded audit.source segments out.primaryBase entry) out
      (audit.image out entry) := by
  refine emits_read fun maps _ => Emits.imp ?_ ((emits_foldlM (b := out.primaryBase)
    (fun c out' _ => emits_classic mapped) (classicRanges entry.2 entry.1) rfl).bind
    (Q := FixupsRecorded audit.source segments out.primaryBase entry.2 entry.1)
    fun out' same => ?_)
  · rintro _ ⟨classic, chained, tables, fixups, rfl⟩
    exact ⟨classic, chained, rfl, tables, fixups⟩
  · rw [← same]
    exact emits_imageFixups mapped entry.2 entry.1 out'

end Image

end Audit

/-! ### A collection with fixups -/

def zeros (n : Nat) : Bytes := List.replicate n 0

/-- The command of `__LINKEDIT`, and of a segment that may be written. -/
def segmentCommand (name : Bytes) (protection address memorySize offset size : Nat) : Bytes :=
  toLeBytes 4 0x19 ++ toLeBytes 4 72 ++ name ++ toLeBytes 8 address ++ toLeBytes 8 memorySize ++
    toLeBytes 8 offset ++ toLeBytes 8 size ++ toLeBytes 4 protection ++ toLeBytes 4 protection ++
    toLeBytes 4 0 ++ toLeBytes 4 0

/-- The load commands of an outer image with so many bytes in its first segment, behind its header:
two segments, an entry, a member, the symbols and the two tables of fixups. -/
def fixupCommands (size linkedit entries : Nat) : Bytes :=
  segmentCommand (zeros 16) 7 4096 (size + 60) 0 size ++
    segmentCommand linkeditName 1 linkedit (8 * entries + 64) size (8 * entries + 64) ++
    (toLeBytes 4 5 ++ toLeBytes 4 184 ++ toLeBytes 4 4 ++ toLeBytes 4 42 ++ zeros 128 ++
      toLeBytes 8 4100 ++ zeros 32) ++
    (toLeBytes 4 0x80000035 ++ toLeBytes 4 40 ++ toLeBytes 8 4616 ++ toLeBytes 8 520 ++
      toLeBytes 4 32 ++ toLeBytes 4 0 ++ ([109, 0, 0, 0, 0, 0, 0, 0] : Bytes)) ++
    (toLeBytes 4 2 ++ toLeBytes 4 24 ++ zeros 16) ++
    (toLeBytes 4 0xb ++ toLeBytes 4 80 ++ zeros 64 ++ toLeBytes 4 size ++ toLeBytes 4 entries) ++
    (toLeBytes 4 0x80000034 ++ toLeBytes 4 16 ++ toLeBytes 4 (size + 8 * entries) ++ toLeBytes 4 64)

/-- The tables of fixups: the entries, and one page with one chain. -/
def fixupTables (entries : List Nat) (start : Nat) : Bytes :=
  entries.flatMap (fun entry => toLeBytes 4 entry ++ toLeBytes 4 (3 <<< 25)) ++
    (toLeBytes 4 0 ++ toLeBytes 4 28 ++ toLeBytes 4 64 ++ toLeBytes 4 64 ++ toLeBytes 4 0 ++
      toLeBytes 4 1 ++ toLeBytes 4 0) ++
    (toLeBytes 4 2 ++ toLeBytes 4 12 ++ toLeBytes 4 0) ++
    (toLeBytes 4 24 ++ toLeBytes 2 4096 ++ toLeBytes 2 11 ++ toLeBytes 8 0 ++ toLeBytes 4 0 ++
      toLeBytes 2 1 ++ toLeBytes 2 start)

/-- A collection of one member and the words behind it, some of them rebased and one in a chain. -/
def fixupCollection (member words : Bytes) (linkedit : Nat) (entries : List Nat) (start : Nat) :
    Bytes :=
  sampleHeader 12 7 488 ++
    fixupCommands (520 + member.length + words.length) linkedit entries.length ++ member ++ words ++
      fixupTables entries start

/-- A collection of one member with a pointer that is rebased and a word of a chain. -/
def sampleFixups : Bytes :=
  fixupCollection (sampleHeader 2 1 72 ++ sampleSegment 4616 120 520 120)
    (toLeBytes 8 5000 ++ toLeBytes 8 0) 8192 [624] 632

/-- A collection of one member with a pointer in each of its two segments, and a chain between
them. -/
def pairFixups : Bytes :=
  fixupCollection
    (sampleHeader 2 2 144 ++ sampleSegment 4616 184 520 184 ++ sampleSegment 4808 8 712 8)
    (toLeBytes 8 5000 ++ toLeBytes 8 0 ++ toLeBytes 8 5008) 8192 [696, 712] 704

end Nextcore.FixupAudit
