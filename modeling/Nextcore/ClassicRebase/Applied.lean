import Nextcore.ClassicRebase.Image
import Nextcore.FixupAudit.Overlaps

/-!
What a rebase changes.

`WordPlanned` is what the plan has checked of a record. The audit places every record in the file
bytes of an outer segment, which the staged arena shows at their addresses; so each word is found
in the arena as it is in the source, and is written with the slide added (`rebase_applies_slide`).
Headers are kept by the plan's own test, chained words because the audit has found no overlap.
-/

namespace Nextcore.ClassicRebase

open Checked Checked.Outcome KernelCollection
open KcStaging (KcStagingPlan Target Shows Planned piece)
open FixupAudit (KcFixupAudit AuditRecord RecordDetail Backed InFile WritesApart
  auditKernelCollection leAt)
open FixupAudit.Audit (isChained)

/-! ### What the plan checks -/

theorem apart_of_overlaps {a alen b blen : Nat} (clear : overlaps a alen b blen = .ok false) :
    Span.Apart ⟨a, alen⟩ ⟨b, blen⟩ := by
  obtain ⟨_, sum, clear⟩ := bind_eq_ok.mp clear
  obtain ⟨_, rfl⟩ := checkedAdd_eq_some.mp (ofOption_eq_ok.mp sum)
  simp only [Span.Apart, Span.stop]
  split at clear
  · obtain ⟨_, sum', clear⟩ := bind_eq_ok.mp clear
    obtain ⟨_, rfl⟩ := checkedAdd_eq_some.mp (ofOption_eq_ok.mp sum')
    have outside := of_decide_eq_false (Outcome.ok.inj clear)
    omega
  · omega

/-- The bytes at an address are apart from the header and the load commands of an image. -/
def HeaderApart (address width : Nat) (image : ImageMetadata) : Prop :=
  Span.Apart ⟨address, width⟩ ⟨image.headerAddress, 32 + image.commandBytes⟩

theorem headerApart_of_clear {address file width : Nat} {image : ImageMetadata}
    (clear : headerClear address file width image = .ok ()) : HeaderApart address width image := by
  obtain ⟨inFile, _, clear⟩ := bind_eq_ok.mp clear
  split at clear
  · cases clear
  · obtain ⟨inMemory, tested, clear⟩ := bind_eq_ok.mp clear
    rw [rejectIf_eq_ok, Bool.not_eq_true] at clear
    subst clear
    exact apart_of_overlaps tested

/-- The bytes that a word is to replace: those of its value less the slide. -/
def Word.before (slide : Nat) (w : Word) : Bytes := toLeBytes w.width (fromLeBytes w.after - slide)

/-- How many bytes a word changes. -/
def Word.changes (slide : Nat) (w : Word) : Nat :=
  differences (w.before slide) (w.after.take w.width)

/-- What the plan has checked of the place and the value of a word. -/
structure WordChecked (source : Bytes) (slide : Nat) (staging : KcStagingPlan)
    (width : Nat) (writeAddress writeFileOffset : Option Nat) (w : Word) : Prop where
  sized : w.width = width
  place : ∃ file, writeAddress = some (staging.minimumVirtualAddress + w.offset) ∧
    writeFileOffset = some file ∧ window source file width = w.before slide
  inside : w.offset + width ≤ staging.arenaSize
  headers : ∀ image ∈ imagesOf staging.inspection,
    HeaderApart (staging.minimumVirtualAddress + w.offset) width image
  value : ∃ old, w.after = toLeBytes 8 (old + slide) ∧ old + slide < 256 ^ width

/-- What the plan has checked of a classic record, and the word it has made of it. -/
structure WordPlanned (source : Bytes) (slide : Nat) (staging : KcStagingPlan) (r : AuditRecord)
    (w : Word) : Prop where
  outer : r.imageIndex = 0
  profile : ∃ displacement exponent stored, r.detail = .classic .localDynamic displacement 0 0
    exponent false false stored
  pointer : r.width = 4 ∨ r.width = 8
  checked : WordChecked source slide staging r.width r.writeAddress r.writeFileOffset w

section Planning

variable {source : Bytes} {slide : Nat} {staging : KcStagingPlan} {kernel : ImageMetadata}
  {progress progress' : Progress}

/-- The words so far with one more, and what it changes. -/
structure Advanced (slide : Nat) (progress progress' : Progress) (words : List Word) : Prop where
  appended : progress'.words = progress.words ++ words
  changed : progress'.verification.changedBytes =
    progress.verification.changedBytes + (words.map (Word.changes slide)).sum

theorem planWord_eq_ok {width : Nat} {writeAddress writeFileOffset stored : Option Nat}
    (pointer : width = 4 ∨ width = 8)
    (planned : planWord source slide staging kernel width writeAddress writeFileOffset stored
      progress = .ok progress') :
    ∃ w, Advanced slide progress progress' [w] ∧
      WordChecked source slide staging width writeAddress writeFileOffset w := by
  simp only [planWord, bind_eq_ok, ofOption_eq_ok, rejectIf_eq_ok, checkedAdd_eq_some,
    checkedSub_eq_some, tryWord_eq_ok, getRange_eq_some, forEach_eq_ok, not_not, not_and,
    Nat.not_lt, pure_eq, ok.injEq] at planned
  obtain ⟨address, rfl, file, rfl, _, _, _, _, _, headers, old, rfl, _, ⟨word, rfl⟩, _, short, _,
    ⟨above, rfl⟩, _, ⟨_, rfl⟩, _, ⟨_, rfl⟩, _, inside, _, ⟨_, rfl⟩, _, ⟨_, rfl⟩, _,
    ⟨_, rfl⟩, _, found, rfl⟩ := planned
  have small : old + slide < 256 ^ width := by
    rcases pointer with rfl | rfl
    · have bound := short rfl
      omega
    · omega
  have narrow : width ≤ 8 := by omega
  rw [Nat.add_sub_cancel_left, take_toLeBytes narrow] at found
  have before_eq : Word.before slide
      ⟨address - staging.minimumVirtualAddress, width, toLeBytes 8 (old + slide)⟩ =
      toLeBytes width old := by
    rw [Word.before]
    dsimp only
    rw [fromLeBytes_toLeBytes (by omega), Nat.add_sub_cancel]
  have address_eq : staging.minimumVirtualAddress + (address - staging.minimumVirtualAddress) =
      address := Nat.add_sub_cancel' above
  refine ⟨⟨address - staging.minimumVirtualAddress, width, toLeBytes 8 (old + slide)⟩, ⟨rfl, ?_⟩,
    rfl, ⟨file, by rw [address_eq], rfl, by rw [before_eq, found]⟩, inside, ?_, old, rfl, small⟩
  · rw [List.map_singleton, List.sum_singleton, Word.changes, before_eq, ← found,
      Nat.add_sub_cancel_left]
  · intro image mem
    rw [address_eq]
    exact headerApart_of_clear (headers image mem)

theorem pointer_of_exponent {exponent width : Nat} (size : exponent = 2 ∨ exponent = 3)
    (sized : width = 2 ^ exponent) : width = 4 ∨ width = 8 := by
  rcases size with rfl | rfl
  · exact .inl sized
  · exact .inr sized

theorem planRecord_eq_ok {r : AuditRecord}
    (planned : planRecord source slide staging kernel progress r = .ok progress') :
    (isChained r.detail = true ∧ progress' = progress) ∨
      (isChained r.detail = false ∧
        ∃ w, Advanced slide progress progress' [w] ∧ WordPlanned source slide staging r w) := by
  unfold planRecord at planned
  split at planned
  · next detail =>
      cases planned
      exact .inl ⟨by rw [detail]; rfl, rfl⟩
  · next table displacement ordinal kind exponent pcRelative external stored detail =>
      obtain ⟨profile, made⟩ := seq_eq_ok.mp planned
      rw [rejectIf_eq_ok] at profile
      push Not at profile
      obtain ⟨outer, rfl, rfl, rfl, plain, inner, size, width, _⟩ := profile
      obtain rfl := Bool.eq_false_of_not_eq_true plain
      obtain rfl := Bool.eq_false_of_not_eq_true inner
      have pointer := pointer_of_exponent size width
      obtain ⟨w, advanced, checked⟩ := planWord_eq_ok pointer made
      exact .inr ⟨by rw [detail]; rfl, w, advanced, outer, ⟨_, _, _, detail⟩, pointer, checked⟩

/-- The classic records of an audit. -/
def classicRecords (records : List AuditRecord) : List AuditRecord :=
  records.filter fun r => isChained r.detail = false

/-- Each classic record gets its word. -/
theorem planRecords_eq_ok {records : List AuditRecord}
    (planned : records.foldlM (planRecord source slide staging kernel) progress = .ok progress') :
    ∃ words, Advanced slide progress progress' words ∧
      List.Forall₂ (WordPlanned source slide staging) (classicRecords records) words := by
  induction records generalizing progress with
  | nil =>
      cases planned
      exact ⟨[], ⟨(List.append_nil _).symm, rfl⟩, .nil⟩
  | cons r rest ih =>
      rw [List.foldlM_cons] at planned
      obtain ⟨mid, now, later⟩ := bind_eq_ok.mp planned
      obtain ⟨words, advanced, each⟩ := ih later
      rcases planRecord_eq_ok now with ⟨chained, rfl⟩ | ⟨classic, w, first, made⟩
      · refine ⟨words, advanced, ?_⟩
        rwa [classicRecords, List.filter_cons_of_neg (by simp [chained])]
      · refine ⟨w :: words, ⟨?_, ?_⟩, ?_⟩
        · rw [advanced.appended, first.appended, List.append_assoc]
          rfl
        · rw [advanced.changed, first.changed, Nat.add_assoc]
          rfl
        · rw [classicRecords, List.filter_cons_of_pos (by simp [classic])]
          exact .cons made each

end Planning

/-! ### The rebased arena -/

section Arena

variable {source : Bytes} {plan : KcClassicRebasePlan}

/-- The staged arena shows a part of the file bytes of a segment where it is linked. -/
theorem shows_inside {page first last : Nat} {staging : KcStagingPlan} (positive : 0 < page)
    (planned : Planned source page first last staging) {s : SegmentMetadata}
    (mem : s ∈ staging.inspection.collection.segments) {address size : Nat} (some' : 0 < size)
    (above : s.address ≤ address) (below : address + size ≤ s.address + s.file.size) :
    staging.minimumVirtualAddress ≤ address ∧
      Shows staging.linkedImage (address - staging.minimumVirtualAddress) source
        (s.file.offset + (address - s.address)) size := by
  have fits := (planned.accepted.collection.each s mem).fileFits
  have covered := (planned.pageSpan positive).covers s mem (by omega)
  have place : s.address - staging.minimumVirtualAddress + (address - s.address) =
      address - staging.minimumVirtualAddress := by omega
  refine ⟨by omega, ?_⟩
  rw [← place]
  exact (planned.shows_segment mem).part (by omega)

/-- The staged arena shows the source where a record writes. -/
theorem shows_of_backed {page first last : Nat} {staging : KcStagingPlan} (positive : 0 < page)
    (planned : Planned source page first last staging) {r : AuditRecord}
    (backed : Backed staging.inspection.collection.segments r) :
    ∃ address file, r.writeAddress = some address ∧ r.writeFileOffset = some file ∧
      staging.minimumVirtualAddress ≤ address ∧
      Shows staging.linkedImage (address - staging.minimumVirtualAddress) source file r.width := by
  obtain ⟨wide, address, file, writes, located, s, mem, above, below, rfl⟩ := backed
  exact ⟨address, _, writes, located, shows_inside positive planned mem wide above below⟩

/-- The staged arena shows the header and the load commands of every image. -/
theorem shows_of_header {page first last : Nat} {staging : KcStagingPlan} (positive : 0 < page)
    (planned : Planned source page first last staging) {image : ImageMetadata}
    (mem : image ∈ imagesOf staging.inspection) :
    staging.minimumVirtualAddress ≤ image.headerAddress ∧
      Shows staging.linkedImage (image.headerAddress - staging.minimumVirtualAddress) source
        image.headerFileOffset (32 + image.commandBytes) := by
  rcases List.mem_cons.mp mem with rfl | inMember
  · obtain ⟨s, s_mem, views⟩ := planned.accepted.collection.header
    obtain ⟨⟨low, high⟩, above, displacement⟩ := views
    simp only [ImageMetadata.header, FileRange.span, Span.stop] at low high displacement
    have place : s.file.offset + (staging.inspection.collection.headerAddress - s.address) =
        staging.inspection.collection.headerFileOffset := by omega
    rw [← place]
    exact shows_inside positive planned s_mem (by omega) above (by omega)
  · obtain ⟨member, member_mem, rfl⟩ := List.mem_map.mp inMember
    refine ⟨(planned.member_above positive member_mem).1, ?_⟩
    have view_mem : KcStaging.headerView staging.minimumVirtualAddress member.image ∈
        staging.memberViews :=
      planned.mem_memberViews.mpr ⟨member, member_mem, List.mem_cons_self⟩
    exact planned.shows_view view_mem

/-- Away from the words the rebased image is the staged one. -/
theorem getElem?_rebasedImage_of_apart (sound : plan.Sound) {i : Nat}
    (outside : ∀ w ∈ plan.words, ¬ (w.offset ≤ i ∧ i < w.offset + w.width)) :
    plan.rebasedImage[i]? = plan.staging.linkedImage[i]? := by
  have fits : ∀ p ∈ plan.words.map Word.piece, p.span.stop ≤ plan.staging.linkedImage.length := by
    rw [KcStaging.KcStagingPlan.length_linkedImage]
    exact sound.words.piece_fits
  refine (getElem?_applied sound.words.apart fits).2 fun p mem inside => ?_
  obtain ⟨w, w_mem, rfl⟩ := List.mem_map.mp mem
  rw [span_wordPiece (sound.words.wide w w_mem).2] at inside
  exact outside w w_mem inside

/-- What the staged arena shows away from the words, the rebased one shows. -/
theorem shows_rebasedImage (sound : plan.Sound) {at' offset size : Nat}
    (shown : Shows plan.staging.linkedImage at' source offset size)
    (apart : ∀ w ∈ plan.words, Span.Apart ⟨w.offset, w.width⟩ ⟨at', size⟩) :
    Shows plan.rebasedImage at' source offset size := by
  intro k inside
  obtain ⟨b, in_source, in_arena⟩ := shown k inside
  refine ⟨b, in_source, ?_⟩
  rw [getElem?_rebasedImage_of_apart sound, in_arena]
  intro w mem
  have clear := apart w mem
  simp only [Span.Apart, Span.stop] at clear
  omega

/-- A word is there as it is to be written. -/
theorem window_rebasedImage (sound : plan.Sound) {w : Word} (mem : w ∈ plan.words) :
    window plan.rebasedImage w.offset w.width = w.after.take w.width := by
  have fits : ∀ p ∈ plan.words.map Word.piece, p.span.stop ≤ plan.staging.linkedImage.length := by
    rw [KcStaging.KcStagingPlan.length_linkedImage]
    exact sound.words.piece_fits
  have there := window_applied sound.words.apart fits (List.mem_map_of_mem mem)
  have length : (w.after.take w.width).length = w.width := by
    rw [List.length_take, Nat.min_eq_left (sound.words.wide w mem).2]
  rwa [Word.piece, length] at there

/-- The words are written one after another, and cannot fail. -/
theorem writeWords_eq {size : Nat} {words : List Word} {bytes : Bytes}
    (laid : WordsLaidOut size words) (length : bytes.length = size) (small : size < 2 ^ 64) :
    words.foldlM writeWord bytes = .ok (applied (words.map Word.piece) bytes) := by
  induction words generalizing bytes with
  | nil => rfl
  | cons w rest ih =>
      have inside := laid.inside w List.mem_cons_self
      have wide := (laid.wide w List.mem_cons_self).2
      have front : window w.after 0 (w.width - 0) = w.piece.bytes := by
        rw [window, List.drop_zero, Nat.sub_zero]
        rfl
      have taken : w.piece.bytes.length = w.width := by
        rw [Word.piece, List.length_take, Nat.min_eq_left wide]
      have written : writeWord bytes w = .ok (overlay bytes w.offset w.piece.bytes) := by
        rw [writeWord, add_of_lt (by omega), bind_ok, index_of_le (Nat.zero_le _) wide, bind_ok,
          front, ← taken]
        exact copyFrom_of_le (by omega)
      rw [List.foldlM_cons, written, bind_ok, ih laid.tail ((length_overlay ..).trans length)]
      rfl

end Arena

/-! ### Plans that were made -/

/-- What is known of a plan that was made: the audit has no issues, and every classic record of it
has a word. -/
structure Made [UnstableSort] (source : Bytes) (slide : Nat) (audit : KcFixupAudit)
    (plan : KcClassicRebasePlan) : Prop where
  staged : KcStagingPlan.new source = .ok plan.staging
  audited : auditKernelCollection source = .ok audit
  clean : audit.rangesValid = true
  fromSource : plan.source = source
  words : ∃ words, words.Perm plan.words ∧
    List.Forall₂ (WordPlanned source slide plan.staging) (classicRecords audit.records) words
  ascending : plan.words.Pairwise fun a b => a.offset + a.width ≤ b.offset
  changed : plan.verification.changedBytes = (plan.words.map (Word.changes slide)).sum

/-- Words that do not run into their successors, sorted, are in order. -/
theorem ascending_of_windows {words : List Word} {u : Unit}
    (apart : forWindows (fun a b : Word => do
      let stop ← add a.offset a.width
      rejectIf (stop > b.offset) ClassicRebaseError.auditIssues) words = .ok u) :
    words.Pairwise fun a b => a.offset + a.width ≤ b.offset := by
  have chain := (forWindows_eq_ok.mp apart).imp fun a b tested => by
    obtain ⟨_, sum, below⟩ := bind_eq_ok.mp tested
    obtain ⟨_, rfl⟩ := add_eq_ok.mp sum
    exact Nat.le_of_not_lt (rejectIf_eq_ok.mp below)
  have : Trans (fun a b : Word => a.offset + a.width ≤ b.offset)
      (fun a b : Word => a.offset + a.width ≤ b.offset)
      (fun a b : Word => a.offset + a.width ≤ b.offset) :=
    ⟨fun {a b c} h h' => h.trans ((Nat.le_add_right b.offset b.width).trans h')⟩
  exact List.isChain_iff_pairwise.mp chain

section Plans

variable [UnstableSort] {source : Bytes} {slide : Nat} {plan : KcClassicRebasePlan}

/-- The tests of a plan before its loop. The slide has no part in them. -/
structure Inputs (source : Bytes) (staging : KcStagingPlan) (kernel : ImageMetadata)
    (audit : KcFixupAudit) : Prop where
  staged : KcStagingPlan.new source = .ok staging
  only : onlyExecutable staging.inspection = .ok kernel
  audited : auditKernelCollection source = .ok audit
  clean : audit.rangesValid = true
  nonempty : audit.summary.classicRecords ≠ 0

/-- There is one set of inputs. -/
theorem Inputs.unique {staging staging' : KcStagingPlan} {kernel kernel' : ImageMetadata}
    {audit audit' : KcFixupAudit} (inputs : Inputs source staging kernel audit)
    (inputs' : Inputs source staging' kernel' audit') :
    staging' = staging ∧ kernel' = kernel ∧ audit' = audit := by
  obtain rfl := Outcome.ok.inj (inputs'.staged.symm.trans inputs.staged)
  exact ⟨rfl, Outcome.ok.inj (inputs'.only.symm.trans inputs.only),
    Outcome.ok.inj (inputs'.audited.symm.trans inputs.audited)⟩

/-- The progress before the first record. -/
def Progress.start (slide : Nat) (staging : KcStagingPlan) (audit : KcFixupAudit) : Progress where
  words := []
  verification :=
    { slide := slide
      arenaBytes := staging.arenaSize
      classicWords := 0
      width4Words := 0
      width8Words := 0
      writeBytesVerified := 0
      nonTargetBytesVerified := 0
      changedBytes := 0
      chainWordsPreserved := audit.summary.chainRecords
      headerRangesPreserved := staging.inspection.members.length + 1 }

/-- The plan is the loop over the records, with tests before and behind it. -/
theorem new_eq_ok : KcClassicRebasePlan.new source slide = .ok plan ↔
    ∃ staging kernel audit progress nonTarget, Inputs source staging kernel audit ∧
      audit.records.foldlM (planRecord source slide staging kernel)
        (.start slide staging audit) = .ok progress ∧
      forWindows (fun a b : Word => do
        let stop ← add a.offset a.width
        rejectIf (stop > b.offset) ClassicRebaseError.auditIssues)
        (UnstableSort.sortByKey (·.offset) progress.words) = .ok () ∧
      checkedSub progress.verification.arenaBytes progress.verification.writeBytesVerified =
        some nonTarget ∧
      plan = ⟨source, staging, UnstableSort.sortByKey (·.offset) progress.words,
        { progress.verification with nonTargetBytesVerified := nonTarget }⟩ := by
  simp only [KcClassicRebasePlan.new, bind_eq_ok, mapErr_eq_ok, ofOption_eq_ok, rejectIf_eq_ok,
    pure_eq, ok.injEq, Bool.not_eq_false]
  constructor
  · rintro ⟨staging, staged, kernel, only, audit, audited, _, clean, _, nonempty, progress,
      planned, _, apart, nonTarget, rest, rfl⟩
    exact ⟨staging, kernel, audit, progress, nonTarget,
      ⟨staged, only, audited, clean, nonempty⟩, planned, apart, rest, rfl⟩
  · rintro ⟨staging, kernel, audit, progress, nonTarget, inputs, planned, apart, rest, rfl⟩
    exact ⟨staging, inputs.staged, kernel, inputs.only, audit, inputs.audited, (), inputs.clean,
      (), inputs.nonempty, progress, planned, (), apart, nonTarget, rest, rfl⟩

theorem made_of_ok (made : KcClassicRebasePlan.new source slide = .ok plan) :
    ∃ audit, Made source slide audit plan := by
  obtain ⟨staging, _, audit, progress, _, inputs, planned, apart, _, rfl⟩ := new_eq_ok.mp made
  obtain ⟨words, advanced, each⟩ := planRecords_eq_ok planned
  have appended := advanced.appended
  rw [Progress.start, List.nil_append] at appended
  have perm : words.Perm (UnstableSort.sortByKey (fun w : Word => w.offset) progress.words) := by
    rw [appended]
    exact (UnstableSort.perm ..).symm
  refine ⟨audit, inputs.staged, inputs.audited, inputs.clean, rfl, ⟨words, perm, each⟩,
    ascending_of_windows apart, ?_⟩
  have changed := advanced.changed
  rw [Progress.start, Nat.zero_add] at changed
  exact changed.trans (perm.map _).sum_nat

theorem planned_of_staged {staging : KcStagingPlan}
    (staged : KcStagingPlan.new source = .ok staging) :
    inspectKernelCollection source = .ok staging.inspection ∧
      ∃ page first last, 0 < page ∧ Planned source page first last staging := by
  obtain ⟨inspected, first, last, planned⟩ :=
    @KcStaging.planned_of_ok _ .x86_64 source staging staged
  exact ⟨inspected, _, first, last, Nat.pos_of_isPowerOfTwo (KcStaging.pageSizeOf_pow .x86_64),
    planned⟩

/-- Every word of a plan is that of a classic record. -/
theorem Made.exists_record {audit : KcFixupAudit} (made : Made source slide audit plan) {w : Word}
    (mem : w ∈ plan.words) : ∃ r ∈ audit.records, isChained r.detail = false ∧
      WordPlanned source slide plan.staging r w := by
  obtain ⟨words, perm, each⟩ := made.words
  obtain ⟨r, r_mem, planned⟩ := exists_of_mem_forall₂ each (perm.mem_iff.mpr mem)
  obtain ⟨in_records, classic⟩ := List.mem_filter.mp r_mem
  exact ⟨r, in_records, of_decide_eq_true classic, planned⟩

/-- Every classic record has a word in the plan. -/
theorem Made.exists_word {audit : KcFixupAudit} (made : Made source slide audit plan)
    {r : AuditRecord} (mem : r ∈ audit.records) (classic : isChained r.detail = false) :
    ∃ w ∈ plan.words, WordPlanned source slide plan.staging r w := by
  obtain ⟨words, perm, each⟩ := made.words
  have in_classic : r ∈ classicRecords audit.records :=
    List.mem_filter.mpr ⟨mem, decide_eq_true classic⟩
  obtain ⟨w, w_mem, planned⟩ := exists_of_mem_forall₂ each.flip in_classic
  exact ⟨w, perm.mem_iff.mp w_mem, planned⟩

theorem Made.sound {audit : KcFixupAudit} (made : Made source slide audit plan) : plan.Sound := by
  obtain ⟨_, page, first, last, _, planned⟩ := planned_of_staged made.staged
  refine ⟨planned.sound, ?_, ?_, ?_, made.ascending⟩
  · rw [planned.layout.fromSource, made.fromSource]
  · intro w mem
    obtain ⟨r, _, _, planned⟩ := made.exists_record mem
    obtain ⟨old, after, _⟩ := planned.checked.value
    rw [after, length_toLeBytes, planned.checked.sized]
    have pointer := planned.pointer
    omega
  · intro w mem
    obtain ⟨r, _, _, planned⟩ := made.exists_record mem
    rw [planned.checked.sized]
    exact planned.checked.inside

/-- The arena and the source of a plan are far below the words of the machine. -/
theorem Made.short {audit : KcFixupAudit} (made : Made source slide audit plan) :
    plan.staging.arenaSize < 2 ^ 63 ∧ plan.source.length < 2 ^ 63 := by
  obtain ⟨_, page, first, last, _, planned⟩ := planned_of_staged made.staged
  constructor
  · rw [planned.layout.arenaSize]
    exact Nat.lt_of_le_of_lt planned.small (by decide)
  · rw [made.fromSource]
    exact Nat.lt_of_le_of_lt planned.accepted.input (by decide)

/-- Verification returns a value for the rebased image of a plan and for no other arena of its size;
everything else is a mismatch. -/
theorem verify_rebased_exact [Target] (made : KcClassicRebasePlan.new source slide = .ok plan)
    {bytes : Bytes} (length : bytes.length = plan.staging.arenaSize) :
    ((∃ verification, plan.verify bytes = .ok verification) ↔ bytes = plan.rebasedImage) ∧
      (bytes = plan.rebasedImage → plan.verify bytes = .ok plan.verification) ∧
      (bytes ≠ plan.rebasedImage → plan.verify bytes = .err .readbackMismatch) := by
  obtain ⟨audit, made⟩ := made_of_ok made
  obtain ⟨arena_short, source_short⟩ := made.short
  have decides := KcClassicRebasePlan.verify_decides made.sound arena_short source_short length
  have accepts : bytes = plan.rebasedImage → plan.verify bytes = .ok plan.verification := by
    intro same
    obtain ⟨_, returned, rfl⟩ := decides.1 same
    exact returned
  refine ⟨⟨?_, fun same => ⟨_, accepts same⟩⟩, accepts, decides.2⟩
  rintro ⟨verification, returned⟩
  by_contra differ
  rw [decides.2 differ] at returned
  cases returned

/-- Application returns the rebased image. -/
theorem apply_eq [Target] {audit : KcFixupAudit} (made : Made source slide audit plan) :
    ∃ verification, plan.apply = .ok ⟨plan, plan.rebasedImage, verification⟩ := by
  have sound := made.sound
  obtain ⟨arena_short, source_short⟩ := made.short
  obtain ⟨verification, staged⟩ := KcStaging.KcStagingPlan.stageInto_eq sound.staging
    (List.length_replicate (n := plan.staging.arenaSize) (a := (0 : UInt8)))
  have written := writeWords_eq sound.words plan.staging.length_linkedImage sound.staging.small
  obtain ⟨_, verified, _⟩ := (KcClassicRebasePlan.verify_decides sound arena_short source_short
    plan.length_rebasedImage).1 rfl
  refine ⟨verification, ?_⟩
  rw [KcClassicRebasePlan.apply, staged]
  dsimp only
  rw [mapErr_eq_ok.mpr rfl, bind_ok, written, bind_ok]
  exact (congrArg (· >>= _) verified).trans rfl

/-- What a rebase does to the word of a classic record: the record is of the outer image's local
table, and where it writes the staged word has the slide added, within its width. -/
structure Slid (slide base : Nat) (staged arena : Bytes) (r : AuditRecord) : Prop where
  outer : r.imageIndex = 0
  profile : ∃ displacement exponent stored, r.detail = .classic .localDynamic displacement 0 0
    exponent false false stored
  pointer : r.width = 4 ∨ r.width = 8
  slid : ∃ address old, r.writeAddress = some address ∧ base ≤ address ∧
    address - base + r.width ≤ staged.length ∧
    window staged (address - base) r.width = toLeBytes r.width old ∧
    old + slide < 256 ^ r.width ∧
    window arena (address - base) r.width = toLeBytes r.width (old + slide)

/-- The staged arena has at a word what the word is to replace. -/
theorem Made.window_linkedImage {audit : KcFixupAudit} (made : Made source slide audit plan)
    (backed : ∀ r ∈ audit.records, Backed plan.staging.inspection.collection.segments r) {w : Word}
    (mem : w ∈ plan.words) :
    window plan.staging.linkedImage w.offset w.width = w.before slide := by
  obtain ⟨_, page, first, last, positive, planned⟩ := planned_of_staged made.staged
  obtain ⟨r, r_mem, _, word⟩ := made.exists_record mem
  obtain ⟨address, file, writes, located, _, shown⟩ :=
    shows_of_backed positive planned (backed r r_mem)
  obtain ⟨file', writes', located', found⟩ := word.checked.place
  rw [writes] at writes'
  cases writes'
  rw [located] at located'
  cases located'
  have same : window plan.staging.linkedImage
      (plan.staging.minimumVirtualAddress + w.offset - plan.staging.minimumVirtualAddress + 0)
      r.width = window source (file + 0) r.width :=
    shown.window_eq (Nat.le_of_eq (Nat.zero_add _))
  rw [word.checked.sized, ← found]
  simpa only [Nat.add_sub_cancel_left, Nat.add_zero] using same

/-- What a record that is no classic one writes to is apart from every word. -/
theorem Made.apart_of_chained {audit : KcFixupAudit} (made : Made source slide audit plan)
    (apart : audit.records.Pairwise WritesApart) {r : AuditRecord} (mem : r ∈ audit.records)
    (chained : isChained r.detail = true) {address : Nat} (writes : r.writeAddress = some address)
    (above : plan.staging.minimumVirtualAddress ≤ address) :
    ∀ w ∈ plan.words, Span.Apart ⟨w.offset, w.width⟩
      ⟨address - plan.staging.minimumVirtualAddress, r.width⟩ := by
  intro w w_mem
  obtain ⟨c, c_mem, classic, word⟩ := made.exists_record w_mem
  have differ : c ≠ r := by
    rintro rfl
    rw [classic] at chained
    cases chained
  have : Std.Symm WritesApart := ⟨fun a b known x hx y hy => (known y hy x hx).symm⟩
  have clear := apart.forall c_mem mem differ
  obtain ⟨file, writes', _⟩ := word.checked.place
  have spans := clear _ writes' address writes
  rw [word.checked.sized]
  simp only [Span.Apart, Span.stop] at spans ⊢
  omega

/-- A rebase applies exactly the slide: every plan can be applied, and the arena it leaves is the
staged one with the slide added to the word of every classic record. Headers, load commands and
chained words are as in the source, and the plan has counted the bytes that differ. -/
theorem rebase_applies_slide [Target] (made : KcClassicRebasePlan.new source slide = .ok plan) :
    ∃ audit rebased, auditKernelCollection source = .ok audit ∧
      KcStagingPlan.new source = .ok plan.staging ∧
      plan.apply = .ok rebased ∧ rebased.plan = plan ∧
      ∀ prior : Bytes, prior.length = plan.staging.arenaSize →
        let staged := (plan.staging.stageInto prior).2
        let base := plan.staging.minimumVirtualAddress
        rebased.bytes.length = staged.length ∧
        (∀ r ∈ classicRecords audit.records, Slid slide base staged rebased.bytes r) ∧
        (classicRecords audit.records).Pairwise WritesApart ∧
        (∀ i, (∀ r ∈ classicRecords audit.records, ∀ address ∈ r.writeAddress,
            ¬ (address - base ≤ i ∧ i < address - base + r.width)) →
          rebased.bytes[i]? = staged[i]?) ∧
        (∀ image ∈ imagesOf plan.staging.inspection, base ≤ image.headerAddress ∧
          Shows rebased.bytes (image.headerAddress - base) source image.headerFileOffset
            (32 + image.commandBytes)) ∧
        (∀ r ∈ audit.records, isChained r.detail = true → ∃ address file,
          r.writeAddress = some address ∧ r.writeFileOffset = some file ∧ base ≤ address ∧
            Shows rebased.bytes (address - base) source file r.width) ∧
        rebased.plan.verification.changedBytes = differences staged rebased.bytes := by
  obtain ⟨audit, made⟩ := made_of_ok made
  have sound := made.sound
  obtain ⟨verification, applied_eq⟩ := apply_eq made
  obtain ⟨inspected, page, first, last, positive, planned⟩ := planned_of_staged made.staged
  obtain ⟨inspection, inspected', _, _, backed, apart⟩ :=
    FixupAudit.verdict_of_limits made.audited made.clean
  rw [inspected] at inspected'
  cases inspected'
  refine ⟨audit, _, made.audited, made.staged, applied_eq, rfl, fun prior length => ?_⟩
  obtain ⟨_, staged⟩ := KcStaging.KcStagingPlan.stageInto_eq sound.staging length
  rw [staged]
  dsimp only
  refine ⟨?_, ?_, ?_, ?_, ?_, ?_, ?_⟩
  · rw [plan.length_rebasedImage, plan.staging.length_linkedImage]
  · intro r mem
    obtain ⟨in_records, classic⟩ := List.mem_filter.mp mem
    obtain ⟨w, w_mem, word⟩ := made.exists_word in_records (of_decide_eq_true classic)
    have before := made.window_linkedImage backed w_mem
    have after := window_rebasedImage sound w_mem
    obtain ⟨_, writes, _⟩ := word.checked.place
    obtain ⟨old, after_eq, small⟩ := word.checked.value
    have pointer := word.pointer
    have narrow : r.width ≤ 8 := by omega
    have word_small : old + slide < 256 ^ 8 :=
      small.trans_le (Nat.pow_le_pow_right (by decide) narrow)
    rw [Word.before, word.checked.sized, after_eq, fromLeBytes_toLeBytes word_small,
      Nat.add_sub_cancel] at before
    rw [word.checked.sized, after_eq, take_toLeBytes narrow] at after
    refine ⟨word.outer, word.profile, pointer, _, old, writes, Nat.le_add_right _ _, ?_, ?_, small,
      ?_⟩
    · rw [Nat.add_sub_cancel_left, plan.staging.length_linkedImage]
      exact word.checked.inside
    · rw [Nat.add_sub_cancel_left]
      exact before
    · rw [Nat.add_sub_cancel_left]
      exact after
  · exact apart.filter _
  · intro i outside
    refine getElem?_rebasedImage_of_apart sound fun w w_mem => ?_
    obtain ⟨r, r_mem, classic, word⟩ := made.exists_record w_mem
    obtain ⟨_, writes, _⟩ := word.checked.place
    have clear := outside r (List.mem_filter.mpr ⟨r_mem, decide_eq_true classic⟩) _ writes
    rwa [Nat.add_sub_cancel_left, ← word.checked.sized] at clear
  · intro image mem
    obtain ⟨above, shown⟩ := shows_of_header positive planned mem
    refine ⟨above, shows_rebasedImage sound shown fun w w_mem => ?_⟩
    obtain ⟨r, _, _, word⟩ := made.exists_record w_mem
    have clear := word.checked.headers image mem
    rw [word.checked.sized]
    simp only [HeaderApart, Span.Apart, Span.stop] at clear ⊢
    omega
  · intro r mem chained
    obtain ⟨address, file, writes, located, above, shown⟩ :=
      shows_of_backed positive planned (backed r mem)
    refine ⟨address, file, writes, located, above, shows_rebasedImage sound shown ?_⟩
    exact made.apart_of_chained apart mem chained writes above
  · have fits : ∀ p ∈ plan.words.map Word.piece,
        p.span.stop ≤ plan.staging.linkedImage.length := by
      rw [plan.staging.length_linkedImage]
      exact sound.words.piece_fits
    rw [made.changed, KcClassicRebasePlan.rebasedImage,
      differences_applied sound.words.apart fits, List.map_map]
    refine congrArg List.sum (List.map_congr_left fun w w_mem => ?_)
    have length : (w.after.take w.width).length = w.width := by
      rw [List.length_take, Nat.min_eq_left (sound.words.wide w w_mem).2]
    rw [Function.comp_apply, Word.piece, length, made.window_linkedImage backed w_mem, Word.changes]

end Plans

/-! ### A rebased collection -/

theorem exists_samplePlan : ∃ plan,
    @KcClassicRebasePlan.new UnstableSort.insertion FixupAudit.pairFixups 16 = .ok plan ∧
      plan.words.length = 2 := by
  obtain ⟨plan, made, two⟩ := isOkAnd_iff.mp
    (show (@KcClassicRebasePlan.new UnstableSort.insertion FixupAudit.pairFixups 16).isOkAnd
        (fun plan => plan.words.length = 2) = true by decide +kernel)
  exact ⟨plan, made, of_decide_eq_true two⟩

theorem verify_rebased_exact_sample : ∃ plan,
    @KcClassicRebasePlan.new UnstableSort.insertion FixupAudit.pairFixups 16 = .ok plan ∧
      @KcClassicRebasePlan.verify Target.aligned plan plan.rebasedImage =
        .ok plan.verification := by
  obtain ⟨plan, made, _⟩ := exists_samplePlan
  have exact := @verify_rebased_exact UnstableSort.insertion _ _ plan Target.aligned made
    plan.rebasedImage plan.length_rebasedImage
  exact ⟨plan, made, exact.2.1 rfl⟩

theorem rebase_applies_slide_sample : ∃ plan rebased,
    @KcClassicRebasePlan.new UnstableSort.insertion FixupAudit.pairFixups 16 = .ok plan ∧
      plan.words.length = 2 ∧ @KcClassicRebasePlan.apply Target.aligned plan = .ok rebased ∧
      plan.verification.changedBytes = differences
        (@KcStagingPlan.stageInto Target.aligned plan.staging
          (List.replicate plan.staging.arenaSize 0)).2 rebased.bytes := by
  obtain ⟨plan, made, two⟩ := exists_samplePlan
  obtain ⟨_, rebased, _, _, applied_eq, rfl, all⟩ :=
    @rebase_applies_slide UnstableSort.insertion _ _ plan Target.aligned made
  obtain ⟨_, _, _, _, _, _, changed⟩ := all _ List.length_replicate
  exact ⟨_, rebased, made, two, applied_eq, changed⟩

end Nextcore.ClassicRebase
