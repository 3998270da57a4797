import Nextcore.FixupAudit.Sweep

/-!
The counters of an audit.

`Tally` is the invariant of the loops over images, segments, pages and words: the counters of the
records and of the chains agree with what has been appended, but for the chains that are being
walked. The pass over the ordered records counts the issues at the end.
-/

namespace Nextcore.FixupAudit

open Checked Checked.Outcome KernelCollection

/-! ### Counters -/

@[simp] theorem length_bump (counts : List Nat) (at' : Nat) :
    (bump counts at').length = counts.length :=
  List.length_modify ..

theorem sum_bump {counts : List Nat} {at' : Nat} (inside : at' < counts.length) :
    (bump counts at').sum = counts.sum + 1 := by
  induction counts generalizing at' with
  | nil => cases inside
  | cons first rest ih =>
      cases at' with
      | zero =>
          rw [bump, List.modify_zero_cons, List.sum_cons, List.sum_cons]
          omega
      | succ at' =>
          have next := ih (Nat.lt_of_succ_lt_succ inside)
          rw [bump] at next
          rw [bump, List.modify_succ_cons, List.sum_cons, List.sum_cons, next]
          omega

/-- What the counters of the records count. -/
structure Counts (s : AuditSummary) (records : List AuditRecord) : Prop where
  classic : s.classicRecords = records.countP fun r => ! Audit.isChained r.detail
  chained : s.chainRecords = records.countP fun r => Audit.isChained r.detail
  types_length : s.classicTypes.length = 16
  types : s.classicTypes.sum = s.classicRecords
  widths_length : s.classicWidthExponents.length = 4
  widths : s.classicWidthExponents.sum = s.classicRecords
  levels_length : s.chainCacheLevels.length = 4
  levels : s.chainCacheLevels.sum = s.chainRecords
  backed : s.fileBackedWriteRecords = records.countP (·.writeFileOffset.isSome)
  members : s.executableMemberWriteRecords + s.kextMemberWriteRecords +
    s.bothMemberWriteRecords + s.outerOnlyWriteRecords = records.length

theorem counts_zero : Counts .zero [] :=
  { classic := rfl, chained := rfl, types_length := rfl, types := rfl, widths_length := rfl
    widths := rfl, levels_length := rfl, levels := rfl, backed := rfl, members := rfl }

/-- What `record` counts, besides the kinds of records. -/
theorem countRecord_counts (s : AuditSummary) (r : AuditRecord) :
    (s.countRecord r).fileBackedWriteRecords =
        s.fileBackedWriteRecords + ofFlag r.writeFileOffset.isSome ∧
      (s.countRecord r).executableMemberWriteRecords + (s.countRecord r).kextMemberWriteRecords +
          (s.countRecord r).bothMemberWriteRecords + (s.countRecord r).outerOnlyWriteRecords =
        s.executableMemberWriteRecords + s.kextMemberWriteRecords + s.bothMemberWriteRecords +
          s.outerOnlyWriteRecords + 1 := by
  unfold AuditSummary.countRecord AuditSummary.countOverlap
  cases r.memberOverlap <;> exact ⟨rfl, by dsimp only; omega⟩

/-- The counters that `record` leaves alone. -/
theorem countRecord_kept (s : AuditSummary) (r : AuditRecord) :
    (s.countRecord r).classicRecords = s.classicRecords ∧
      (s.countRecord r).chainRecords = s.chainRecords ∧
      (s.countRecord r).classicTypes = s.classicTypes ∧
      (s.countRecord r).classicWidthExponents = s.classicWidthExponents ∧
      (s.countRecord r).chainCacheLevels = s.chainCacheLevels ∧
      (s.countRecord r).chainStarts = s.chainStarts ∧
      (s.countRecord r).chainsTerminated = s.chainsTerminated ∧
      (s.countRecord r).pageStartsVisited = s.pageStartsVisited ∧
      (s.countRecord r).issueCounts = s.issueCounts := by
  unfold AuditSummary.countRecord AuditSummary.countOverlap
  cases r.memberOverlap <;> exact ⟨rfl, rfl, rfl, rfl, rfl, rfl, rfl, rfl, rfl⟩

theorem countP_append_singleton (p : AuditRecord → Bool) (records : List AuditRecord)
    (r : AuditRecord) : (records ++ [r]).countP p = records.countP p + ofFlag (p r) := by
  rw [List.countP_append, List.countP_singleton, ofFlag]

section Counts

variable {s : AuditSummary} {records : List AuditRecord} {r : AuditRecord}

/-- A classic record. -/
theorem Counts.classic_record (counts : Counts s records) (kind : Audit.isChained r.detail = false)
    {displacement : Int} {info : Nat} (small : info < 2 ^ 32) :
    Counts (Audit.countClassic displacement info (s.countRecord r)) (records ++ [r]) := by
  obtain ⟨backed, members⟩ := countRecord_counts s r
  obtain ⟨classic, chained, types, widths, levels, _⟩ := countRecord_kept s r
  have type_inside : info >>> 28 < (s.countRecord r).classicTypes.length := by
    rw [types, counts.types_length, Nat.shiftRight_eq_div_pow]
    omega
  have width_inside : Audit.classicLength info <
      (s.countRecord r).classicWidthExponents.length := by
    have short : Audit.classicLength info ≤ 3 := Nat.and_le_right
    rw [widths, counts.widths_length]
    omega
  constructor
  · rw [countP_append_singleton, kind, ← counts.classic, ← classic]
    rfl
  · rw [countP_append_singleton, kind, ← counts.chained, ← chained]
    rfl
  · exact (length_bump _ _).trans ((congrArg List.length types).trans counts.types_length)
  · exact (sum_bump type_inside).trans (by rw [types, counts.types, ← classic]; rfl)
  · exact (length_bump _ _).trans ((congrArg List.length widths).trans counts.widths_length)
  · exact (sum_bump width_inside).trans (by rw [widths, counts.widths, ← classic]; rfl)
  · exact (congrArg List.length levels).trans counts.levels_length
  · exact (congrArg List.sum levels).trans (counts.levels.trans chained.symm)
  · rw [countP_append_singleton, ← counts.backed]
    exact backed
  · rw [List.length_append, ← counts.members]
    exact members

/-- A chained record. -/
theorem Counts.chained_record (counts : Counts s records) (kind : Audit.isChained r.detail = true)
    {c : ChainStart} {inPage word : Nat} {covered : Bool} :
    Counts (Audit.countChain c inPage word covered (s.countRecord r)) (records ++ [r]) := by
  obtain ⟨backed, members⟩ := countRecord_counts s r
  obtain ⟨classic, chained, types, widths, levels, _⟩ := countRecord_kept s r
  have level_inside : Audit.cacheLevel word < (s.countRecord r).chainCacheLevels.length := by
    have short : Audit.cacheLevel word ≤ 3 := Nat.and_le_right
    rw [levels, counts.levels_length]
    omega
  constructor
  · rw [countP_append_singleton, kind, ← counts.classic, ← classic]
    rfl
  · rw [countP_append_singleton, kind, ← counts.chained, ← chained]
    rfl
  · exact (congrArg List.length types).trans counts.types_length
  · exact (congrArg List.sum types).trans (counts.types.trans classic.symm)
  · exact (congrArg List.length widths).trans counts.widths_length
  · exact (congrArg List.sum widths).trans (counts.widths.trans classic.symm)
  · exact (length_bump _ _).trans ((congrArg List.length levels).trans counts.levels_length)
  · exact (sum_bump level_inside).trans (by rw [levels, counts.levels, ← chained]; rfl)
  · rw [countP_append_singleton, ← counts.backed]
    exact backed
  · rw [List.length_append, ← counts.members]
    exact members

end Counts

/-! ### The invariant -/

/-- How many issues have a code. -/
def issueCount (issues : List AuditIssue) (code : IssueCode) : Nat :=
  issues.countP fun s => s.code = code

/-- Where chains have ended: at words without a link, and at places without a word. -/
def endings (out : KcFixupAudit) : Nat :=
  out.summary.chainsTerminated + issueCount out.issues .chainOutsidePage +
    issueCount out.issues .chainOutsideFileMapping

/-- The codes of the pass over the ordered records. -/
def passCodes : List IssueCode :=
  [.duplicateChainVisit, .sameMechanismWriteOverlap, .crossMechanismWriteOverlap]

/-- The codes at which a chain ends. -/
def endCodes : List IssueCode := [.chainOutsidePage, .chainOutsideFileMapping]

theorem endCodes_not_pass : ∀ code ∈ endCodes, code ∉ passCodes := by decide

/-- The counters agree with what has been appended, while `running` chains are being walked. -/
structure Tally (running : Nat) (out : KcFixupAudit) : Prop where
  counts : Counts out.summary out.records
  widths : ∀ r ∈ out.records, r.width ∈ [1, 2, 4, 8]
  codes : ∀ s ∈ out.issues, s.code ∉ passCodes
  uncounted : out.summary.issueCounts = []
  starts : out.summary.chainStarts = endings out + running

theorem tally_zero (primaryBase : Nat) : Tally 0 ⟨.zero, [], [], primaryBase⟩ where
  counts := counts_zero
  widths := fun _ mem => absurd mem List.not_mem_nil
  codes := fun _ mem => absurd mem List.not_mem_nil
  uncounted := rfl
  starts := rfl

theorem issueCount_append (issues : List AuditIssue) (s : AuditIssue) (code : IssueCode) :
    issueCount (issues ++ [s]) code = issueCount issues code + ofFlag (s.code = code) := by
  rw [issueCount, List.countP_append, List.countP_singleton]
  rfl

/-- One more record, with the counters of its kind. -/
theorem Tally.record {running : Nat} {out : KcFixupAudit} (tally : Tally running out)
    {r : AuditRecord} {s : AuditSummary} (counts : Counts s (out.records ++ [r]))
    (width : r.width ∈ [1, 2, 4, 8]) (uncounted : s.issueCounts = out.summary.issueCounts)
    (terminated : s.chainsTerminated = out.summary.chainsTerminated)
    (starts : s.chainStarts = out.summary.chainStarts) :
    Tally running { out with records := out.records ++ [r], summary := s } where
  counts := counts
  widths := by
    intro r' mem
    rcases List.mem_append.mp mem with before | now
    · exact tally.widths r' before
    · rwa [List.mem_singleton.mp now]
  codes := tally.codes
  uncounted := uncounted.trans tally.uncounted
  starts := by
    have known := tally.starts
    rw [endings] at known ⊢
    dsimp only
    rw [starts, terminated, known]

/-- Counters that are no part of the invariant. -/
theorem Tally.of_eq {running : Nat} {out out' : KcFixupAudit} (tally : Tally running out)
    (counts : Counts out'.summary out'.records) (records : out'.records = out.records)
    (issues : out'.issues = out.issues)
    (uncounted : out'.summary.issueCounts = out.summary.issueCounts)
    (terminated : out'.summary.chainsTerminated = out.summary.chainsTerminated)
    (starts : out'.summary.chainStarts = out.summary.chainStarts) : Tally running out' where
  counts := counts
  widths := records ▸ tally.widths
  codes := issues ▸ tally.codes
  uncounted := uncounted.trans tally.uncounted
  starts := by
    rw [starts, tally.starts, endings, endings, terminated, issues]

namespace Audit

section Parts

variable {audit : Audit} {out : KcFixupAudit} {running image : Nat} {code : IssueCode}
  {record related : Option Nat}

theorem tally_issue (tally : Tally running out) (plain : code ∉ passCodes ++ endCodes) :
    Ensures (Tally running) (audit.issue code image record related out) := by
  intro out' raised
  rw [of_issue_eq_ok raised]
  obtain ⟨not_pass, not_end⟩ := not_or.mp (fun either => plain (List.mem_append.mpr either))
  have not_page : code ≠ .chainOutsidePage := by
    rintro rfl
    exact not_end (by decide)
  have not_file : code ≠ .chainOutsideFileMapping := by
    rintro rfl
    exact not_end (by decide)
  refine ⟨tally.counts, tally.widths, fun s mem => ?_, tally.uncounted, ?_⟩
  · rcases List.mem_append.mp mem with before | now
    · exact tally.codes s before
    · rw [List.mem_singleton.mp now]
      exact not_pass
  · rw [endings, issueCount_append, issueCount_append]
    simp only [not_page, not_file, ofFlag, decide_false, Bool.false_eq_true, if_false, Nat.add_zero]
    exact tally.starts

/-- An issue at which a chain ends. -/
theorem tally_issue_end (tally : Tally (running + 1) out) (ends : code ∈ endCodes) :
    Ensures (Tally running) (audit.issue code image record related out) := by
  intro out' raised
  rw [of_issue_eq_ok raised]
  have starts := tally.starts
  rw [endings] at starts
  refine ⟨tally.counts, tally.widths, fun s mem => ?_, tally.uncounted, ?_⟩
  · rcases List.mem_append.mp mem with before | now
    · exact tally.codes s before
    · rw [List.mem_singleton.mp now]
      exact endCodes_not_pass code ends
  · rw [endings, issueCount_append, issueCount_append]
    rcases List.mem_cons.mp ends with rfl | ends
    · simp only [ofFlag, decide_true, if_true, reduceCtorEq, decide_false, Bool.false_eq_true,
        if_false]
      omega
    · rw [List.mem_singleton.mp ends]
      simp only [ofFlag, decide_true, if_true, reduceCtorEq, decide_false, Bool.false_eq_true,
        if_false]
      omega

theorem tally_issues {codes : List IssueCode} (tally : Tally running out)
    (plain : ∀ code ∈ codes, code ∉ passCodes ++ endCodes) :
    Ensures (Tally running)
      (codes.foldlM (fun out code => audit.issue code image record related out) out) :=
  ensures_foldlM tally fun _ tally code mem => tally_issue tally (plain code mem)

theorem tally_issueIf {p : Prop} [Decidable p] (tally : Tally running out)
    (plain : code ∉ passCodes ++ endCodes) :
    Ensures (Tally running) (audit.issueIf p code image out) := by
  unfold issueIf
  split
  · exact tally_issue tally plain
  · exact ensures_ok tally

theorem tally_pageStart (tally : Tally running out) :
    Ensures (Tally running) (audit.pageStart out) :=
  ensures_bind fun _ _ => ensures_ok
    (tally.of_eq { tally.counts with } rfl rfl rfl rfl rfl)

theorem of_record_eq_ok {r : AuditRecord} {done : Nat × KcFixupAudit}
    (recorded : audit.record r out = .ok done) : done = (out.records.length, { out with
      records := out.records ++ [r], summary := out.summary.countRecord r }) := by
  simp only [Audit.record, pushBounded, bind_assoc, bind_eq_ok, pure_eq, bind_ok,
    ok.injEq] at recorded
  obtain ⟨_, _, rfl⟩ := recorded
  rfl

end Parts

/-! ### Classic entries -/

theorem mem_codeIf {p : Prop} [Decidable p] {code code' : IssueCode} (mem : code ∈ codeIf p code') :
    code = code' := by
  unfold codeIf at mem
  split at mem
  · exact List.mem_singleton.mp mem
  · cases mem

theorem classicCodes_plain {audit : Audit} {maps : List Mapping} {c : ClassicRange}
    {displacement : Int} {info : Nat} :
    ∀ code ∈ audit.classicCodes maps c displacement info, code ∉ passCodes ++ endCodes := by
  intro code mem
  simp only [classicCodes, List.mem_append] at mem
  have base : ∀ p q : Prop, [Decidable p] → [Decidable q] →
      code ∈ (if p then [IssueCode.missingClassicBase] else codeIf q .writeAddressOverflow) →
        code ∉ passCodes ++ endCodes := by
    intro p q _ _ mem
    split at mem
    · rw [List.mem_singleton.mp mem]
      decide
    · rw [mem_codeIf mem]
      decide
  rcases mem with ((((((mem | mem) | mem) | mem) | mem) | mem) | mem) | mem
  case inl.inl.inl.inr => exact base _ _ mem
  all_goals
    rw [mem_codeIf mem]
    decide

theorem two_pow_classicLength_mem (info : Nat) : 2 ^ classicLength info ∈ [1, 2, 4, 8] := by
  have short : classicLength info < 4 := Nat.lt_succ_of_le Nat.and_le_right
  have each : ∀ k < 4, 2 ^ k ∈ [1, 2, 4, 8] := by decide
  exact each _ short

theorem tally_classicEntry {audit : Audit} {maps : List Mapping} {c : ClassicRange}
    {out : KcFixupAudit} {at' : Nat} (tally : Tally 0 out) :
    Ensures (Tally 0) (audit.classicEntry maps c out at') := by
  refine ensures_bind fun offset _ => ensures_bind fun word _ => ensures_bind fun infoOffset _ =>
    ensures_bind fun info read => ensures_bind fun stored _ => ensures_bind fun done recorded => ?_
  obtain ⟨_, inside, rfl⟩ := wordAt_eq_ok.mp read
  rw [of_record_eq_ok recorded]
  have small : leAt audit.source infoOffset 4 < 2 ^ 32 := leAt_lt inside
  obtain ⟨_, _, _, _, _, starts, terminated, _, uncounted⟩ := countRecord_kept out.summary
    (audit.classicRecord maps c offset (asI32 word) (leAt audit.source infoOffset 4) stored)
  refine tally_issues (tally.record ?_ ?_ uncounted terminated starts) classicCodes_plain
  · exact tally.counts.classic_record rfl small
  · exact two_pow_classicLength_mem _

theorem tally_classic {audit : Audit} {maps : List Mapping} {c : ClassicRange} {out : KcFixupAudit}
    (tally : Tally 0 out) : Ensures (Tally 0) (audit.classic maps out c) :=
  ensures_foldlM tally fun _ tally _ _ => tally_classicEntry tally

/-! ### Chained words -/

theorem chainCodes_plain {audit : Audit} {primaryBase word : Nat} :
    ∀ code ∈ audit.chainCodes primaryBase word, code ∉ passCodes ++ endCodes := by
  intro code mem
  rcases List.mem_append.mp mem with mem | mem
  · split at mem
    · rw [List.mem_singleton.mp mem]
      decide
    split at mem
    · rw [List.mem_singleton.mp mem]
      decide
    · rw [mem_codeIf mem]
      decide
  · rw [mem_codeIf mem]
    decide

section Chain

variable {audit : Audit} {c : ChainStart} {pageOffset inPage address file : Nat}
  {out : KcFixupAudit}

theorem tally_chainWord {running : Nat} (tally : Tally running out) :
    Ensures (fun done => Tally running done.2) (audit.chainWord c inPage address file out) := by
  refine ensures_bind fun word _ => ensures_bind fun done recorded => ?_
  rw [of_record_eq_ok recorded]
  obtain ⟨_, _, _, _, _, starts, terminated, _, uncounted⟩ := countRecord_kept out.summary
    (audit.chainRecord c out.primaryBase address file word)
  have recorded : Tally running { out with
      records := out.records ++ [audit.chainRecord c out.primaryBase address file word]
      summary := countChain c inPage word (audit.targetCovered out.primaryBase word)
        (out.summary.countRecord (audit.chainRecord c out.primaryBase address file word)) } :=
    tally.record (tally.counts.chained_record rfl) (show 8 ∈ [1, 2, 4, 8] by decide) uncounted
      terminated starts
  exact (tally_issues recorded chainCodes_plain).bind fun out' tally' => ensures_ok tally'

/-- A round at which the chain ends, or goes on. -/
theorem tally_chainStep (tally : Tally 1 out) :
    Ensures (fun done => Tally (if done.1 = 0 then 0 else 1) done.2)
      (audit.chainStep c pageOffset inPage out) := by
  refine ensures_bind fun location _ => ?_
  match location with
  | none => exact (tally_issue_end tally (by decide)).bind fun out' tally' => ensures_ok tally'
  | some (address, file) =>
      refine (tally_chainWord tally).bind fun done tally' => ensures_ok ?_
      have starts := tally'.starts
      refine ⟨{ tally'.counts with }, tally'.widths, tally'.codes, tally'.uncounted, ?_⟩
      rw [endings] at starts ⊢
      dsimp only
      by_cases last : done.1 = 0
      · simp only [last, ofFlag, decide_true, if_true]
        omega
      · simp only [last, ofFlag, decide_false, Bool.false_eq_true, if_false]
        omega

theorem tally_chainFrom (tally : Tally 1 out) :
    Ensures (Tally 0) (audit.chainFrom c pageOffset inPage out) := by
  induction gap : c.pageSize - inPage using Nat.strongRecOn generalizing inPage out with
  | ind gap ih =>
      subst gap
      rw [chainFrom]
      split
      · exact tally_issue_end tally (by decide)
      next inside =>
      refine (tally_chainStep tally).bind fun done tally' => ?_
      obtain ⟨next, out'⟩ := done
      dsimp only at tally' ⊢
      split
      · next last =>
          rw [if_pos last] at tally'
          exact ensures_ok tally'
      next linked =>
      rw [if_neg linked] at tally'
      split
      · exact ensures_err
      next inPage' stride =>
      obtain ⟨_, rfl⟩ := checkedAdd_eq_some.mp stride
      exact ih _ (by omega) tally' rfl

theorem tally_chain (tally : Tally 0 out) : Ensures (Tally 0) (audit.chain c out) := by
  refine ensures_bind fun pageOffset _ => tally_chainFrom ?_
  refine ⟨{ tally.counts with }, tally.widths, tally.codes, tally.uncounted, ?_⟩
  have starts := tally.starts
  rw [endings] at starts ⊢
  dsimp only
  omega

end Chain

/-! ### Images -/

section Image

variable {audit : Audit} {out : KcFixupAudit}

theorem tally_walkStarts {table : StartTable} {page at' : Nat} (tally : Tally 0 out) :
    Ensures (Tally 0) (audit.walkStarts table page at' out) := by
  induction gap : table.infoEnd - at' using Nat.strongRecOn generalizing at' out with
  | ind gap ih =>
      subst gap
      rw [walkStarts]
      refine (tally_pageStart tally).bind fun out' tally' => ?_
      split
      · exact ensures_err
      next stop room =>
      split
      · exact ensures_err
      next inside =>
      obtain ⟨_, rfl⟩ := checkedAdd_eq_some.mp room
      refine ensures_bind fun start _ => (tally_chain tally').bind fun out'' tally'' => ?_
      split
      · exact ensures_ok tally''
      · exact ih _ (by omega) tally'' rfl

theorem tally_fixupPage {table : StartTable} {page : Nat} (tally : Tally 0 out) :
    Ensures (Tally 0) (audit.fixupPage table out page) := by
  refine (tally_pageStart tally).bind fun out' tally' => ensures_bind fun entry _ =>
    ensures_bind fun first _ => ?_
  split
  · exact ensures_ok tally'
  split
  · exact tally_chain tally'
  · have counted : Tally 0 { out' with summary := { out'.summary with
        multiStartPages := out'.summary.multiStartPages + 1 } } :=
      tally'.of_eq { tally'.counts with } rfl rfl rfl rfl rfl
    exact (tally_issue counted (by decide)).bind fun out'' tally'' =>
      ensures_bind fun at' _ => tally_walkStarts tally''

theorem tally_fixupSegment {index starts : Nat} {image : ImageMetadata}
    {info : FixupSegmentMetadata} (tally : Tally 0 out) :
    Ensures (Tally 0) (audit.fixupSegment index image starts out info) := by
  unfold fixupSegment
  split
  · exact tally_issue tally (by decide)
  · exact ensures_bind fun _ _ => ensures_bind fun _ _ => ensures_bind fun _ _ =>
      ensures_bind fun _ _ => ensures_bind fun _ _ => ensures_bind fun _ _ =>
      ensures_bind fun _ _ => ensures_foldlM tally fun _ tally' _ _ => tally_fixupPage tally'

theorem tally_imageFixups {index : Nat} {image : ImageMetadata} (tally : Tally 0 out) :
    Ensures (Tally 0) (audit.imageFixups index image out) := by
  unfold imageFixups
  cases image.chainedFixups with
  | none => exact ensures_ok tally
  | some fixups =>
      exact (tally_issueIf tally (by decide)).bind fun _ tally' =>
        (tally_issueIf tally' (by decide)).bind fun _ tally'' => ensures_bind fun _ _ =>
        ensures_bind fun _ _ => ensures_bind fun _ _ =>
        ensures_foldlM tally'' fun _ tally _ _ => tally_fixupSegment tally

theorem tally_image [UnstableSort] {entry : ImageMetadata × Nat} (tally : Tally 0 out) :
    Ensures (Tally 0) (audit.image out entry) :=
  ensures_bind fun _ _ => (ensures_foldlM tally fun _ tally' _ _ => tally_classic tally').bind
    fun _ tally' => tally_imageFixups tally'

end Image

end Audit

/-! ### The whole audit -/

theorem Tally.wide {running : Nat} {out : KcFixupAudit} (tally : Tally running out) :
    ∀ r ∈ out.records, 0 < r.width := by
  intro r mem
  have positive : ∀ w ∈ [1, 2, 4, 8], 0 < w := by decide
  exact positive _ (tally.widths r mem)

theorem Swept.code_mem {records : List AuditRecord} {issues : List AuditIssue}
    (swept : Swept records issues) : ∀ s ∈ issues, s.code ∈ passCodes := by
  intro s mem
  obtain ⟨_, r, _, _, _, code | ⟨chained, code⟩⟩ := swept.only s mem
  · rw [code]
    decide
  · rw [code]
    rcases overlapCode_cases chained r with same | cross
    · rw [same]
      decide
    · rw [cross]
      decide

/-- What the pass over the ordered records is given. -/
theorem tally_of_audit [UnstableSort] {source : Bytes} {limits : AuditLimits} {a : KcFixupAudit}
    (audited : auditKernelCollectionWithLimits source limits = .ok a) :
    ∃ (audit : Audit) (out : KcFixupAudit), Tally 0 out ∧ audit.overlaps out = .ok a := by
  simp only [auditKernelCollectionWithLimits, bind_eq_ok] at audited
  obtain ⟨_, _, inspection, _, base, _, outer, _, executable, _, kext, _, out, ran, passed⟩ :=
    audited
  refine ⟨_, out, ?_, passed⟩
  exact ensures_foldlM (tally_zero base) (fun _ tally _ _ => Audit.tally_image tally) out ran

/-- The pass is sound and complete, over any records that write to at least one byte; and the
records of an audit write to one, two, four or eight. -/
theorem overlap_sweep_exact [UnstableSort] :
    (∀ (audit : Audit) (out out' : KcFixupAudit), (∀ r ∈ out.records, 0 < r.width) →
      audit.overlaps out = .ok out' → ∃ issues, out'.issues = out.issues ++ issues ∧
        out'.records = out.records ∧ Swept out.records issues) ∧
    (∀ source limits a, auditKernelCollectionWithLimits source limits = .ok a →
      (∀ r ∈ a.records, r.width ∈ [1, 2, 4, 8]) ∧
        Swept a.records (a.issues.filter fun s => s.code ∈ passCodes)) := by
  refine ⟨fun audit out out' wide done => overlaps_exact wide done,
    fun source limits a audited => ?_⟩
  obtain ⟨audit, out, tally, passed⟩ := tally_of_audit audited
  obtain ⟨issues, issues_eq, records_eq, swept⟩ := overlaps_exact tally.wide passed
  rw [records_eq, issues_eq, List.filter_append]
  have earlier : out.issues.filter (fun s => s.code ∈ passCodes) = [] := by
    refine List.filter_eq_nil_iff.mpr fun s mem => ?_
    rw [decide_eq_true_eq]
    exact tally.codes s mem
  have all : issues.filter (fun s => s.code ∈ passCodes) = issues := by
    exact List.filter_eq_self.mpr fun s mem => decide_eq_true (swept.code_mem s mem)
  rw [earlier, all]
  exact ⟨tally.widths, swept⟩

theorem overlap_sweep_exact_sample :
    ∃ a, @auditKernelCollectionWithLimits UnstableSort.insertion sampleFixups .default = .ok a ∧
      a.records.length = 2 ∧ Swept a.records [] := by
  obtain ⟨a, audited, found⟩ := isOkAnd_iff.mp
    (show (@auditKernelCollectionWithLimits UnstableSort.insertion sampleFixups
        .default).isOkAnd (fun a => a.records.length = 2 ∧
          a.issues.filter (fun s => s.code ∈ passCodes) = []) = true by decide +kernel)
  obtain ⟨two, none⟩ := of_decide_eq_true found
  obtain ⟨_, swept⟩ := (@overlap_sweep_exact UnstableSort.insertion).2 _ _ a audited
  rw [none] at swept
  exact ⟨a, audited, two, swept⟩

end Nextcore.FixupAudit
