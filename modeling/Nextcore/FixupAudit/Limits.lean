import Nextcore.FixupAudit.Overlaps

/-!
Two audits of one source under different limits.

`Cut` relates a part of the audit under tighter limits to the same part under wider ones: the
tighter one returns what the wider one does as long as that is within the tighter limits, and is
cut off where it is not. Each part only adds to what the limits bound, so the relation holds of
the whole once it holds of the three parts that look at a limit.
-/

namespace Nextcore.FixupAudit

open Checked Checked.Outcome KernelCollection

/-- What the limits bound is within them. -/
structure AuditLimits.Allow (limits : AuditLimits) (out : KcFixupAudit) : Prop where
  records : out.records.length ≤ limits.records
  issues : out.issues.length ≤ limits.issues
  pageStarts : out.summary.pageStartsVisited ≤ limits.pageStarts

/-- Each limit is at most the other one. -/
structure AuditLimits.Tighter (limits limits' : AuditLimits) : Prop where
  records : limits.records ≤ limits'.records
  issues : limits.issues ≤ limits'.issues
  pageStarts : limits.pageStarts ≤ limits'.pageStarts

/-- Limits that an audit accepts. -/
structure AuditLimits.Valid (limits : AuditLimits) : Prop where
  records : 0 < limits.records ∧ limits.records ≤ maxAuditRecords
  issues : 0 < limits.issues ∧ limits.issues ≤ maxAuditIssues
  pageStarts : 0 < limits.pageStarts ∧ limits.pageStarts ≤ maxAuditPageStarts

/-! ### Runs that are cut off -/

/-- From `out` on, the first run returns what the second one does when the limits allow that, and
is cut off when they do not. The audit in a value is what `view` sees of it. -/
structure Cut {α : Type} (limits : AuditLimits) (view : α → KcFixupAudit) (out : KcFixupAudit)
    (x x' : Result α) : Prop where
  grows : ∀ a, x' = .ok a → limits.Allow (view a) → limits.Allow out
  kept : limits.Allow out → ∀ a, x' = .ok a → limits.Allow (view a) → x = .ok a
  cutOff : limits.Allow out → ∀ a, x' = .ok a → ¬ limits.Allow (view a) → x = .err .limitExceeded
  sound : limits.Allow out → ∀ a, x = .ok a → x' = .ok a ∧ limits.Allow (view a)

section Cut

variable {α β : Type} {limits : AuditLimits} {view : α → KcFixupAudit} {view' : β → KcFixupAudit}
  {out : KcFixupAudit}

theorem Cut.bind {x x' : Result α} {f f' : α → Result β} (cut : Cut limits view out x x')
    (rest : ∀ a, Cut limits view' (view a) (f a) (f' a)) :
    Cut limits view' out (x >>= f) (x' >>= f') where
  grows := by
    intro b done allowed
    obtain ⟨a, first, second⟩ := bind_eq_ok.mp done
    exact cut.grows a first ((rest a).grows b second allowed)
  kept := by
    intro start b done allowed
    obtain ⟨a, first, second⟩ := bind_eq_ok.mp done
    have between := (rest a).grows b second allowed
    rw [cut.kept start a first between, bind_ok]
    exact (rest a).kept between b second allowed
  cutOff := by
    intro start b done exceeded
    obtain ⟨a, first, second⟩ := bind_eq_ok.mp done
    by_cases between : limits.Allow (view a)
    · rw [cut.kept start a first between, bind_ok]
      exact (rest a).cutOff between b second exceeded
    · rw [cut.cutOff start a first between, bind_err]
  sound := by
    intro start b done
    obtain ⟨a, first, second⟩ := bind_eq_ok.mp done
    obtain ⟨first', between⟩ := cut.sound start a first
    rw [first', bind_ok]
    exact (rest a).sound between b second

/-- What does not look at the limits is the same in both runs. -/
theorem cut_bind {y : Result α} {f f' : α → Result β}
    (rest : ∀ a, y = .ok a → Cut limits view' out (f a) (f' a)) :
    Cut limits view' out (y >>= f) (y >>= f') := by
  cases y with
  | ok a => exact rest a rfl
  | err e => exact ⟨nofun, nofun, nofun, nofun⟩
  | panic => exact ⟨nofun, nofun, nofun, nofun⟩

theorem cut_err {e : AuditError} : Cut limits view out (.err e) (.err e) :=
  ⟨nofun, nofun, nofun, nofun⟩

/-- A value with nothing more that the limits bound. -/
theorem cut_ok {a : α} (same : limits.Allow (view a) ↔ limits.Allow out) :
    Cut limits view out (.ok a) (.ok a) where
  grows := by
    rintro _ ⟨rfl⟩ allowed
    exact same.mp allowed
  kept := by
    rintro _ _ ⟨rfl⟩ _
    rfl
  cutOff := by
    rintro start _ ⟨rfl⟩ exceeded
    exact absurd (same.mpr start) exceeded
  sound := by
    rintro start _ ⟨rfl⟩
    exact ⟨rfl, same.mpr start⟩

/-- The start may be any audit with as much that the limits bound. -/
theorem Cut.start {out' : KcFixupAudit} {x x' : Result α} (cut : Cut limits view out' x x')
    (same : limits.Allow out' ↔ limits.Allow out) : Cut limits view out x x' where
  grows := fun a done allowed => same.mp (cut.grows a done allowed)
  kept := fun start => cut.kept (same.mpr start)
  cutOff := fun start => cut.cutOff (same.mpr start)
  sound := fun start => cut.sound (same.mpr start)

theorem cut_foldlM {σ : Type} {view : σ → KcFixupAudit} {f f' : σ → α → Result σ} {list : List α}
    {s : σ} (step : ∀ s, ∀ a ∈ list, Cut limits view (view s) (f s a) (f' s a)) :
    Cut limits view (view s) (list.foldlM f s) (list.foldlM f' s) := by
  induction list generalizing s with
  | nil => exact cut_ok Iff.rfl
  | cons a rest ih =>
      rw [List.foldlM_cons, List.foldlM_cons]
      refine (step s a List.mem_cons_self).bind fun s' => ih fun t b mem => ?_
      exact step t b (List.mem_cons_of_mem _ mem)

/-- A part that looks at one limit: it goes on exactly where that limit has room for one more. -/
theorem cut_rejectIf {count bound bound' : Nat} {view : α → KcFixupAudit} {a : α}
    (wider : bound ≤ bound')
    (more : limits.Allow (view a) ↔ limits.Allow out ∧ count + 1 ≤ bound) :
    Cut limits view out
      (rejectIf (count ≥ bound) .limitExceeded >>= fun _ => pure a)
      (rejectIf (count ≥ bound') .limitExceeded >>= fun _ => pure a) where
  grows := by
    intro b done allowed
    obtain ⟨_, _, done⟩ := bind_eq_ok.mp done
    cases done
    exact (more.mp allowed).1
  kept := by
    intro _ b done allowed
    obtain ⟨_, _, done⟩ := bind_eq_ok.mp done
    cases done
    have room := (more.mp allowed).2
    rw [rejectIf_of_not _ (by omega), bind_ok, pure_eq]
  cutOff := by
    intro start b done exceeded
    obtain ⟨_, _, done⟩ := bind_eq_ok.mp done
    cases done
    have full : count ≥ bound := by
      by_contra room
      exact exceeded (more.mpr ⟨start, by omega⟩)
    rw [rejectIf_of _ full, bind_err]
  sound := by
    intro start b done
    obtain ⟨_, passed, done⟩ := bind_eq_ok.mp done
    cases done
    have room := rejectIf_eq_ok.mp passed
    rw [rejectIf_of_not _ (by omega), bind_ok]
    exact ⟨rfl, more.mpr ⟨start, by omega⟩⟩

end Cut

namespace Audit

/-! ### The parts of the audit -/

/-- The audit under other limits. -/
def under (audit : Audit) (limits : AuditLimits) : Audit := { audit with limits }

section Parts

variable {audit : Audit} {wide : AuditLimits} {out : KcFixupAudit}

theorem cut_issue (wider : audit.limits.Tighter wide) {code : IssueCode} {image : Nat}
    {record related : Option Nat} :
    Cut audit.limits id out (audit.issue code image record related out)
      ((audit.under wide).issue code image record related out) := by
  simp only [issue, pushBounded, bind_assoc, pure_eq, bind_ok]
  refine cut_rejectIf wider.issues ?_
  constructor
  · rintro ⟨records, issues, pageStarts⟩
    rw [id, List.length_append, List.length_singleton] at issues
    exact ⟨⟨records, Nat.le_of_succ_le issues, pageStarts⟩, issues⟩
  · rintro ⟨start, room⟩
    refine ⟨start.records, ?_, start.pageStarts⟩
    rwa [id, List.length_append, List.length_singleton]

theorem cut_issues (wider : audit.limits.Tighter wide) {codes : List IssueCode} {image : Nat}
    {record related : Option Nat} :
    Cut audit.limits id out
      (codes.foldlM (fun out code => audit.issue code image record related out) out)
      (codes.foldlM (fun out code => (audit.under wide).issue code image record related out) out) :=
  cut_foldlM fun _ _ _ => cut_issue wider

theorem cut_issueIf (wider : audit.limits.Tighter wide) {p : Prop} [Decidable p]
    {code : IssueCode} {index : Nat} :
    Cut audit.limits id out (audit.issueIf p code index out)
      ((audit.under wide).issueIf p code index out) := by
  unfold issueIf
  by_cases raised : p
  · rw [if_pos raised, if_pos raised]
    exact cut_issue wider
  · rw [if_neg raised, if_neg raised]
    exact cut_ok Iff.rfl

theorem cut_pageStart (wider : audit.limits.Tighter wide) :
    Cut audit.limits id out (audit.pageStart out) ((audit.under wide).pageStart out) := by
  refine cut_rejectIf wider.pageStarts ?_
  constructor
  · rintro ⟨records, issues, pageStarts⟩
    exact ⟨⟨records, issues, Nat.le_of_succ_le pageStarts⟩, pageStarts⟩
  · rintro ⟨start, room⟩
    exact ⟨start.records, start.issues, room⟩

theorem cut_record (wider : audit.limits.Tighter wide) {r : AuditRecord} :
    Cut audit.limits Prod.snd out (audit.record r out) ((audit.under wide).record r out) := by
  simp only [Audit.record, pushBounded, bind_assoc, pure_eq, bind_ok]
  refine cut_rejectIf wider.records ?_
  obtain ⟨_, _, _, _, _, _, _, visited, _⟩ := countRecord_kept out.summary r
  constructor
  · rintro ⟨records, issues, pageStarts⟩
    rw [List.length_append, List.length_singleton] at records
    rw [visited] at pageStarts
    exact ⟨⟨Nat.le_of_succ_le records, issues, pageStarts⟩, records⟩
  · rintro ⟨start, room⟩
    refine ⟨?_, start.issues, ?_⟩
    · rwa [List.length_append, List.length_singleton]
    · rw [visited]
      exact start.pageStarts

/-- Counters that no limit bounds. -/
theorem allow_counted {limits : AuditLimits} {s : AuditSummary}
    (visited : s.pageStartsVisited = out.summary.pageStartsVisited) :
    limits.Allow { out with summary := s } ↔ limits.Allow out := by
  constructor
  · rintro ⟨records, issues, pageStarts⟩
    exact ⟨records, issues, visited ▸ pageStarts⟩
  · rintro ⟨records, issues, pageStarts⟩
    exact ⟨records, issues, visited.symm ▸ pageStarts⟩

/-! ### Entries and chains -/

theorem cut_classic (wider : audit.limits.Tighter wide) {maps : List Mapping} {c : ClassicRange} :
    Cut audit.limits id out (audit.classic maps out c) ((audit.under wide).classic maps out c) := by
  refine cut_foldlM fun out at' _ => ?_
  refine cut_bind fun offset _ => cut_bind fun word _ => cut_bind fun infoOffset _ =>
    cut_bind fun info _ => cut_bind fun stored _ => (cut_record wider).bind fun done => ?_
  exact (cut_issues wider).start (allow_counted rfl)

variable {c : ChainStart} {pageOffset inPage : Nat}

theorem cut_chainStep (wider : audit.limits.Tighter wide) :
    Cut audit.limits Prod.snd out (audit.chainStep c pageOffset inPage out)
      ((audit.under wide).chainStep c pageOffset inPage out) := by
  refine cut_bind fun location _ => ?_
  match location with
  | none => exact (cut_issue wider).bind fun _ => cut_ok Iff.rfl
  | some (address, file) =>
      have word : Cut audit.limits Prod.snd out (audit.chainWord c inPage address file out)
          ((audit.under wide).chainWord c inPage address file out) := by
        refine cut_bind fun word _ => (cut_record wider).bind fun done => ?_
        obtain ⟨index, recorded⟩ := done
        exact Cut.start ((cut_issues wider).bind fun out' => cut_ok Iff.rfl) (allow_counted rfl)
      exact word.bind fun done => cut_ok (allow_counted rfl)

theorem cut_chainFrom (wider : audit.limits.Tighter wide) :
    Cut audit.limits id out (audit.chainFrom c pageOffset inPage out)
      ((audit.under wide).chainFrom c pageOffset inPage out) := by
  induction gap : c.pageSize - inPage using Nat.strongRecOn generalizing inPage out with
  | ind gap ih =>
      subst gap
      rw [chainFrom, chainFrom]
      by_cases outside : c.pageSize ≤ inPage
      · rw [dif_pos outside, dif_pos outside]
        exact cut_issue wider
      rw [dif_neg outside, dif_neg outside]
      refine (cut_chainStep wider).bind fun done => ?_
      obtain ⟨next, out'⟩ := done
      dsimp only
      by_cases last : next = 0
      · rw [dif_pos last, dif_pos last]
        exact cut_ok Iff.rfl
      rw [dif_neg last, dif_neg last]
      split
      · exact cut_err
      next inPage' stride =>
        obtain ⟨_, rfl⟩ := checkedAdd_eq_some.mp stride
        exact ih _ (by omega) rfl

theorem cut_chain (wider : audit.limits.Tighter wide) :
    Cut audit.limits id out (audit.chain c out) ((audit.under wide).chain c out) :=
  cut_bind fun _ _ => (cut_chainFrom wider).start (allow_counted rfl)

/-! ### Images -/

theorem cut_walkStarts (wider : audit.limits.Tighter wide) {table : StartTable} {page at' : Nat} :
    Cut audit.limits id out (audit.walkStarts table page at' out)
      ((audit.under wide).walkStarts table page at' out) := by
  induction gap : table.infoEnd - at' using Nat.strongRecOn generalizing at' out with
  | ind gap ih =>
      subst gap
      rw [walkStarts, walkStarts]
      refine (cut_pageStart wider).bind fun out' => ?_
      split
      · exact cut_err
      next stop room =>
      by_cases beyond : stop > table.infoEnd
      · rw [dif_pos beyond, dif_pos beyond]
        exact cut_err
      rw [dif_neg beyond, dif_neg beyond]
      obtain ⟨_, rfl⟩ := checkedAdd_eq_some.mp room
      refine cut_bind fun start _ => (cut_chain wider).bind fun out'' => ?_
      by_cases last : start &&& 0x8000 ≠ 0
      · rw [if_pos last, if_pos last]
        exact cut_ok Iff.rfl
      · rw [if_neg last, if_neg last]
        exact ih _ (by omega) rfl

theorem cut_fixupPage (wider : audit.limits.Tighter wide) {table : StartTable} {page : Nat} :
    Cut audit.limits id out (audit.fixupPage table out page)
      ((audit.under wide).fixupPage table out page) := by
  refine (cut_pageStart wider).bind fun out' => cut_bind fun entry _ => cut_bind fun first _ => ?_
  by_cases none : first = 0xffff
  · rw [if_pos none, if_pos none]
    exact cut_ok Iff.rfl
  rw [if_neg none, if_neg none]
  by_cases single : first &&& 0x8000 = 0
  · rw [if_pos single, if_pos single]
    exact cut_chain wider
  rw [if_neg single, if_neg single]
  exact ((cut_issue wider).bind fun out'' => cut_bind fun at' _ => cut_walkStarts wider).start
    (allow_counted rfl)

theorem cut_fixupSegment (wider : audit.limits.Tighter wide) {index starts : Nat}
    {image : ImageMetadata} {info : FixupSegmentMetadata} :
    Cut audit.limits id out (audit.fixupSegment index image starts out info)
      ((audit.under wide).fixupSegment index image starts out info) := by
  unfold fixupSegment
  by_cases other : info.pointerFormat ≠ 11
  · rw [if_pos other, if_pos other]
    exact cut_issue wider
  rw [if_neg other, if_neg other]
  exact cut_bind fun _ _ => cut_bind fun _ _ => cut_bind fun _ _ => cut_bind fun _ _ =>
    cut_bind fun _ _ => cut_bind fun _ _ => cut_bind fun _ _ =>
    cut_foldlM fun _ _ _ => cut_fixupPage wider

theorem cut_imageFixups (wider : audit.limits.Tighter wide) {index : Nat} {image : ImageMetadata} :
    Cut audit.limits id out (audit.imageFixups index image out)
      ((audit.under wide).imageFixups index image out) := by
  unfold imageFixups
  cases image.chainedFixups with
  | none => exact cut_ok Iff.rfl
  | some fixups =>
      exact (cut_issueIf wider).bind fun _ => (cut_issueIf wider).bind fun _ =>
        cut_bind fun _ _ => cut_bind fun _ _ => cut_bind fun _ _ =>
        cut_foldlM fun _ _ _ => cut_fixupSegment wider

theorem cut_image [UnstableSort] (wider : audit.limits.Tighter wide)
    {entry : ImageMetadata × Nat} :
    Cut audit.limits id out (audit.image out entry) ((audit.under wide).image out entry) :=
  cut_bind fun _ _ => (cut_foldlM fun _ _ _ => cut_classic wider).bind fun _ =>
    cut_imageFixups wider

/-! ### The pass over the ordered records -/

variable {sweep : Sweep} {r : AuditRecord} {address i : Nat}

theorem cut_duplicateIssue (wider : audit.limits.Tighter wide) :
    Cut audit.limits Sweep.out sweep.out (audit.duplicateIssue sweep r address i)
      ((audit.under wide).duplicateIssue sweep r address i) := by
  unfold duplicateIssue
  by_cases chained : isChained r.detail = true
  · rw [if_pos chained, if_pos chained]
    cases sweep.lastChain with
    | none => exact cut_ok Iff.rfl
    | some last =>
        obtain ⟨prior, other⟩ := last
        dsimp only
        by_cases same : prior = address
        · rw [if_pos same, if_pos same]
          exact (cut_issue wider).bind fun _ => cut_ok Iff.rfl
        · rw [if_neg same, if_neg same]
          exact cut_ok Iff.rfl
  · rw [if_neg chained, if_neg chained]
    exact cut_ok Iff.rfl

theorem cut_overlapIssue (wider : audit.limits.Tighter wide) {kind : Bool} :
    Cut audit.limits Sweep.out sweep.out (audit.overlapIssue r address i kind sweep)
      ((audit.under wide).overlapIssue r address i kind sweep) := by
  unfold overlapIssue
  cases sweep.furthest kind with
  | none => exact cut_ok Iff.rfl
  | some last =>
      obtain ⟨far, other⟩ := last
      dsimp only
      by_cases past : far > address
      · rw [if_pos past, if_pos past]
        exact (cut_issue wider).bind fun _ => cut_ok Iff.rfl
      · rw [if_neg past, if_neg past]
        exact cut_ok Iff.rfl

theorem cut_sweepRecord (wider : audit.limits.Tighter wide) {place : Nat × Nat} :
    Cut audit.limits Sweep.out sweep.out (audit.sweepRecord sweep place)
      ((audit.under wide).sweepRecord sweep place) := by
  refine cut_bind fun r _ => cut_bind fun address _ => cut_bind fun stop _ =>
    (cut_duplicateIssue wider).bind fun _ => (cut_overlapIssue wider).bind fun _ =>
    (cut_overlapIssue wider).bind fun _ => cut_ok ?_
  rw [Sweep.reach_out]

theorem cut_overlaps (wider : audit.limits.Tighter wide) :
    Cut audit.limits id out (audit.overlaps out) ((audit.under wide).overlaps out) := by
  refine cut_bind fun keys _ => ?_
  have pass : Cut audit.limits Sweep.out (Sweep.mk none none none out).out
      ((sortPairs keys).foldlM audit.sweepRecord ⟨none, none, none, out⟩)
      ((sortPairs keys).foldlM (audit.under wide).sweepRecord ⟨none, none, none, out⟩) :=
    cut_foldlM fun _ _ _ => cut_sweepRecord wider
  exact pass.bind fun _ => cut_ok (allow_counted rfl)

end Parts

end Audit

/-! ### The whole audit -/

theorem AuditLimits.Valid.accepted {limits : AuditLimits} (valid : limits.Valid) :
    (rejectIf (limits.records = 0 ∨ limits.records > maxAuditRecords ∨ limits.issues = 0 ∨
      limits.issues > maxAuditIssues ∨ limits.pageStarts = 0 ∨
      limits.pageStarts > maxAuditPageStarts) .invalidLimits : Result Unit) = .ok () := by
  have records := valid.records
  have issues := valid.issues
  have pageStarts := valid.pageStarts
  exact rejectIf_of_not _ (by omega)

/-- The whole audit under two limits. -/
theorem cut_audit [UnstableSort] {source : Bytes} {limits limits' : AuditLimits}
    (valid : limits.Valid) (valid' : limits'.Valid) (wider : limits.Tighter limits') :
    Cut limits id ⟨.zero, [], [], 0⟩ (auditKernelCollectionWithLimits source limits)
      (auditKernelCollectionWithLimits source limits') := by
  rw [auditKernelCollectionWithLimits, auditKernelCollectionWithLimits, valid.accepted,
    valid'.accepted, bind_ok, bind_ok]
  refine cut_bind fun inspection _ => cut_bind fun base _ => cut_bind fun outer _ =>
    cut_bind fun executable _ => cut_bind fun kext _ => ?_
  have images : Cut limits id ⟨.zero, [], [], base⟩
      ((images inspection).foldlM
        (Audit.image ⟨source, limits, outer, executable, kext⟩) ⟨.zero, [], [], base⟩)
      ((images inspection).foldlM
        (Audit.image ⟨source, limits', outer, executable, kext⟩) ⟨.zero, [], [], base⟩) :=
    cut_foldlM fun _ _ _ =>
      @Audit.cut_image ⟨source, limits, outer, executable, kext⟩ _ _ _ wider _
  refine Cut.start (images.bind fun out =>
    @Audit.cut_overlaps ⟨source, limits, outer, executable, kext⟩ _ _ wider) ?_
  exact ⟨fun allowed => { allowed with }, fun allowed => { allowed with }⟩

/-- Tighter limits cut an audit off and do not alter it: a result under them is the result under
wider ones, and a result under wider ones is theirs where they allow it. -/
theorem limits_only_cut [UnstableSort] {source : Bytes} {limits limits' : AuditLimits}
    (valid : limits.Valid) (valid' : limits'.Valid) (wider : limits.Tighter limits') :
    (∀ a, auditKernelCollectionWithLimits source limits = .ok a →
      auditKernelCollectionWithLimits source limits' = .ok a) ∧
    ∀ a, auditKernelCollectionWithLimits source limits' = .ok a →
      (limits.Allow a → auditKernelCollectionWithLimits source limits = .ok a) ∧
        (¬ limits.Allow a →
          auditKernelCollectionWithLimits source limits = .err .limitExceeded) := by
  have cut : Cut limits id _ (auditKernelCollectionWithLimits source limits) _ :=
    cut_audit valid valid' wider
  have start : limits.Allow ⟨.zero, [], [], 0⟩ :=
    ⟨Nat.zero_le _, Nat.zero_le _, Nat.zero_le _⟩
  exact ⟨fun a done => (cut.sound start a done).1, fun a done =>
    ⟨fun allowed => cut.kept start a done allowed, fun exceeded =>
      cut.cutOff start a done exceeded⟩⟩

theorem limits_only_cut_sample :
    ∃ a, @auditKernelCollectionWithLimits UnstableSort.insertion sampleFixups .default = .ok a ∧
      @auditKernelCollectionWithLimits UnstableSort.insertion sampleFixups ⟨2, 1, 1⟩ = .ok a ∧
      @auditKernelCollectionWithLimits UnstableSort.insertion sampleFixups ⟨1, 1, 1⟩ =
        .err .limitExceeded := by
  obtain ⟨a, audited, found⟩ := isOkAnd_iff.mp
    (show (@auditKernelCollectionWithLimits UnstableSort.insertion sampleFixups
        .default).isOkAnd (fun a => a.records.length = 2 ∧ a.issues.length = 0 ∧
          a.summary.pageStartsVisited = 1) = true by decide +kernel)
  obtain ⟨records, issues, visited⟩ := of_decide_eq_true found
  have default_valid : AuditLimits.default.Valid := by constructor <;> decide
  have narrow : AuditLimits.Valid ⟨2, 1, 1⟩ := by constructor <;> decide
  have narrower : AuditLimits.Valid ⟨1, 1, 1⟩ := by constructor <;> decide
  refine ⟨a, audited, ?_, ?_⟩
  · refine ((@limits_only_cut UnstableSort.insertion _ _ _ narrow default_valid
      (by constructor <;> decide)).2 a audited).1 ⟨records.le, ?_, visited.le⟩
    exact issues.le.trans (Nat.zero_le _)
  · refine ((@limits_only_cut UnstableSort.insertion _ _ _ narrower default_valid
      (by constructor <;> decide)).2 a audited).2 fun allowed => ?_
    have tight := allowed.records
    rw [records] at tight
    exact absurd tight (by decide)

end Nextcore.FixupAudit
