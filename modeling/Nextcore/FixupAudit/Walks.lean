import Nextcore.FixupAudit.Tally

/-!
How chains are walked, and what an audit counts.

`chainVisits` is the trace of the loop over the words of a chain: where it looks for a word,
whatever it makes of it. The trace climbs inside the page, so it is no longer than the page, and
the records of the chain are those of its front.
-/

namespace Nextcore.FixupAudit

open Checked Checked.Outcome KernelCollection

namespace Audit

/-! ### The trace of a chain -/

/-- The offsets in the page at which the loop looks for a word, however it ends. -/
def chainVisits (audit : Audit) (c : ChainStart) (pageOffset inPage : Nat) (out : KcFixupAudit) :
    List Nat :=
  if _ : c.pageSize ≤ inPage then []
  else inPage ::
    match audit.chainStep c pageOffset inPage out with
    | .ok (next, out) =>
      if _ : next = 0 then []
      else
        match _ : checkedAdd inPage next with
        | none => []
        | some inPage' => audit.chainVisits c pageOffset inPage' out
    | _ => []
termination_by c.pageSize - inPage
decreasing_by
  obtain ⟨_, rfl⟩ := checkedAdd_eq_some.mp ‹_›
  omega

/-- The trace of `chain`. -/
def visits (audit : Audit) (c : ChainStart) (out : KcFixupAudit) : List Nat :=
  let out := { out with summary := { out.summary with chainStarts := out.summary.chainStarts + 1 } }
  match checkedMul c.pageIndex c.pageSize with
  | none => []
  | some pageOffset => audit.chainVisits c pageOffset c.start out

section Visits

variable {audit : Audit} {c : ChainStart} {pageOffset inPage : Nat} {out : KcFixupAudit}

/-- The trace climbs, and stays in the page. -/
theorem chainVisits_climb :
    (audit.chainVisits c pageOffset inPage out).Pairwise (· < ·) ∧
      ∀ o ∈ audit.chainVisits c pageOffset inPage out, inPage ≤ o ∧ o < c.pageSize := by
  induction gap : c.pageSize - inPage using Nat.strongRecOn generalizing inPage out with
  | ind gap ih =>
      subst gap
      rw [chainVisits]
      split
      · exact ⟨.nil, nofun⟩
      next inside =>
      have here : inPage ≤ inPage ∧ inPage < c.pageSize := ⟨Nat.le_refl _, Nat.lt_of_not_le inside⟩
      have alone : ([inPage] : List Nat).Pairwise (· < ·) ∧
          ∀ o ∈ [inPage], inPage ≤ o ∧ o < c.pageSize :=
        ⟨List.pairwise_singleton _ _, fun o mem => List.mem_singleton.mp mem ▸ here⟩
      split
      next next out' stepped =>
        split
        · exact alone
        next linked =>
        split
        · exact alone
        next inPage' stride =>
          obtain ⟨_, rfl⟩ := checkedAdd_eq_some.mp stride
          obtain ⟨climb, bounded⟩ := @ih _ (by omega) (inPage + next) out' rfl
          refine ⟨List.pairwise_cons.mpr ⟨fun o mem => ?_, climb⟩,
            List.forall_mem_cons.mpr ⟨here, fun o mem => ?_⟩⟩
          · have above := (bounded o mem).1
            omega
          · have known := bounded o mem
            omega
      · exact alone

/-- Issues about a record add no records. -/
theorem records_of_issues {codes : List IssueCode} {image : Nat} {record related : Option Nat} :
    Ensures (fun out' => out'.records = out.records)
      (codes.foldlM (fun out code => audit.issue code image record related out) out) :=
  ensures_foldlM rfl fun out' same code _ out'' raised => by
    rw [of_issue_eq_ok raised]
    exact same

/-- A record of the word of a chain at an offset in the page. -/
def AtOffset (c : ChainStart) (inPage : Nat) (r : AuditRecord) : Prop :=
  isChained r.detail = true ∧ r.sourceRecordOffset = c.segment.file.offset + c.into inPage

/-- A round appends the record of its word, or finds none and is the last. -/
theorem chainStep_eq_ok {next : Nat} {out' : KcFixupAudit}
    (done : audit.chainStep c (c.pageIndex * c.pageSize) inPage out = .ok (next, out')) :
    (next = 0 ∧ out'.records = out.records) ∨
      ∃ r, AtOffset c inPage r ∧ out'.records = out.records ++ [r] := by
  obtain ⟨location, found, done⟩ := bind_eq_ok.mp done
  match location with
  | none =>
      obtain ⟨_, raised, done⟩ := bind_eq_ok.mp done
      cases done
      rw [of_issue_eq_ok raised]
      exact .inl ⟨rfl, rfl⟩
  | some (address, file) =>
      obtain ⟨_, rfl, _⟩ := chainLocation_eq_ok found
      obtain ⟨⟨_, _⟩, wrote, done⟩ := bind_eq_ok.mp done
      cases done
      obtain ⟨word, _, wrote⟩ := bind_eq_ok.mp wrote
      obtain ⟨_, recorded, wrote⟩ := bind_eq_ok.mp wrote
      rw [of_record_eq_ok recorded] at wrote
      obtain ⟨_, raised, wrote⟩ := bind_eq_ok.mp wrote
      cases wrote
      exact .inr ⟨_, ⟨rfl, rfl⟩, records_of_issues _ raised⟩

/-- A word past the page is not looked at. -/
theorem chainVisits_of_past (past : c.pageSize ≤ inPage) :
    audit.chainVisits c pageOffset inPage out = [] := by
  rw [chainVisits]
  exact dif_pos past

/-- The trace ends at a round without a next word. -/
theorem chainVisits_of_last {out' : KcFixupAudit} (inside : ¬ c.pageSize ≤ inPage)
    (stepped : audit.chainStep c pageOffset inPage out = .ok (0, out')) :
    audit.chainVisits c pageOffset inPage out = [inPage] := by
  rw [chainVisits]
  simp only [inside, stepped, dite_false, dite_true]

/-- The trace goes on at the next word. -/
theorem chainVisits_of_next {next : Nat} {out' : KcFixupAudit} (inside : ¬ c.pageSize ≤ inPage)
    (stepped : audit.chainStep c pageOffset inPage out = .ok (next, out')) (linked : next ≠ 0)
    (bounded : inPage + next < 2 ^ 64) :
    audit.chainVisits c pageOffset inPage out =
      inPage :: audit.chainVisits c pageOffset (inPage + next) out' := by
  have within := checkedAdd_of_lt bounded
  rw [chainVisits, dif_neg inside, stepped]
  refine congrArg (inPage :: ·) ((dif_neg linked).trans ?_)
  split
  · next failed => cases within.symm.trans failed
  next inPage' stride =>
    cases within.symm.trans stride
    rfl

/-- The records of a chain are those of the front of its trace. -/
theorem chainFrom_records {out' : KcFixupAudit}
    (done : audit.chainFrom c (c.pageIndex * c.pageSize) inPage out = .ok out') :
    ∃ offsets records,
      offsets <+: audit.chainVisits c (c.pageIndex * c.pageSize) inPage out ∧
        out'.records = out.records ++ records ∧ List.Forall₂ (AtOffset c) offsets records := by
  induction gap : c.pageSize - inPage using Nat.strongRecOn generalizing inPage out with
  | ind gap ih =>
      subst gap
      rw [chainFrom] at done
      split at done
      · next outside =>
          rw [of_issue_eq_ok done, chainVisits_of_past outside]
          exact ⟨[], [], List.prefix_refl [], (List.append_nil _).symm, .nil⟩
      next inside =>
      obtain ⟨⟨next, mid⟩, stepped, done⟩ := bind_eq_ok.mp done
      have step := chainStep_eq_ok stepped
      dsimp only at done
      split at done
      · next last =>
          subst last
          cases done
          rcases step with ⟨_, none⟩ | ⟨r, here, one⟩
          · exact ⟨[], [], List.nil_prefix, by rw [none, List.append_nil], .nil⟩
          · have trace := chainVisits_of_last inside stepped
            exact ⟨[inPage], [r], trace ▸ List.prefix_refl _, one, .cons here .nil⟩
      next linked =>
      rcases step with ⟨last, _⟩ | ⟨r, here, one⟩
      · exact absurd last linked
      split at done
      · cases done
      next inPage' stride =>
      obtain ⟨bounded, rfl⟩ := checkedAdd_eq_some.mp stride
      have trace := chainVisits_of_next inside stepped linked bounded
      obtain ⟨offsets, records, front, more, each⟩ := ih _ (by omega) done rfl
      refine ⟨inPage :: offsets, r :: records, ?_, ?_, .cons here each⟩
      · rw [trace]
        exact List.cons_prefix_cons.mpr ⟨rfl, front⟩
      · rw [more, one, List.append_assoc, List.singleton_append]

/-- A climbing list below a bound is no longer than the bound. -/
theorem length_le_of_climb {list : List Nat} {bound : Nat} (climb : list.Pairwise (· < ·))
    (below : ∀ o ∈ list, o < bound) : list.length ≤ bound := by
  have inside : list ⊆ List.range bound := fun o mem => List.mem_range.mpr (below o mem)
  have nodup : list.Nodup := climb.imp Nat.ne_of_lt
  have shorter := (List.subperm_of_subset nodup inside).length_le
  rwa [List.length_range] at shorter

/-- What a call of `chain` walks: its trace, and the records it appends when it returns. -/
structure Walked (audit : Audit) (c : ChainStart) (out : KcFixupAudit) : Prop where
  climb : (audit.visits c out).Pairwise (· < ·)
  inside : ∀ o ∈ audit.visits c out, c.start ≤ o ∧ o < c.pageSize
  short : (audit.visits c out).length ≤ c.pageSize
  records : ∀ out', audit.chain c out = .ok out' → ∃ offsets records,
    offsets <+: audit.visits c out ∧ out'.records = out.records ++ records ∧
      List.Forall₂ (AtOffset c) offsets records ∧ records.length ≤ c.pageSize

theorem walked (audit : Audit) (c : ChainStart) (out : KcFixupAudit) : Walked audit c out := by
  have climbs : (audit.visits c out).Pairwise (· < ·) ∧
      ∀ o ∈ audit.visits c out, c.start ≤ o ∧ o < c.pageSize := by
    unfold visits
    dsimp only
    split
    · exact ⟨.nil, nofun⟩
    · exact chainVisits_climb
  have short := length_le_of_climb climbs.1 fun o mem => (climbs.2 o mem).2
  refine ⟨climbs.1, climbs.2, short, fun out' done => ?_⟩
  obtain ⟨pageOffset, product, done⟩ := bind_eq_ok.mp done
  rw [ofOption_eq_ok] at product
  have product_eq := (checkedMul_eq_some.mp product).2
  subst product_eq
  obtain ⟨offsets, records, front, more, each⟩ := chainFrom_records done
  have trace : audit.visits c out =
      audit.chainVisits c (c.pageIndex * c.pageSize) c.start { out with
        summary := { out.summary with chainStarts := out.summary.chainStarts + 1 } } := by
    unfold visits
    rw [product]
  refine ⟨offsets, records, trace ▸ front, more, each, ?_⟩
  rw [← each.length_eq]
  exact (trace ▸ front.length_le).trans short

end Visits

end Audit

/-! ### The counts of the issues -/

/-- The count of a code, if it has one. -/
def countOf (counts : List IssueCount) (code : IssueCode) : Nat :=
  ((counts.find? (·.code = code)).map (·.count)).getD 0

theorem countOf_countIssue (code code' : IssueCode) (counts : List IssueCount) :
    countOf (countIssue code counts) code' = countOf counts code' + ofFlag (code = code') := by
  induction counts with
  | nil =>
      by_cases same : code = code'
      · simp [countIssue, countOf, ofFlag, same]
      · simp [countIssue, countOf, ofFlag, same]
  | cons first rest ih =>
      rw [countIssue]
      by_cases here : first.code = code
      · rw [if_pos here]
        by_cases same : code = code'
        · simp [countOf, ofFlag, here, same]
        · simp [countOf, ofFlag, here, same]
      · rw [if_neg here]
        by_cases found : first.code = code'
        · have other : code ≠ code' := fun same => here (found.trans same.symm)
          simp [countOf, ofFlag, found, other]
        · simpa [countOf, List.find?_cons, found] using ih

theorem codes_countIssue (code : IssueCode) (counts : List IssueCount) :
    (countIssue code counts).map (·.code) =
      if code ∈ counts.map (·.code) then counts.map (·.code)
      else counts.map (·.code) ++ [code] := by
  induction counts with
  | nil => rfl
  | cons first rest ih =>
      rw [countIssue]
      by_cases here : first.code = code
      · rw [if_pos here, if_pos (List.mem_map.mpr ⟨first, List.mem_cons_self, here⟩)]
        rfl
      · rw [if_neg here, List.map_cons, ih, List.map_cons]
        by_cases later : code ∈ rest.map (·.code)
        · rw [if_pos later, if_pos (List.mem_cons_of_mem _ later)]
        · have new : code ∉ first.code :: rest.map (·.code) := by
            rw [List.mem_cons]
            exact not_or.mpr ⟨fun same => here same.symm, later⟩
          rw [if_neg later, if_neg new, List.cons_append]

theorem positive_countIssue {code : IssueCode} {counts : List IssueCount}
    (positive : ∀ entry ∈ counts, 0 < entry.count) :
    ∀ entry ∈ countIssue code counts, 0 < entry.count := by
  induction counts with
  | nil =>
      intro entry mem
      rw [List.mem_singleton.mp mem]
      exact Nat.one_pos
  | cons first rest ih =>
      obtain ⟨head, tail⟩ := List.forall_mem_cons.mp positive
      rw [countIssue]
      split
      · exact List.forall_mem_cons.mpr ⟨Nat.succ_pos _, tail⟩
      · exact List.forall_mem_cons.mpr ⟨head, ih tail⟩

/-- Every code that occurs stands once in the counts, with how often it does. -/
structure IssuesCounted (counts : List IssueCount) (issues : List AuditIssue) : Prop where
  once : (counts.map (·.code)).Nodup
  positive : ∀ entry ∈ counts, 0 < entry.count
  count : ∀ code, countOf counts code = issueCount issues code

theorem issuesCounted_nil : IssuesCounted [] [] :=
  ⟨List.nodup_nil, nofun, fun _ => rfl⟩

/-- One more issue. -/
theorem IssuesCounted.next {counts : List IssueCount} {issues : List AuditIssue}
    (counted : IssuesCounted counts issues) (s : AuditIssue) :
    IssuesCounted (countIssue s.code counts) (issues ++ [s]) where
  once := by
    rw [codes_countIssue]
    split
    · exact counted.once
    · next new => exact List.nodup_append.mpr ⟨counted.once, List.nodup_singleton _, by
        rintro code mem _ now rfl
        rw [List.mem_singleton.mp now] at mem
        exact new mem⟩
  positive := positive_countIssue counted.positive
  count := by
    intro code
    rw [countOf_countIssue, counted.count, issueCount_append]

theorem issuesCounted_countIssues (issues : List AuditIssue) {done : List AuditIssue}
    {counts : List IssueCount} (counted : IssuesCounted counts done) :
    IssuesCounted (Audit.countIssues issues counts) (done ++ issues) := by
  induction issues generalizing done counts with
  | nil =>
      rw [List.append_nil]
      exact counted
  | cons s rest ih =>
      have later := ih (counted.next s)
      rwa [List.append_assoc] at later

/-- The entry of a code. -/
theorem countOf_of_mem {counts : List IssueCount} (once : (counts.map (·.code)).Nodup)
    {entry : IssueCount} (mem : entry ∈ counts) : countOf counts entry.code = entry.count := by
  induction counts with
  | nil => cases mem
  | cons first rest ih =>
      obtain ⟨new, once⟩ := List.nodup_cons.mp once
      rcases List.mem_cons.mp mem with rfl | later
      · simp [countOf]
      · have other : first.code ≠ entry.code := by
          intro same
          exact new (List.mem_map.mpr ⟨entry, later, same.symm⟩)
        simpa [countOf, List.find?_cons, other] using ih once later

/-- What the counts list: a code with a number where that many issues have it. -/
theorem IssuesCounted.mem_iff {counts : List IssueCount} {issues : List AuditIssue}
    (counted : IssuesCounted counts issues) (code : IssueCode) (n : Nat) :
    ⟨code, n⟩ ∈ counts ↔ 0 < n ∧ n = issueCount issues code := by
  rw [← counted.count]
  constructor
  · intro mem
    exact ⟨counted.positive _ mem, (countOf_of_mem counted.once mem).symm⟩
  · rintro ⟨positive, rfl⟩
    unfold countOf at positive ⊢
    cases found : counts.find? (·.code = code) with
    | none =>
        rw [found] at positive
        cases positive
    | some entry =>
        have code_eq : entry.code = code := by
          have hit := List.find?_some found
          rwa [decide_eq_true_eq] at hit
        rw [Option.map_some, Option.getD_some, ← code_eq]
        exact List.mem_of_find?_eq_some found

/-! ### The whole audit -/

/-- What an audit has counted agrees with what it lists. -/
structure Conserved (a : KcFixupAudit) : Prop where
  chains : a.summary.chainStarts = a.summary.chainsTerminated +
    issueCount a.issues .chainOutsidePage + issueCount a.issues .chainOutsideFileMapping
  counts : Counts a.summary a.records
  once : (a.summary.issueCounts.map (·.code)).Nodup
  issues : ∀ code n, ⟨code, n⟩ ∈ a.summary.issueCounts ↔
    0 < n ∧ n = issueCount a.issues code

theorem issueCount_of_others {issues issues' : List AuditIssue} {code : IssueCode}
    (others : ∀ s ∈ issues', s.code ≠ code) :
    issueCount (issues ++ issues') code = issueCount issues code := by
  have none : issues'.countP (fun s => s.code = code) = 0 :=
    List.countP_eq_zero.mpr fun s mem => by
      rw [decide_eq_true_eq]
      exact others s mem
  rw [issueCount, List.countP_append, none]
  rfl

/-- Every chain is walked upwards inside its page, whatever the words say; and the counters of an
audit are those of its records, its issues and the ends of its chains. -/
theorem chains_conserved [UnstableSort] :
    (∀ audit c out, Audit.Walked audit c out) ∧
    (∀ source limits a, auditKernelCollectionWithLimits source limits = .ok a → Conserved a) := by
  refine ⟨Audit.walked, fun source limits a audited => ?_⟩
  obtain ⟨audit, out, tally, passed⟩ := tally_of_audit audited
  obtain ⟨places, issues, ordered, nodup, turns, rfl⟩ :=
    Audit.overlaps_told (fun i r _ writes => tally.wide r (List.mem_of_getElem? writes.1)) passed
  have codes := (swept_of_told ordered nodup turns).code_mem
  have end_eq : ∀ code ∈ endCodes, issueCount (out.issues ++ issues) code =
      issueCount out.issues code := by
    intro code ends
    refine issueCount_of_others fun s mem same => ?_
    exact endCodes_not_pass code ends (same ▸ codes s mem)
  have counted := issuesCounted_countIssues (out.issues ++ issues) issuesCounted_nil
  rw [List.nil_append] at counted
  refine ⟨?_, { tally.counts with }, ?_, ?_⟩
  · rw [end_eq _ (by decide), end_eq _ (by decide)]
    exact tally.starts
  · rw [tally.uncounted]
    exact counted.once
  · rw [tally.uncounted]
    exact counted.mem_iff

theorem chains_conserved_sample :
    ∃ a, @auditKernelCollectionWithLimits UnstableSort.insertion sampleFixups .default = .ok a ∧
      a.summary.chainRecords = 1 ∧ Conserved a := by
  obtain ⟨a, audited, found⟩ := isOkAnd_iff.mp
    (show (@auditKernelCollectionWithLimits UnstableSort.insertion sampleFixups
        .default).isOkAnd (fun a => a.summary.chainRecords = 1) = true by decide +kernel)
  exact ⟨a, audited, of_decide_eq_true found,
    (@chains_conserved UnstableSort.insertion).2 _ _ a audited⟩

end Nextcore.FixupAudit
