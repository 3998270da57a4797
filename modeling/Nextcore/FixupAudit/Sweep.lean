import Nextcore.FixupAudit.Verdict
import Nextcore.Lib.Sweep

/-!
The pass over the ordered records, record by record.

A pass that keeps one record for each mechanism answers for every record whether an earlier one
writes to its bytes (`PlaceTold`), and names one that does. The invariant is that what the pass
keeps is the furthest of what it has met (`Met`); `overlaps_told` is the whole pass.
-/

namespace Nextcore.FixupAudit

open Checked Checked.Outcome KernelCollection

/-! ### What the pass is to find -/

/-- The record at an index writes to the file, from an address on. -/
def WritesAt (records : List AuditRecord) (i : Nat) (r : AuditRecord) (address : Nat) : Prop :=
  records[i]? = some r ∧ r.writeFileOffset.isSome = true ∧ r.writeAddress = some address

/-- The record at `other` is of the mechanism, comes before the record at `i` in the order of
addresses and indices, and writes to a byte that that one writes. -/
def RunsInto (records : List AuditRecord) (chained : Bool) (i other : Nat) : Prop :=
  ∃ a x b y, WritesAt records other a x ∧ WritesAt records i b y ∧
    Audit.isChained a.detail = chained ∧ PairLt (x, other) (y, i) ∧
    ¬ Disjoint (Span.mk x a.width).bytes (Span.mk y b.width).bytes

/-- The records at both indices are chained words at one address, and `other` comes first. -/
def Repeats (records : List AuditRecord) (i other : Nat) : Prop :=
  ∃ a b address, WritesAt records other a address ∧ WritesAt records i b address ∧
    Audit.isChained a.detail = true ∧ Audit.isChained b.detail = true ∧ other < i

/-- One issue, which names something that hits; or nothing hits, and there is no issue. -/
def Answers (hits : Nat → Prop) (issue : Nat → AuditIssue) (issues : List AuditIssue) : Prop :=
  (∃ other, hits other ∧ issues = [issue other]) ∨ ((∀ other, ¬ hits other) ∧ issues = [])

/-- The code of a record that a mechanism runs into. -/
def overlapCode (chained : Bool) (r : AuditRecord) : IssueCode :=
  if chained = Audit.isChained r.detail then .sameMechanismWriteOverlap
  else .crossMechanismWriteOverlap

/-- What is told of the record at a place: its issues, by what they are about. -/
def PlaceTold (records : List AuditRecord) (place : Nat × Nat) (issues : List AuditIssue) : Prop :=
  ∃ r, WritesAt records place.2 r place.1 ∧ ∃ repeated classic chained,
    issues = repeated ++ classic ++ chained ∧
    Answers (Repeats records place.2)
      (fun other => ⟨.duplicateChainVisit, r.imageIndex, some place.2, some other⟩) repeated ∧
    Answers (RunsInto records false place.2)
      (fun other => ⟨overlapCode false r, r.imageIndex, some place.2, some other⟩) classic ∧
    Answers (RunsInto records true place.2)
      (fun other => ⟨overlapCode true r, r.imageIndex, some place.2, some other⟩) chained

/-- What is hit may be said in another way. -/
theorem Answers.imp {hits hits' : Nat → Prop} {issue : Nat → AuditIssue} {issues : List AuditIssue}
    (answers : Answers hits issue issues) (sound : ∀ other, hits other → hits' other)
    (complete : ∀ other, hits' other → ∃ other, hits other) : Answers hits' issue issues := by
  rcases answers with ⟨other, hit, rfl⟩ | ⟨none, rfl⟩
  · exact .inl ⟨other, sound other hit, rfl⟩
  · refine .inr ⟨fun other hit => ?_, rfl⟩
    obtain ⟨other, hit⟩ := complete other hit
    exact none other hit

/-! ### The order -/

theorem writeKeys_eq_ok {records : List AuditRecord} {keys : List (Nat × Nat)}
    (keyed : Audit.writeKeys records = .ok keys) :
    (keys.map Prod.snd).Nodup ∧
      ∀ address i, (address, i) ∈ keys ↔ ∃ r, WritesAt records i r address := by
  have each := collect_eq_ok.mp keyed
  have same : List.Forall₂ (fun entry key => entry.1.writeAddress = some key.1 ∧ entry.2 = key.2)
      (records.zipIdx.filter (·.1.writeFileOffset.isSome)) keys := by
    refine each.imp fun entry key done => ?_
    obtain ⟨address, found, done⟩ := bind_eq_ok.mp done
    cases done
    exact ⟨expect_eq_ok.mp found, rfl⟩
  constructor
  · have indices : keys.map Prod.snd =
        (records.zipIdx.filter (·.1.writeFileOffset.isSome)).map Prod.snd := by
      rw [← List.forall₂_eq_eq_eq, List.forall₂_map_left_iff, List.forall₂_map_right_iff]
      exact same.flip.imp fun _ _ both => both.2.symm
    rw [indices]
    refine List.Sublist.nodup (List.filter_sublist.map _) ?_
    rw [List.zipIdx_map_snd]
    exact List.nodup_range'
  · intro address i
    constructor
    · intro mem
      obtain ⟨entry, entry_mem, writes, at_i⟩ := exists_of_mem_forall₂ same mem
      obtain ⟨in_records, backed⟩ := List.mem_filter.mp entry_mem
      have found := List.mem_zipIdx_iff_getElem?.mp in_records
      exact ⟨entry.1, by rwa [← show entry.2 = i from at_i], backed, writes⟩
    · rintro ⟨r, found, backed, writes⟩
      have in_records : (r, i) ∈ records.zipIdx.filter (·.1.writeFileOffset.isSome) :=
        List.mem_filter.mpr ⟨List.mk_mem_zipIdx_iff_getElem?.mpr found, backed⟩
      obtain ⟨key, key_mem, writes', at_i⟩ := exists_of_mem_forall₂ same.flip in_records
      rw [show r.writeAddress = some address from writes, Option.some.injEq] at writes'
      rwa [writes', show i = key.2 from at_i]

/-! ### One record -/

namespace Audit

/-- The pass with issues more. -/
def Sweep.told (sweep : Sweep) (issues : List AuditIssue) : Sweep :=
  { sweep with out := { sweep.out with issues := sweep.out.issues ++ issues } }

section Told

variable {sweep : Sweep} {issues : List AuditIssue}

@[simp] theorem Sweep.told_furthest : (sweep.told issues).furthest = sweep.furthest := rfl
@[simp] theorem Sweep.told_lastChain : (sweep.told issues).lastChain = sweep.lastChain := rfl
@[simp] theorem Sweep.told_records : (sweep.told issues).out.records = sweep.out.records := rfl

theorem Sweep.told_nil (sweep : Sweep) : sweep.told [] = sweep := by
  rw [Sweep.told, List.append_nil]

end Told

section Step

variable {audit : Audit} {sweep sweep' : Sweep} {r : AuditRecord} {address i : Nat}

/-- The last chained word, behind a record. -/
def Sweep.lastChainWith (sweep : Sweep) (r : AuditRecord) (address i : Nat) : Option (Nat × Nat) :=
  if isChained r.detail then some (address, i) else sweep.lastChain

theorem duplicateIssue_eq_ok (done : audit.duplicateIssue sweep r address i = .ok sweep') :
    ∃ issues, sweep' = { sweep.told issues with
        lastChain := sweep.lastChainWith r address i } ∧
      Answers (fun other => isChained r.detail = true ∧ sweep.lastChain = some (address, other))
        (fun other => ⟨.duplicateChainVisit, r.imageIndex, some i, some other⟩) issues := by
  unfold duplicateIssue at done
  by_cases chained : isChained r.detail = true
  · rw [if_pos chained] at done
    have last : sweep.lastChainWith r address i = some (address, i) := if_pos chained
    rw [last]
    cases found : sweep.lastChain with
    | none =>
        rw [found] at done
        cases done
        exact ⟨[], by rw [Sweep.told_nil], .inr ⟨by simp, rfl⟩⟩
    | some last =>
        obtain ⟨prior, other⟩ := last
        rw [found] at done
        dsimp only at done
        by_cases same : prior = address
        · subst same
          rw [if_pos rfl] at done
          obtain ⟨out, raised, done⟩ := bind_eq_ok.mp done
          cases done
          rw [of_issue_eq_ok raised]
          exact ⟨_, rfl, .inl ⟨other, ⟨chained, rfl⟩, rfl⟩⟩
        · rw [if_neg same] at done
          cases done
          exact ⟨[], by rw [Sweep.told_nil], .inr ⟨by simp [same], rfl⟩⟩
  · rw [if_neg chained] at done
    cases done
    have last : sweep.lastChainWith r address i = sweep.lastChain := if_neg chained
    rw [last]
    exact ⟨[], by rw [Sweep.told_nil], .inr ⟨fun _ both => chained both.1, rfl⟩⟩

theorem overlapIssue_eq_ok {kind : Bool}
    (done : audit.overlapIssue r address i kind sweep = .ok sweep') :
    ∃ issues, sweep' = sweep.told issues ∧
      Answers (fun other => ∃ far, sweep.furthest kind = some (far, other) ∧ address < far)
        (fun other => ⟨overlapCode kind r, r.imageIndex, some i, some other⟩) issues := by
  unfold overlapIssue at done
  cases found : sweep.furthest kind with
  | none =>
      rw [found] at done
      cases done
      exact ⟨[], (Sweep.told_nil _).symm, .inr ⟨by simp, rfl⟩⟩
  | some last =>
      obtain ⟨far, other⟩ := last
      rw [found] at done
      dsimp only at done
      by_cases past : far > address
      · rw [if_pos past] at done
        obtain ⟨out, raised, done⟩ := bind_eq_ok.mp done
        cases done
        rw [of_issue_eq_ok raised]
        exact ⟨_, rfl, .inl ⟨other, ⟨far, rfl, past⟩, rfl⟩⟩
      · rw [if_neg past] at done
        cases done
        exact ⟨[], (Sweep.told_nil _).symm, .inr ⟨by simp [past], rfl⟩⟩

@[simp] theorem Sweep.reach_out {chained : Bool} {stop : Nat} :
    (sweep.reach chained stop i).out = sweep.out := by
  unfold Sweep.reach
  split
  · split <;> rfl
  · rfl

@[simp] theorem Sweep.reach_lastChain {chained : Bool} {stop : Nat} :
    (sweep.reach chained stop i).lastChain = sweep.lastChain := by
  unfold Sweep.reach
  split
  · split <;> rfl
  · rfl

theorem Sweep.reach_furthest {chained kind : Bool} {stop : Nat} :
    (sweep.reach chained stop i).furthest kind =
      if kind = chained ∧ (sweep.furthest chained).all (·.1 < stop) = true then some (stop, i)
      else sweep.furthest kind := by
  unfold Sweep.reach
  by_cases further : (sweep.furthest chained).all (·.1 < stop) = true
  · rw [if_pos further]
    by_cases same : kind = chained
    · have both : kind = chained ∧ (sweep.furthest chained).all (·.1 < stop) = true :=
        ⟨same, further⟩
      rw [if_pos both, same]
      cases chained <;> rfl
    · have other : ¬ (kind = chained ∧ (sweep.furthest chained).all (·.1 < stop) = true) :=
        fun both => same both.1
      rw [if_neg other]
      cases chained <;> cases kind <;> first | rfl | exact absurd rfl same
  · rw [if_neg further, if_neg fun both => further both.2]

end Step

/-! ### What the pass has met -/

/-- Where the record at an index starts to write. -/
def startAt (records : List AuditRecord) (i : Nat) : Nat :=
  (records[i]?.bind (·.writeAddress)).getD 0

/-- Where the record at an index stops. -/
def stopAt (records : List AuditRecord) (i : Nat) : Nat :=
  startAt records i + (records[i]?.map (·.width)).getD 0

/-- The record at an index is of the mechanism. -/
def OfMechanism (records : List AuditRecord) (chained : Bool) (i : Nat) : Prop :=
  ∃ r, records[i]? = some r ∧ isChained r.detail = chained

/-- What the pass carries, of the records that it has met. -/
structure Met (records : List AuditRecord) (met : List Nat) (sweep : Sweep) : Prop where
  kept : sweep.out.records = records
  furthest : ∀ chained,
    Furthest (stopAt records) (OfMechanism records chained) met (sweep.furthest chained)
  lastChain : Furthest (startAt records) (OfMechanism records true) met sweep.lastChain

/-- The places of the records that write to the file, in their order. -/
structure Ordered (records : List AuditRecord) (places : List (Nat × Nat)) : Prop where
  mem_iff : ∀ address i, (address, i) ∈ places ↔ ∃ r, WritesAt records i r address
  sorted : places.Pairwise PairLt
  wide : ∀ i r address, WritesAt records i r address → 0 < r.width

section Order

variable {records : List AuditRecord} {front rest : List (Nat × Nat)} {r : AuditRecord}
  {address i : Nat}

theorem startAt_eq (writes : WritesAt records i r address) : startAt records i = address := by
  obtain ⟨found, _, at_address⟩ := writes
  rw [startAt, found, Option.bind_some, at_address, Option.getD_some]

theorem stopAt_eq (writes : WritesAt records i r address) :
    stopAt records i = address + r.width := by
  rw [stopAt, startAt_eq writes, writes.1, Option.map_some, Option.getD_some]

theorem ofMechanism_iff (writes : WritesAt records i r address) {chained : Bool} :
    OfMechanism records chained i ↔ isChained r.detail = chained := by
  constructor
  · rintro ⟨r', found, kind⟩
    rw [writes.1] at found
    cases found
    exact kind
  · intro kind
    exact ⟨r, writes.1, kind⟩

/-- The records before a place are those that the pass has met there. -/
theorem Ordered.mem_front_iff (ordered : Ordered records (front ++ (address, i) :: rest))
    {other : Nat} : other ∈ front.map Prod.snd ↔
      ∃ a x, WritesAt records other a x ∧ PairLt (x, other) (address, i) := by
  constructor
  · intro mem
    obtain ⟨⟨x, _⟩, inFront, rfl⟩ := List.mem_map.mp mem
    have placed := List.mem_append_left ((address, i) :: rest) inFront
    obtain ⟨a, writes⟩ := (ordered.mem_iff x _).mp placed
    exact ⟨a, x, writes, (Checked.mem_front_iff ordered.sorted placed).mp inFront⟩
  · rintro ⟨a, x, writes, before⟩
    have placed := (ordered.mem_iff x other).mpr ⟨a, writes⟩
    exact List.mem_map.mpr ⟨_, (Checked.mem_front_iff ordered.sorted placed).mpr before, rfl⟩

/-- A record that comes before another one writes to its bytes when it stops behind its start. -/
theorem Ordered.runsInto_iff (ordered : Ordered records (front ++ (address, i) :: rest))
    (writes : WritesAt records i r address) {chained : Bool} {other : Nat} :
    RunsInto records chained i other ↔ other ∈ front.map Prod.snd ∧
      OfMechanism records chained other ∧ address < stopAt records other := by
  have wide := ordered.wide i r address writes
  constructor
  · rintro ⟨a, x, b, y, writes_a, writes_b, kind, before, shared⟩
    have same_place := (startAt_eq writes_b).symm.trans (startAt_eq writes)
    obtain rfl : y = address := same_place
    refine ⟨ordered.mem_front_iff.mpr ⟨a, x, writes_a, before⟩,
      (ofMechanism_iff writes_a).mpr kind, ?_⟩
    rw [stopAt_eq writes_a]
    by_contra behind
    refine shared (Set.disjoint_left.mpr fun byte inside => ?_)
    exact Span.Apart.not_mem (.inl (Nat.le_of_not_lt behind)) inside
  · rintro ⟨met, kind, past⟩
    obtain ⟨a, x, writes_a, before⟩ := ordered.mem_front_iff.mp met
    rw [stopAt_eq writes_a] at past
    have le : x ≤ address := before.elim Nat.le_of_lt fun both => both.1.le
    refine ⟨a, x, r, address, writes_a, writes, (ofMechanism_iff writes_a).mp kind, before, ?_⟩
    exact Set.not_disjoint_iff.mpr
      ⟨address, ⟨le, past⟩, ⟨Nat.le_refl _, Nat.lt_add_of_pos_right wide⟩⟩

theorem Ordered.repeats_iff (ordered : Ordered records (front ++ (address, i) :: rest))
    (writes : WritesAt records i r address) {other : Nat} :
    Repeats records i other ↔ isChained r.detail = true ∧ other ∈ front.map Prod.snd ∧
      OfMechanism records true other ∧ startAt records other = address := by
  constructor
  · rintro ⟨a, b, x, writes_a, writes_b, kind_a, kind_b, before⟩
    have same_place := (startAt_eq writes_b).symm.trans (startAt_eq writes)
    obtain rfl : x = address := same_place
    have found := writes.1
    rw [writes_b.1, Option.some.injEq] at found
    subst found
    exact ⟨kind_b, ordered.mem_front_iff.mpr ⟨a, x, writes_a, .inr ⟨rfl, before⟩⟩,
      (ofMechanism_iff writes_a).mpr kind_a, startAt_eq writes_a⟩
  · rintro ⟨kind, met, kind_a, starts⟩
    obtain ⟨a, x, writes_a, before⟩ := ordered.mem_front_iff.mp met
    rw [startAt_eq writes_a] at starts
    subst starts
    refine ⟨a, r, x, writes_a, writes, (ofMechanism_iff writes_a).mp kind_a, kind, ?_⟩
    exact before.elim (fun lt => absurd lt (Nat.lt_irrefl _)) And.right

end Order

/-! ### The pass -/

section Pass

variable {audit : Audit} {records : List AuditRecord} {front rest : List (Nat × Nat)}
  {r : AuditRecord} {address i : Nat} {sweep sweep' : Sweep} {issue : Nat → AuditIssue}
  {issues : List AuditIssue}

/-- The furthest record of a mechanism answers for all of them. -/
theorem answers_runsInto (ordered : Ordered records (front ++ (address, i) :: rest))
    (met : Met records (front.map Prod.snd) sweep) (writes : WritesAt records i r address)
    {chained : Bool}
    (answers : Answers
      (fun other => ∃ far, sweep.furthest chained = some (far, other) ∧ address < far) issue
      issues) :
    Answers (RunsInto records chained i) issue issues := by
  have furthest := met.furthest chained
  refine answers.imp ?_ ?_
  · rintro other ⟨far, last, past⟩
    rw [last] at furthest
    obtain ⟨mem, kind, far_eq, _⟩ := furthest
    exact (ordered.runsInto_iff writes).mpr ⟨mem, kind, by rwa [far_eq]⟩
  · intro other hit
    obtain ⟨mem, kind, past⟩ := (ordered.runsInto_iff writes).mp hit
    obtain ⟨last, at_last, past⟩ := furthest.past_iff.mp ⟨other, mem, kind, past⟩
    exact ⟨last.2, last.1, at_last, past⟩

/-- The last chained word answers for all of them. -/
theorem answers_repeats (ordered : Ordered records (front ++ (address, i) :: rest))
    (met : Met records (front.map Prod.snd) sweep) (writes : WritesAt records i r address)
    (answers : Answers
      (fun other => isChained r.detail = true ∧ sweep.lastChain = some (address, other)) issue
      issues) :
    Answers (Repeats records i) issue issues := by
  have lastChain := met.lastChain
  refine answers.imp ?_ ?_
  · rintro other ⟨kind, last⟩
    rw [last] at lastChain
    obtain ⟨mem, kind', starts, _⟩ := lastChain
    exact (ordered.repeats_iff writes).mpr ⟨kind, mem, kind', starts⟩
  · intro other hit
    obtain ⟨kind, mem, kind', starts⟩ := (ordered.repeats_iff writes).mp hit
    cases found : sweep.lastChain with
    | none =>
        rw [found] at lastChain
        exact absurd kind' (lastChain other mem)
    | some last =>
        rw [found] at lastChain
        obtain ⟨last_mem, _, last_starts, most⟩ := lastChain
        -- The last word starts no earlier than the other one, and no later than this record.
        have least := most other mem kind'
        obtain ⟨a, x, writes_a, before⟩ := ordered.mem_front_iff.mp last_mem
        rw [startAt_eq writes_a] at last_starts
        have le : x ≤ address := before.elim Nat.le_of_lt fun both => both.1.le
        have same : last.1 = address := by omega
        exact ⟨last.2, kind, by rw [← same]⟩

/-- One round of the pass. -/
theorem sweepRecord_told {p : Nat × Nat} (ordered : Ordered records (front ++ p :: rest))
    (met : Met records (front.map Prod.snd) sweep) (done : audit.sweepRecord sweep p = .ok sweep') :
    ∃ issues, PlaceTold records p issues ∧
      sweep'.out = { sweep.out with issues := sweep.out.issues ++ issues } ∧
      Met records ((front ++ [p]).map Prod.snd) sweep' := by
  obtain ⟨address, i⟩ := p
  have placed : (address, i) ∈ front ++ (address, i) :: rest :=
    List.mem_append_right _ List.mem_cons_self
  obtain ⟨r, writes⟩ := (ordered.mem_iff address i).mp placed
  rw [sweepRecord, met.kept, writes.1, expect_some, bind_ok, writes.2.2, expect_some,
    bind_ok] at done
  obtain ⟨stop, stop_eq, done⟩ := bind_eq_ok.mp done
  obtain ⟨_, rfl⟩ := addWord_eq_ok.mp stop_eq
  obtain ⟨_, first, done⟩ := bind_eq_ok.mp done
  obtain ⟨repeated, rfl, repeated_told⟩ := duplicateIssue_eq_ok first
  obtain ⟨_, second, done⟩ := bind_eq_ok.mp done
  obtain ⟨classic, rfl, classic_told⟩ := overlapIssue_eq_ok second
  obtain ⟨_, third, done⟩ := bind_eq_ok.mp done
  obtain ⟨chained, rfl, chained_told⟩ := overlapIssue_eq_ok third
  cases done
  refine ⟨repeated ++ classic ++ chained, ⟨r, writes, repeated, classic, chained, rfl, ?_, ?_, ?_⟩,
    ?_, ?_⟩
  · exact answers_repeats ordered met writes repeated_told
  · exact answers_runsInto ordered met writes classic_told
  · exact answers_runsInto ordered met writes chained_told
  · rw [Sweep.reach_out]
    simp only [Sweep.told, List.append_assoc]
  · rw [List.map_append]
    refine ⟨?_, fun kind => ?_, ?_⟩
    · rw [Sweep.reach_out]
      exact met.kept
    · rw [Sweep.reach_furthest]
      by_cases same : kind = isChained r.detail
      · have next := (met.furthest kind).next ((ofMechanism_iff writes).mpr same.symm)
        rw [stopAt_eq writes] at next
        rw [← same]
        simp only [true_and]
        exact next
      · rw [if_neg fun both => same both.1]
        exact (met.furthest kind).other fun of => same ((ofMechanism_iff writes).mp of).symm
    · rw [Sweep.reach_lastChain]
      change Furthest _ _ _ (sweep.lastChainWith r address i)
      by_cases kind : isChained r.detail = true
      · rw [Sweep.lastChainWith, if_pos kind, ← startAt_eq writes]
        refine furthest_append ((ofMechanism_iff writes).mpr kind) fun j mem _ => ?_
        obtain ⟨a, x, writes_a, before⟩ := ordered.mem_front_iff.mp mem
        rw [startAt_eq writes_a, startAt_eq writes]
        exact before.elim Nat.le_of_lt fun both => both.1.le
      · rw [Sweep.lastChainWith, if_neg kind]
        exact met.lastChain.other fun of => kind ((ofMechanism_iff writes).mp of)

/-- The rest of the pass, from a place on. -/
theorem sweep_told (ordered : Ordered records (front ++ rest))
    (met : Met records (front.map Prod.snd) sweep)
    (done : rest.foldlM audit.sweepRecord sweep = .ok sweep') :
    ∃ issues, InTurn (PlaceTold records) rest issues ∧
      sweep'.out = { sweep.out with issues := sweep.out.issues ++ issues } := by
  induction rest generalizing front sweep with
  | nil =>
      cases done
      exact ⟨[], .nil, by rw [List.append_nil]⟩
  | cons p rest ih =>
      rw [List.foldlM_cons] at done
      obtain ⟨next, now, later⟩ := bind_eq_ok.mp done
      obtain ⟨issues, told, out_eq, met_next⟩ := sweepRecord_told ordered met now
      have ordered_next : Ordered records ((front ++ [p]) ++ rest) := by
        rwa [List.append_assoc, List.singleton_append]
      obtain ⟨issues', told', out_eq'⟩ := ih ordered_next met_next later
      refine ⟨issues ++ issues', .cons told told', ?_⟩
      rw [out_eq', out_eq]
      simp only [List.append_assoc]

end Pass

/-- Counts, with those of the issues of a list. -/
def countIssues (issues : List AuditIssue) (counts : List IssueCount) : List IssueCount :=
  issues.foldl (fun counts issue => countIssue issue.code counts) counts

/-- The whole pass: what it tells of each record, in their order. -/
theorem overlaps_told {audit : Audit} {out out' : KcFixupAudit}
    (wide : ∀ i r address, WritesAt out.records i r address → 0 < r.width)
    (done : audit.overlaps out = .ok out') :
    ∃ places issues, Ordered out.records places ∧ (places.map Prod.snd).Nodup ∧
      InTurn (PlaceTold out.records) places issues ∧ out' = { out with
        issues := out.issues ++ issues
        summary := { out.summary with
          issueCounts := countIssues (out.issues ++ issues) out.summary.issueCounts } } := by
  obtain ⟨keys, keyed, done⟩ := bind_eq_ok.mp done
  obtain ⟨sweep, swept, done⟩ := bind_eq_ok.mp done
  obtain ⟨nodup, mem_iff⟩ := writeKeys_eq_ok keyed
  have ordered : Ordered out.records ([] ++ sortPairs keys) :=
    { mem_iff := fun address i => by
        rw [List.nil_append, (perm_sortPairs keys).mem_iff, mem_iff]
      sorted := pairwise_lt_sortPairs nodup
      wide := wide }
  have start : Met out.records (([] : List (Nat × Nat)).map Prod.snd) ⟨none, none, none, out⟩ :=
    { kept := rfl
      furthest := fun chained => by cases chained <;> exact furthest_nil
      lastChain := furthest_nil }
  obtain ⟨issues, told, out_eq⟩ := sweep_told ordered start swept
  refine ⟨sortPairs keys, issues, ordered,
    (((perm_sortPairs keys).map Prod.snd).nodup_iff).mpr nodup, told, ?_⟩
  cases done
  rw [out_eq]
  rfl

end Audit

/-! ### What was found -/

/-- The issues of a code that name the record at an index. -/
def named (issues : List AuditIssue) (code : IssueCode) (i : Nat) : List AuditIssue :=
  issues.filter fun s => s.code = code ∧ s.recordIndex = some i

/-- What the pass has found: of every record that writes to the file, one issue for each mechanism
that an earlier record runs into it with, one for a chained word at an address twice, and no
other. -/
structure Swept (records : List AuditRecord) (issues : List AuditIssue) : Prop where
  overlap : ∀ i r address, WritesAt records i r address → ∀ chained,
    Answers (RunsInto records chained i)
      (fun other => ⟨overlapCode chained r, r.imageIndex, some i, some other⟩)
      (named issues (overlapCode chained r) i)
  duplicate : ∀ i r address, WritesAt records i r address →
    Answers (Repeats records i)
      (fun other => ⟨.duplicateChainVisit, r.imageIndex, some i, some other⟩)
      (named issues .duplicateChainVisit i)
  only : ∀ s ∈ issues, ∃ i r address, WritesAt records i r address ∧ s.recordIndex = some i ∧
    (s.code = .duplicateChainVisit ∨ ∃ chained, s.code = overlapCode chained r)
  disjoint_iff : (∀ s ∈ issues, s.code ≠ .sameMechanismWriteOverlap ∧
      s.code ≠ .crossMechanismWriteOverlap) ↔
    ∀ i j a b x y, WritesAt records i a x → WritesAt records j b y → i ≠ j →
      Disjoint (Span.mk x a.width).bytes (Span.mk y b.width).bytes

theorem overlapCode_true_ne (r : AuditRecord) : overlapCode true r ≠ overlapCode false r := by
  unfold overlapCode
  cases Audit.isChained r.detail <;> simp

theorem overlapCode_ne_duplicate (chained : Bool) (r : AuditRecord) :
    overlapCode chained r ≠ .duplicateChainVisit := by
  unfold overlapCode
  split <;> simp

theorem overlapCode_cases (chained : Bool) (r : AuditRecord) :
    overlapCode chained r = .sameMechanismWriteOverlap ∨
      overlapCode chained r = .crossMechanismWriteOverlap := by
  unfold overlapCode
  split
  · exact .inl rfl
  · exact .inr rfl

section Named

variable {hits : Nat → Prop} {issue : Nat → AuditIssue} {issues : List AuditIssue}
  {code : IssueCode} {i : Nat}

theorem Answers.mem (answers : Answers hits issue issues) {s : AuditIssue} (mem : s ∈ issues) :
    ∃ other, hits other ∧ s = issue other := by
  rcases answers with ⟨other, hit, rfl⟩ | ⟨_, rfl⟩
  · exact ⟨other, hit, List.mem_singleton.mp mem⟩
  · cases mem

theorem Answers.named_self (answers : Answers hits issue issues)
    (code_eq : ∀ other, (issue other).code = code)
    (index_eq : ∀ other, (issue other).recordIndex = some i) : named issues code i = issues := by
  refine List.filter_eq_self.mpr fun s mem => ?_
  obtain ⟨other, _, rfl⟩ := answers.mem mem
  exact decide_eq_true ⟨code_eq other, index_eq other⟩

theorem Answers.named_other (answers : Answers hits issue issues)
    (code_ne : ∀ other, (issue other).code ≠ code) : named issues code i = [] := by
  refine List.filter_eq_nil_iff.mpr fun s mem => ?_
  obtain ⟨other, _, rfl⟩ := answers.mem mem
  rw [decide_eq_true_eq]
  exact fun both => code_ne other both.1

theorem named_append (issues issues' : List AuditIssue) :
    named (issues ++ issues') code i = named issues code i ++ named issues' code i :=
  List.filter_append ..

end Named

section Found

variable {records : List AuditRecord} {places : List (Nat × Nat)} {issues : List AuditIssue}

/-- What is told of a place names the record there. -/
theorem PlaceTold.mem {place : Nat × Nat} (told : PlaceTold records place issues) {s : AuditIssue}
    (mem : s ∈ issues) : s.recordIndex = some place.2 ∧ ∃ r, WritesAt records place.2 r place.1 ∧
      (s.code = .duplicateChainVisit ∨ ∃ chained other, s.code = overlapCode chained r ∧
        RunsInto records chained place.2 other) := by
  obtain ⟨r, writes, repeated, classic, chained, rfl, repeats, runs, runs'⟩ := told
  rcases List.mem_append.mp mem with mem | mem
  · rcases List.mem_append.mp mem with mem | mem
    · obtain ⟨other, _, rfl⟩ := repeats.mem mem
      exact ⟨rfl, r, writes, .inl rfl⟩
    · obtain ⟨other, hit, rfl⟩ := runs.mem mem
      exact ⟨rfl, r, writes, .inr ⟨false, other, rfl, hit⟩⟩
  · obtain ⟨other, hit, rfl⟩ := runs'.mem mem
    exact ⟨rfl, r, writes, .inr ⟨true, other, rfl, hit⟩⟩

/-- The issues of a code that name a record are what is told of its place. -/
theorem named_eq (ordered : Audit.Ordered records places) (nodup : (places.map Prod.snd).Nodup)
    (turns : InTurn (PlaceTold records) places issues) {i address : Nat} {r : AuditRecord}
    (writes : WritesAt records i r address) (code : IssueCode) :
    ∃ part, PlaceTold records (address, i) part ∧ named issues code i = named part code i := by
  have placed := (ordered.mem_iff address i).mpr ⟨r, writes⟩
  refine turns.filter_eq nodup.of_map placed fun place mem ne part told => ?_
  refine List.filter_eq_nil_iff.mpr fun s inside => ?_
  rw [decide_eq_true_eq, (told.mem inside).1, Option.some.injEq]
  exact fun both => ne (List.inj_on_of_nodup_map nodup mem placed both.2)

/-- Of a record and a mechanism there is one overlap issue, or none. -/
theorem answers_overlap (ordered : Audit.Ordered records places)
    (nodup : (places.map Prod.snd).Nodup) (turns : InTurn (PlaceTold records) places issues)
    {i address : Nat} {r : AuditRecord} (writes : WritesAt records i r address) (chained : Bool) :
    Answers (RunsInto records chained i)
      (fun other => ⟨overlapCode chained r, r.imageIndex, some i, some other⟩)
      (named issues (overlapCode chained r) i) := by
  obtain ⟨part, ⟨r', writes', repeated, classic, word, rfl, repeats, runs, runs'⟩, same⟩ :=
    named_eq ordered nodup turns writes (overlapCode chained r)
  have same_record := writes'.1.symm.trans writes.1
  cases same_record
  rw [same, named_append, named_append,
    repeats.named_other fun _ => (overlapCode_ne_duplicate chained r).symm]
  cases chained with
  | false =>
      have kept : named classic (overlapCode false r) i = classic :=
        runs.named_self (fun _ => rfl) fun _ => rfl
      rw [kept, runs'.named_other fun _ => overlapCode_true_ne r, List.append_nil]
      exact runs
  | true =>
      have kept : named word (overlapCode true r) i = word :=
        runs'.named_self (fun _ => rfl) fun _ => rfl
      rw [kept, runs.named_other fun _ => (overlapCode_true_ne r).symm]
      exact runs'

/-- Of a record there is one issue for a second visit, or none. -/
theorem answers_duplicate (ordered : Audit.Ordered records places)
    (nodup : (places.map Prod.snd).Nodup) (turns : InTurn (PlaceTold records) places issues)
    {i address : Nat} {r : AuditRecord} (writes : WritesAt records i r address) :
    Answers (Repeats records i)
      (fun other => ⟨.duplicateChainVisit, r.imageIndex, some i, some other⟩)
      (named issues .duplicateChainVisit i) := by
  obtain ⟨part, ⟨r', writes', repeated, classic, word, rfl, repeats, runs, runs'⟩, same⟩ :=
    named_eq ordered nodup turns writes .duplicateChainVisit
  have same_record := writes'.1.symm.trans writes.1
  cases same_record
  rw [same, named_append, named_append, repeats.named_self (fun _ => rfl) fun _ => rfl,
    runs.named_other fun _ => overlapCode_ne_duplicate false r,
    runs'.named_other fun _ => overlapCode_ne_duplicate true r, List.append_nil, List.append_nil]
  exact repeats

/-- Where no overlap issue is told, the writes are apart. -/
theorem apart_of_clean (ordered : Audit.Ordered records places)
    (nodup : (places.map Prod.snd).Nodup) (turns : InTurn (PlaceTold records) places issues)
    (clean : ∀ s ∈ issues, s.code ≠ .sameMechanismWriteOverlap ∧
      s.code ≠ .crossMechanismWriteOverlap) {i j x y : Nat} {a b : AuditRecord}
    (writes : WritesAt records i a x) (writes' : WritesAt records j b y) (ne : i ≠ j) :
    Disjoint (Span.mk x a.width).bytes (Span.mk y b.width).bytes := by
  have apart : ∀ i j a b x y, WritesAt records i a x → WritesAt records j b y →
      PairLt (x, i) (y, j) → Disjoint (Span.mk x a.width).bytes (Span.mk y b.width).bytes := by
    intro i j a b x y writes writes' before
    by_contra shared
    rcases answers_overlap ordered nodup turns writes' (Audit.isChained a.detail) with
      ⟨other, _, found⟩ | ⟨none, _⟩
    · have mem : _ ∈ named issues (overlapCode (Audit.isChained a.detail) b) j :=
        found ▸ List.mem_singleton.mpr rfl
      have told := clean _ (List.mem_filter.mp mem).1
      exact (overlapCode_cases (Audit.isChained a.detail) b).elim told.1 told.2
    · exact none i ⟨a, x, b, y, writes, writes', rfl, before, shared⟩
  have either : PairLt (x, i) (y, j) ∨ PairLt (y, j) (x, i) := by
    simp only [PairLt]
    omega
  rcases either with before | before
  · exact apart i j a b x y writes writes' before
  · exact (apart j i b a y x writes' writes before).symm

/-- An issue about two records stands for bytes that both write. -/
theorem clean_of_apart (turns : InTurn (PlaceTold records) places issues)
    (apart : ∀ i j a b x y, WritesAt records i a x → WritesAt records j b y → i ≠ j →
      Disjoint (Span.mk x a.width).bytes (Span.mk y b.width).bytes) :
    ∀ s ∈ issues, s.code ≠ .sameMechanismWriteOverlap ∧ s.code ≠ .crossMechanismWriteOverlap := by
  intro s mem
  obtain ⟨place, _, part, told, inside⟩ := turns.exists_of_mem mem
  obtain ⟨_, r, _, code | ⟨chained, other, _, a, x, b, y, writes, writes', _, before, shared⟩⟩ :=
    told.mem inside
  · simp [code]
  · refine absurd (apart other place.2 a b x y writes writes' ?_) shared
    rintro rfl
    have same := (Audit.startAt_eq writes).symm.trans (Audit.startAt_eq writes')
    obtain rfl : x = y := same
    exact before.asymm before

theorem swept_of_told (ordered : Audit.Ordered records places)
    (nodup : (places.map Prod.snd).Nodup) (turns : InTurn (PlaceTold records) places issues) :
    Swept records issues where
  overlap := fun _ _ _ writes chained => answers_overlap ordered nodup turns writes chained
  duplicate := fun _ _ _ writes => answers_duplicate ordered nodup turns writes
  only := by
    intro s mem
    obtain ⟨place, _, part, told, inside⟩ := turns.exists_of_mem mem
    obtain ⟨index, r, writes, code⟩ := told.mem inside
    exact ⟨place.2, r, place.1, writes, index, code.imp_right fun ⟨chained, _, code, _⟩ =>
      ⟨chained, code⟩⟩
  disjoint_iff := by
    constructor
    · intro clean i j a b x y writes writes' ne
      exact apart_of_clean ordered nodup turns clean writes writes' ne
    · exact clean_of_apart turns

/-- The pass is sound and complete: what it appends to the issues says of each record exactly which
earlier ones it meets, whatever the records are. -/
theorem overlaps_exact {audit : Audit} {out out' : KcFixupAudit}
    (wide : ∀ r ∈ out.records, 0 < r.width) (done : audit.overlaps out = .ok out') :
    ∃ issues, out'.issues = out.issues ++ issues ∧ out'.records = out.records ∧
      Swept out.records issues := by
  obtain ⟨places, issues, ordered, nodup, turns, rfl⟩ :=
    Audit.overlaps_told (fun i r _ writes => wide r (List.mem_of_getElem? writes.1)) done
  exact ⟨issues, rfl, rfl, swept_of_told ordered nodup turns⟩

end Found

end Nextcore.FixupAudit
