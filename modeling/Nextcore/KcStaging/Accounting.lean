import Nextcore.KcStaging.Staged
import Nextcore.Lib.Covered

/-!
What the counts of a verification count.

The counts are compared with sets of arena offsets, which are read off the inspection
(`offsetsOf`). The pass over the arena adds sizes up, and the segments are apart; the pass over
the member views counts on from how far it has come, and the views are in order of their starts
(`tally_of_passViews`).
-/

namespace Nextcore.KcStaging

open Checked Checked.Outcome Checked.Exec
open KernelCollection

/-! ### What is counted -/

/-- The addresses of the file bytes of a segment. -/
def fileMemory (s : SegmentMetadata) : Span := ⟨s.address, s.file.size⟩

/-- The addresses of the header and the load commands of an image. -/
def headerMemory (image : ImageMetadata) : Span :=
  ⟨image.headerAddress, 32 + image.commandBytes⟩

/-- The file-backed addresses of a member. -/
def memberMemory (member : FilesetMember) : List Span :=
  headerMemory member.image :: member.image.segments.map fileMemory

/-- The arena offsets of the addresses that some span covers. -/
def KcStagingPlan.offsetsOf (plan : KcStagingPlan) (spans : List Span) : Set Nat :=
  {i | plan.minimumVirtualAddress + i ∈ Span.covered spans}

/-- The addresses that some span covers are those of the arena. -/
def KcStagingPlan.Holds (plan : KcStagingPlan) (spans : List Span) : Prop :=
  ∀ a ∈ Span.covered spans,
    plan.minimumVirtualAddress ≤ a ∧ a < plan.minimumVirtualAddress + plan.arenaSize

/-- The counts of a verification are those of the arena offsets in the file bytes of the outer
segments, in their memory behind these, and in none of them; of the members; and of the arena
offsets in the file-backed bytes of some member. -/
structure Accounted (plan : KcStagingPlan) (counts : StagingVerification) : Prop where
  arena : counts.arenaBytes = plan.arenaSize
  partition : counts.arenaBytes = counts.copiedBytes + counts.zeroTailBytes + counts.holeBytes
  outerHeld : plan.Holds (plan.inspection.collection.segments.map (·.memory))
  copied : counts.copiedBytes =
    (plan.offsetsOf (plan.inspection.collection.segments.map fileMemory)).ncard
  zeroTail : counts.zeroTailBytes =
    (plan.offsetsOf (plan.inspection.collection.segments.map (·.memory)) \
      plan.offsetsOf (plan.inspection.collection.segments.map fileMemory)).ncard
  hole : counts.holeBytes = (Set.Iio plan.arenaSize \
    plan.offsetsOf (plan.inspection.collection.segments.map (·.memory))).ncard
  headers : counts.memberHeadersChecked = plan.inspection.members.length
  membersHeld : plan.Holds (plan.inspection.members.flatMap memberMemory)
  compared : counts.memberFileBytesCompared =
    (plan.offsetsOf (plan.inspection.members.flatMap memberMemory)).ncard

/-! ### The two passes -/

/-- The arena offsets of the file bytes of a view. -/
def MemberView.file (view : MemberView) : Span := ⟨view.destinationOffset, view.fileSize⟩

/-- The arena offsets of the file bytes of a mapping. -/
def StagingSegment.file (s : StagingSegment) : Span := ⟨s.destinationOffset, s.fileSize⟩

section Passes

variable [Target] {source destination : Bytes}

/-- A view is counted from where the views before it have come to. -/
theorem tally_of_passView {pass next : MemberPass} {view : MemberView}
    (passed : passView source destination pass view = .ok next) :
    (⟨next.fileBytesCompared, next.coveredEnd⟩ : Span.Tally) =
        Span.Tally.next ⟨pass.fileBytesCompared, pass.coveredEnd⟩ view.file ∧
      next.headersChecked = pass.headersChecked + if view.isHeader then 1 else 0 := by
  rw [passView] at passed
  iterate 2 obtain ⟨_, _, passed⟩ := bind_eq_ok.mp passed
  obtain ⟨_, sum, passed⟩ := bind_eq_ok.mp passed
  obtain ⟨_, rfl⟩ := add_eq_ok.mp sum
  obtain ⟨compared, counted, passed⟩ := bind_eq_ok.mp passed
  have fresh : compared = pass.fileBytesCompared +
      (view.destinationOffset + view.fileSize - max pass.coveredEnd view.destinationOffset) := by
    rw [compareView] at counted
    split at counted
    · iterate 7 obtain ⟨_, _, counted⟩ := bind_eq_ok.mp counted
      obtain ⟨_, left, counted⟩ := bind_eq_ok.mp counted
      obtain ⟨_, rfl⟩ := sub_eq_ok.mp left
      exact (checkedAdd_eq_some.mp (ofOption_eq_ok.mp counted)).2.symm
    · next covered =>
        cases counted
        rw [Nat.sub_eq_zero_of_le (Nat.le_of_not_lt covered), Nat.add_zero]
  have tally : (⟨compared, max pass.coveredEnd (view.destinationOffset + view.fileSize)⟩ :
      Span.Tally) = Span.Tally.next ⟨pass.fileBytesCompared, pass.coveredEnd⟩ view.file := by
    rw [fresh]
    rfl
  dsimp only at passed
  split at passed
  · next header =>
      obtain ⟨_, sum, passed⟩ := bind_eq_ok.mp passed
      obtain ⟨_, rfl⟩ := add_eq_ok.mp sum
      cases passed
      exact ⟨tally, by rw [if_pos header]⟩
  · next header =>
      obtain ⟨_, _, passed⟩ := bind_eq_ok.mp passed
      cases passed
      exact ⟨tally, by rw [if_neg header, Nat.add_zero]⟩

theorem tally_of_passViews {views : List MemberView} {pass final : MemberPass}
    (passed : views.foldlM (passView source destination) pass = .ok final) :
    (⟨final.fileBytesCompared, final.coveredEnd⟩ : Span.Tally) =
        (views.map MemberView.file).foldl Span.Tally.next
          ⟨pass.fileBytesCompared, pass.coveredEnd⟩ ∧
      final.headersChecked = pass.headersChecked + views.countP (·.isHeader) := by
  induction views generalizing pass with
  | nil =>
      cases passed
      exact ⟨rfl, rfl⟩
  | cons view rest ih =>
      rw [List.foldlM_cons] at passed
      obtain ⟨next, first, others⟩ := bind_eq_ok.mp passed
      obtain ⟨tally, headers⟩ := tally_of_passView first
      obtain ⟨tally', headers'⟩ := ih others
      rw [List.map_cons, List.foldl_cons, List.countP_cons, ← tally]
      exact ⟨tally', by omega⟩

/-- The counts of a verification are those of its two passes. -/
theorem verifyObserved_eq_ok {plan : KcStagingPlan} {s : Staging} {counts : StagingVerification}
    (verified : (plan.verifyObserved.on s).1 = .ok counts) :
    s.destination.length = plan.arenaSize ∧ ∃ sweep pass,
      verifyArena plan s.destination = .ok sweep ∧ verifyMembers plan s.destination = .ok pass ∧
        counts = ⟨plan.arenaSize, sweep.copiedBytes, sweep.zeroTailBytes, sweep.holeBytes,
          pass.headersChecked, pass.segmentViewsChecked, pass.fileBytesCompared⟩ := by
  generalize ran : plan.verifyObserved.on s = out at verified
  obtain ⟨result, after⟩ := out
  cases verified
  obtain ⟨_, sized, rest⟩ := on_look_bind_eq_ok.mp ran
  obtain ⟨sweep, swept, rest⟩ := on_look_bind_eq_ok.mp rest
  have rest := on_write_bind_eq_ok.mp rest
  obtain ⟨pass, passed, rest⟩ := on_look_bind_eq_ok.mp rest
  have rest := on_write_bind_eq_ok.mp rest
  cases rest
  exact ⟨not_not.mp (rejectIf_eq_ok.mp sized), sweep, pass, swept, passed, rfl⟩

end Passes

/-! ### The sets -/

/-- Spans of addresses and their places in the arena. -/
structure Relocated (base size : Nat) (spans offsets : List Span) : Prop where
  there : ∀ s ∈ spans, 0 < s.size → base ≤ s.start ∧ s.stop ≤ base + size ∧
    (⟨s.start - base, s.size⟩ : Span) ∈ offsets
  back : ∀ o ∈ offsets, ∃ s ∈ spans, base ≤ s.start ∧ o = ⟨s.start - base, s.size⟩

theorem Relocated.holds {plan : KcStagingPlan} {spans offsets : List Span}
    (relocated : Relocated plan.minimumVirtualAddress plan.arenaSize spans offsets) :
    plan.Holds spans := by
  rintro a ⟨s, mem, low, high⟩
  rw [Span.stop] at high
  obtain ⟨above, below, _⟩ := relocated.there s mem (by omega)
  rw [Span.stop] at below
  exact ⟨above.trans low, by omega⟩

theorem Relocated.offsetsOf {plan : KcStagingPlan} {spans offsets : List Span}
    (relocated : Relocated plan.minimumVirtualAddress plan.arenaSize spans offsets) :
    plan.offsetsOf spans = Span.covered offsets := by
  ext i
  constructor
  · rintro ⟨s, mem, low, high⟩
    rw [Span.stop] at high
    obtain ⟨above, _, placed⟩ := relocated.there s mem (by omega)
    refine ⟨_, placed, ?_, ?_⟩
    · dsimp only
      omega
    · rw [Span.stop_mk]
      omega
  · rintro ⟨o, mem, low, high⟩
    obtain ⟨s, s_mem, above, rfl⟩ := relocated.back o mem
    rw [Span.stop_mk] at high
    dsimp only at low
    refine ⟨s, s_mem, by omega, ?_⟩
    rw [Span.stop]
    omega

section Plans

variable {source : Bytes} {page first last : Nat} {plan : KcStagingPlan}

/-- The outer segments that take memory are the mappings. -/
theorem Planned.mem_segments (planned : Planned source page first last plan)
    {o : StagingSegment} : o ∈ plan.segments ↔
      ∃ i, ∃ s, plan.inspection.collection.segments[i]? = some s ∧ s.memorySize ≠ 0 ∧
        placed plan.minimumVirtualAddress (s, i) = o := by
  rw [planned.layout.segments.mem_iff, planned.layout.minimum]
  exact mem_placedSegments

/-- A part of each mapping, from its start on, is that part of its segment. -/
theorem Planned.relocated_outer (planned : Planned source page first last plan)
    (positive : 0 < page) {size : SegmentMetadata → Nat} {size' : StagingSegment → Nat}
    (same : ∀ s i, size' (placed plan.minimumVirtualAddress (s, i)) = size s)
    (fits : ∀ s ∈ plan.inspection.collection.segments, size s ≤ s.memorySize) :
    Relocated plan.minimumVirtualAddress plan.arenaSize
      (plan.inspection.collection.segments.map fun s => ⟨s.address, size s⟩)
      (plan.segments.map fun o => ⟨o.destinationOffset, size' o⟩) := by
  have covers := (planned.pageSpan positive).covers
  constructor
  · intro _ mem nonempty
    obtain ⟨s, s_mem, rfl⟩ := List.mem_map.mp mem
    dsimp only at nonempty
    have inside := fits s s_mem
    obtain ⟨above, below⟩ := covers s s_mem (by omega)
    obtain ⟨i, at_i⟩ := List.mem_iff_getElem?.mp s_mem
    refine ⟨above, ?_, List.mem_map.mpr ⟨placed plan.minimumVirtualAddress (s, i), ?_, ?_⟩⟩
    · rw [Span.stop_mk]
      omega
    · exact planned.mem_segments.mpr ⟨i, s, at_i, by omega, rfl⟩
    · rw [same]
      rfl
  · intro _ mem
    obtain ⟨o, o_mem, rfl⟩ := List.mem_map.mp mem
    obtain ⟨i, s, at_i, takes, rfl⟩ := planned.mem_segments.mp o_mem
    have s_mem := List.mem_of_getElem? at_i
    refine ⟨_, List.mem_map_of_mem s_mem, (covers s s_mem takes).1, ?_⟩
    rw [same]
    rfl

/-- The file-backed bytes of the members are those of the views. -/
theorem Planned.relocated_members (planned : Planned source page first last plan)
    (positive : 0 < page) :
    Relocated plan.minimumVirtualAddress plan.arenaSize
      (plan.inspection.members.flatMap memberMemory) (plan.memberViews.map MemberView.file) := by
  have ok := planned.sound.viewOk
  -- A view lies in the arena with its file bytes.
  have inside {view : MemberView} (mem : view ∈ plan.memberViews) :
      view.destinationOffset + view.fileSize ≤ plan.arenaSize := by
    have below := (ok view mem).inside
    have fits := (ok view mem).fileFits
    omega
  constructor
  · intro span mem nonempty'
    obtain ⟨member, m_mem, span_mem⟩ := List.mem_flatMap.mp mem
    obtain ⟨above, each⟩ := planned.member_above positive m_mem
    rcases List.mem_cons.mp span_mem with rfl | in_segments
    · have view : headerView plan.minimumVirtualAddress member.image ∈ plan.memberViews :=
        planned.mem_memberViews.mpr ⟨member, m_mem, List.mem_cons_self⟩
      have below := inside view
      simp only [headerView] at below
      refine ⟨above, ?_, List.mem_map.mpr ⟨_, view, rfl⟩⟩
      rw [headerMemory, Span.stop_mk]
      omega
    · obtain ⟨s, s_mem, rfl⟩ := List.mem_map.mp in_segments
      have fits := ((planned.accepted.members member m_mem).1.each s s_mem).fileFits
      simp only [fileMemory] at nonempty'
      have s_nonempty : s ∈ nonempty member.image.segments := mem_nonempty.mpr ⟨s_mem, by omega⟩
      have view : segmentView plan.minimumVirtualAddress s ∈ plan.memberViews :=
        planned.mem_memberViews.mpr
          ⟨member, m_mem, List.mem_cons_of_mem _ (List.mem_map_of_mem s_nonempty)⟩
      have below := inside view
      have above := each s s_nonempty
      simp only [segmentView] at below
      refine ⟨above, ?_, List.mem_map.mpr ⟨_, view, rfl⟩⟩
      rw [fileMemory, Span.stop_mk]
      omega
  · intro offset mem
    obtain ⟨view, v_mem, rfl⟩ := List.mem_map.mp mem
    obtain ⟨member, m_mem, of_member⟩ := planned.mem_memberViews.mp v_mem
    obtain ⟨above, each⟩ := planned.member_above positive m_mem
    rcases List.mem_cons.mp of_member with rfl | in_segments
    · exact ⟨headerMemory member.image,
        List.mem_flatMap.mpr ⟨member, m_mem, List.mem_cons_self⟩, above, rfl⟩
    · obtain ⟨s, s_mem, rfl⟩ := List.mem_map.mp in_segments
      refine ⟨fileMemory s, List.mem_flatMap.mpr ⟨member, m_mem, ?_⟩, each s s_mem, rfl⟩
      exact List.mem_cons_of_mem _ (List.mem_map_of_mem (mem_nonempty.mp s_mem).1)

/-- A member has one view of a header. -/
theorem Planned.countP_headers (planned : Planned source page first last plan) :
    plan.memberViews.countP (·.isHeader) = plan.inspection.members.length := by
  rw [planned.layout.views.countP_eq]
  induction plan.inspection.members with
  | nil => rfl
  | cons member rest ih =>
      have others : ((nonempty member.image.segments).map
          (segmentView (roundDown page first))).countP (·.isHeader) = 0 := by
        rw [List.countP_eq_zero]
        intro view mem
        obtain ⟨s, _, rfl⟩ := List.mem_map.mp mem
        exact Bool.false_ne_true
      rw [List.flatMap_cons, List.countP_append, ih, viewsOf, List.countP_cons, others,
        List.length_cons]
      simp [headerView, Nat.add_comm]

/-- Sizes of parts and of what they leave. -/
theorem sum_sub_of_le {α : Type} {list : List α} {part whole : α → Nat}
    (fits : ∀ a ∈ list, part a ≤ whole a) :
    (list.map fun a => whole a - part a).sum = (list.map whole).sum - (list.map part).sum ∧
      (list.map part).sum ≤ (list.map whole).sum := by
  induction list with
  | nil => exact ⟨rfl, Nat.le_refl _⟩
  | cons a rest ih =>
      obtain ⟨first, others⟩ := List.forall_mem_cons.mp fits
      obtain ⟨same, below⟩ := ih others
      simp only [List.map_cons, List.sum_cons, same]
      omega

/-- The mappings cover as much as their sizes add up to, and so do their file bytes. -/
theorem KcStagingPlan.Sound.ncard_segments (sound : plan.Sound) :
    (Span.covered (plan.segments.map StagingSegment.memory)).ncard =
        (plan.segments.map (·.memorySize)).sum ∧
      (Span.covered (plan.segments.map StagingSegment.file)).ncard =
        (plan.segments.map (·.fileSize)).sum := by
  have apart : (plan.segments.map StagingSegment.memory).Pairwise Span.Apart := by
    rw [List.pairwise_map]
    exact sound.laidOut.ascending.imp .inl
  have files : (plan.segments.map StagingSegment.file).Pairwise Span.Apart := by
    rw [List.pairwise_map]
    refine sound.laidOut.ascending.imp_of_mem fun {a b} mem _ before => .inl ?_
    have fits := sound.laidOut.fileFits a mem
    simp only [StagingSegment.memory, StagingSegment.file, Span.stop] at before ⊢
    omega
  rw [Span.ncard_covered apart, Span.ncard_covered files, List.map_map, List.map_map]
  exact ⟨rfl, rfl⟩

/-- The file bytes of the mappings are of their memory, and that is of the arena. -/
theorem KcStagingPlan.Sound.covered_subset (sound : plan.Sound) :
    Span.covered (plan.segments.map StagingSegment.file) ⊆
        Span.covered (plan.segments.map StagingSegment.memory) ∧
      Span.covered (plan.segments.map StagingSegment.memory) ⊆ Set.Iio plan.arenaSize := by
  constructor
  · rintro i ⟨_, mem, low, high⟩
    obtain ⟨o, o_mem, rfl⟩ := List.mem_map.mp mem
    have fits := sound.laidOut.fileFits o o_mem
    refine ⟨o.memory, List.mem_map_of_mem o_mem, low, Nat.lt_of_lt_of_le high ?_⟩
    exact Nat.add_le_add_left fits _
  · rintro i ⟨_, mem, _, high⟩
    obtain ⟨o, o_mem, rfl⟩ := List.mem_map.mp mem
    exact Nat.lt_of_lt_of_le high (sound.laidOut.inside o o_mem)

/-- The counts of a verification that returns are those of the plan. -/
theorem Planned.accounted [Target] (planned : Planned source page first last plan)
    (positive : 0 < page) {s : Staging} {counts : StagingVerification}
    (verified : (plan.verifyObserved.on s).1 = .ok counts) : Accounted plan counts := by
  obtain ⟨length, sweep, pass, swept, passed, rfl⟩ := verifyObserved_eq_ok verified
  have sound := planned.sound
  obtain ⟨_, copied, zeros, all⟩ :=
    (KcStagingPlan.verifyArena_decides sound length).of_ok swept
  obtain ⟨tally, headers⟩ := tally_of_passViews passed
  have memory : Relocated plan.minimumVirtualAddress plan.arenaSize
      (plan.inspection.collection.segments.map (·.memory))
      (plan.segments.map StagingSegment.memory) :=
    @Planned.relocated_outer source page first last plan planned positive (·.memorySize)
      (·.memorySize) (fun _ _ => rfl) (fun _ _ => Nat.le_refl _)
  have files : Relocated plan.minimumVirtualAddress plan.arenaSize
      (plan.inspection.collection.segments.map fileMemory)
      (plan.segments.map StagingSegment.file) :=
    @Planned.relocated_outer source page first last plan planned positive (·.file.size)
      (·.fileSize) (fun _ _ => rfl)
      (fun s mem => (planned.accepted.collection.each s mem).fileFits)
  have members := planned.relocated_members positive
  have sorted : (plan.memberViews.map MemberView.file).Pairwise fun a b => a.start ≤ b.start := by
    rw [List.pairwise_map]
    exact planned.layout.viewsSorted
  obtain ⟨memory_ncard, file_ncard⟩ := sound.ncard_segments
  obtain ⟨tails, below⟩ : (plan.segments.map fun s => s.memorySize - s.fileSize).sum =
        (plan.segments.map (·.memorySize)).sum - (plan.segments.map (·.fileSize)).sum ∧
      (plan.segments.map (·.fileSize)).sum ≤ (plan.segments.map (·.memorySize)).sum :=
    sum_sub_of_le sound.laidOut.fileFits
  obtain ⟨within, inside⟩ := sound.covered_subset
  constructor
  · rfl
  · exact all.symm
  · exact memory.holds
  · rw [files.offsetsOf, file_ncard]
    exact copied
  · rw [memory.offsetsOf, files.offsetsOf, Set.ncard_sdiff' within (Span.finite_covered _),
      memory_ncard, file_ncard, ← tails]
    exact zeros
  · rw [memory.offsetsOf, Set.ncard_sdiff' inside (Set.finite_Iio _), Set.ncard_Iio_nat,
      memory_ncard]
    dsimp only
    omega
  · exact headers.trans ((Nat.zero_add _).trans planned.countP_headers)
  · exact members.holds
  · rw [members.offsetsOf, ← Span.tally_eq_ncard sorted]
    exact congrArg Span.Tally.counted tally

/-- And so are the counts of a staging. -/
theorem Planned.accounted_staged [Target] (planned : Planned source page first last plan)
    (positive : 0 < page) {destination : Bytes} {counts : StagingVerification}
    (staged : (plan.stageInto destination).1 = .ok counts) : Accounted plan counts := by
  change (plan.stageIntoObserved.on ⟨destination, []⟩).1 = .ok counts at staged
  generalize ran : plan.stageIntoObserved.on ⟨destination, []⟩ = out at staged
  obtain ⟨result, after⟩ := out
  cases staged
  obtain ⟨_, _, rest⟩ := on_look_bind_eq_ok.mp ran
  obtain ⟨_, cleared, _, rest⟩ := on_bind_eq_ok.mp rest
  obtain ⟨_, started, _, rest⟩ := on_bind_eq_ok.mp rest
  obtain ⟨_, copied, _, rest⟩ := on_bind_eq_ok.mp rest
  have verified := congrArg Prod.fst (on_write_bind_eq_ok.mp rest)
  exact planned.accounted positive verified

end Plans

/-- Whatever verification and staging return, for any plan and any arena, are the counts of the
plan: each arena offset is copied, a zero tail or a hole, and the file-backed bytes of the members
are counted once, however the views overlap or nest. -/
theorem staging_accounted [UnstableSort] [Target] {profile : Profile} {source : Bytes}
    {plan : KcStagingPlan} (made : KcStagingPlan.forProfile profile source = .ok plan)
    (destination : Bytes) (counts : StagingVerification) :
    (plan.verify destination = .ok counts → Accounted plan counts) ∧
      ((plan.stageInto destination).1 = .ok counts → Accounted plan counts) := by
  obtain ⟨_, first, last, planned⟩ := planned_of_ok made
  have positive := Nat.pos_of_isPowerOfTwo (pageSizeOf_pow profile)
  exact ⟨fun verified => planned.accounted positive verified,
    fun staged => planned.accounted_staged positive staged⟩

theorem staging_accounted_sample :
    ∃ plan counts, @KcStagingPlan.forProfile UnstableSort.insertion .x86_64 sampleCollection =
      .ok plan ∧ @KcStagingPlan.verify Target.aligned plan plan.linkedImage = .ok counts ∧
        Accounted plan counts := by
  obtain ⟨plan, made⟩ := isOk_iff.mp
    (show (@KcStagingPlan.forProfile UnstableSort.insertion .x86_64 sampleCollection).isOk = true by
      decide +kernel)
  obtain ⟨_, first, last, planned⟩ := @planned_of_ok UnstableSort.insertion _ _ _ made
  obtain ⟨counts, verified, _⟩ :=
    (@KcStagingPlan.verify_decides Target.aligned plan planned.sound _
      plan.length_linkedImage).1 rfl
  have accounted := (@staging_accounted UnstableSort.insertion Target.aligned .x86_64 _ plan made
    plan.linkedImage counts).1 verified
  exact ⟨plan, counts, made, verified, accounted⟩

/-- A plan always stages into an arena of its own: the linked image, with the counts of the plan. -/
theorem stage_exact [UnstableSort] [Target] {profile : Profile} {source : Bytes}
    {plan : KcStagingPlan} (made : KcStagingPlan.forProfile profile source = .ok plan) :
    ∃ staged, plan.stage = .ok staged ∧ staged.plan = plan ∧ staged.bytes = plan.linkedImage ∧
      Accounted plan staged.verification := by
  obtain ⟨_, first, last, planned⟩ := planned_of_ok made
  have positive := Nat.pos_of_isPowerOfTwo (pageSizeOf_pow profile)
  obtain ⟨verification, staged⟩ := KcStagingPlan.stageInto_eq planned.sound
    (List.length_replicate (n := plan.arenaSize) (a := (0 : UInt8)))
  refine ⟨⟨plan, plan.linkedImage, verification⟩, ?_, rfl, rfl, ?_⟩
  · rw [KcStagingPlan.stage, staged]
    rfl
  · exact planned.accounted_staged positive (congrArg Prod.fst staged)

end Nextcore.KcStaging
