import Nextcore.KcStaging.Layout

/-!
When there is a plan.

Each check of the planner is shown to follow from what the inspector has checked already
(`InspectionInv`), although the two compute differently. Two checks remain, of the
page-rounded span: that it does not leave the addresses, and that it is not too large
(`planner_agrees`). `Planned` is what is known of a plan that was made.
-/

namespace Nextcore.KcStaging

open Checked Checked.Outcome
open KernelCollection

/-! ### Ranges -/

theorem relativeRange_of {address size base arena : Nat} (above : base ≤ address)
    (inside : address + size ≤ base + arena) (word : arena < 2 ^ 64) :
    relativeRange address size base arena = .ok (address - base) := by
  have start : checkedSub address base = some (address - base) :=
    checkedSub_eq_some.mpr ⟨above, rfl⟩
  have stop : checkedAdd (address - base) size = some (address - base + size) :=
    checkedAdd_of_lt (by omega)
  have within : ¬ address - base + size > arena := by omega
  rw [relativeRange, start, ofOption_some, bind_ok, stop, ofOption_some, bind_ok,
    rejectIf_of_not KcStagingError.invalidMapping within, bind_ok, tryWord_of_lt (by omega)]

theorem sourceRange_of {source : Bytes} {offset size : Nat} (inside : offset + size ≤ source.length)
    (word : source.length < 2 ^ 64) : sourceRange source offset size = .ok offset := by
  have stop : checkedAdd offset size = some (offset + size) := checkedAdd_of_lt (by omega)
  have within : ¬ offset + size > source.length := by omega
  rw [sourceRange, stop, ofOption_some, bind_ok,
    rejectIf_of_not KcStagingError.invalidMapping within, bind_ok, tryWord_of_lt (by omega)]

/-! ### The checks -/

/-- The planner's search tests ownership. -/
theorem ownedBy_of {view : MemberView} {outer : StagingSegment}
    (memory : view.destinationOffset + view.memorySize < 2 ^ 64)
    (outerMemory : outer.destinationOffset + outer.memorySize < 2 ^ 64)
    (file : view.fileOffset + view.fileSize < 2 ^ 64)
    (outerFile : outer.fileOffset + outer.fileSize < 2 ^ 64) :
    ownedBy view outer = .ok (decide (Owned view outer)) := by
  unfold ownedBy
  by_cases above : view.destinationOffset < outer.destinationOffset
  · have outside : ¬ Owned view outer := by
      unfold Owned
      omega
    rw [if_pos above, decide_eq_false outside, pure_eq]
  rw [if_neg above, add_of_lt memory, bind_ok, add_of_lt outerMemory, bind_ok]
  by_cases past : view.destinationOffset + view.memorySize >
      outer.destinationOffset + outer.memorySize
  · have outside : ¬ Owned view outer := by
      unfold Owned
      omega
    rw [if_pos past, decide_eq_false outside, pure_eq]
  rw [if_neg past]
  by_cases empty : view.fileSize = 0
  · have inside : Owned view outer := by
      unfold Owned
      omega
    rw [if_pos empty, decide_eq_true inside, pure_eq]
  rw [if_neg empty]
  by_cases before : view.fileOffset < outer.fileOffset
  · have outside : ¬ Owned view outer := by
      unfold Owned
      omega
    rw [if_pos before, decide_eq_false outside, pure_eq]
  rw [if_neg before, add_of_lt file, bind_ok, add_of_lt outerFile, bind_ok]
  by_cases behind : view.fileOffset + view.fileSize > outer.fileOffset + outer.fileSize
  · have outside : ¬ Owned view outer := by
      unfold Owned
      omega
    rw [if_pos behind, decide_eq_false outside, pure_eq]
  · have displaced : (view.destinationOffset - outer.destinationOffset =
        view.fileOffset - outer.fileOffset) ↔ Owned view outer := by
      unfold Owned
      omega
    rw [if_neg behind, sub_of_le (by omega), bind_ok, sub_of_le (by omega), bind_ok, pure_eq]
    exact congrArg Outcome.ok (decide_eq_decide.mpr displaced)

section Checks

variable {source : Bytes} {inspection : KcMetadataInspection} {base size : Nat}
  {segments : List StagingSegment}

theorem stagingSegment_of {s : SegmentMetadata} {i : Nat} (checked : SegmentOk source s)
    (above : base ≤ s.address) (below : s.address + s.memorySize ≤ base + size)
    (word : source.length < 2 ^ 64) (small : size < 2 ^ 64) :
    stagingSegment source base size (s, i) = .ok (placed base (s, i)) := by
  have noWrap := checked.noWrap
  have inside := checked.inside
  rw [stagingSegment, relativeRange_of above below small, bind_ok, sourceRange_of inside word,
    bind_ok, tryWord_of_lt (by omega), bind_ok, tryWord_of_lt (by omega), bind_ok, pure_eq, placed]

/-- A sound view passes the planner's checks. -/
theorem memberView_of {view : MemberView} {address : Nat} (laid : LaidOut source size segments)
    (small : size < 2 ^ 64) (word : source.length < 2 ^ 64) (above : base ≤ address)
    (offset : view.destinationOffset = address - base) (sound : ViewOk source size segments view) :
    memberView source segments base size address view.memorySize view.fileOffset view.fileSize
      view.isHeader = .ok view := by
  obtain ⟨inside, inSource, fits, outer, mem, owned⟩ := sound
  have tested : anyM (ownedBy view) segments =
      .ok (segments.any fun o => decide (Owned view o)) := by
    apply anyM_of
    intro o o_mem
    have o_inside := laid.inside o o_mem
    have o_inSource := laid.inSource o o_mem
    simp only [StagingSegment.memory, Span.stop] at o_inside
    exact ownedBy_of (by omega) (by omega) (by omega) (by omega)
  have hit : (segments.any fun o => decide (Owned view o)) = true :=
    List.any_eq_true.mpr ⟨outer, mem, decide_eq_true owned⟩
  have not_long : ¬ view.fileSize > view.memorySize := by omega
  rw [memberView, relativeRange_of above (by omega) small, bind_ok, sourceRange_of inSource word,
    bind_ok, tryWord_of_lt (by omega), bind_ok, tryWord_of_lt (by omega), bind_ok,
    rejectIf_of_not KcStagingError.invalidMapping not_long, bind_ok, ← offset]
  dsimp only
  rw [tested, bind_ok, hit, rejectIf_of_not KcStagingError.invalidMapping (by simp), bind_ok,
    pure_eq]

theorem memberViews_of {member : FilesetMember} (laid : LaidOut source size segments)
    (small : size < 2 ^ 64) (word : source.length < 2 ^ 64)
    (header : base ≤ member.image.headerAddress ∧
      ViewOk source size segments (headerView base member.image))
    (each : ∀ s ∈ nonempty member.image.segments,
      base ≤ s.address ∧ ViewOk source size segments (segmentView base s)) :
    memberViews source segments base size member = .ok (viewsOf base member) := by
  have first := memberView_of laid small word header.1 rfl header.2
  have others : collect (fun segment => memberView source segments base size segment.address
        segment.memorySize segment.file.offset segment.file.size false)
      (nonempty member.image.segments) =
        .ok ((nonempty member.image.segments).map (segmentView base)) := by
    apply collect_of
    intro s mem
    obtain ⟨above, sound⟩ := each s mem
    have view := memberView_of laid small word above rfl sound
    exact view
  rw [memberViews]
  refine (congrArg (· >>= _) first).trans ?_
  rw [bind_ok, others, bind_ok, pure_eq, viewsOf]

/-- Counting the views does not overflow. -/
theorem viewCount_of {members : List FilesetMember} {total : Nat}
    (fits : total + members.length + (members.map (·.image.segments.length)).sum < 2 ^ 64) :
    members.foldlM (fun total member => ofOption KcStagingError.addressOverflow
        ((checkedAdd total 1).bind (checkedAdd · member.image.segments.length))) total =
      .ok (total + members.length + (members.map (·.image.segments.length)).sum) := by
  induction members generalizing total with
  | nil => rfl
  | cons member rest ih =>
      simp only [List.length_cons, List.map_cons, List.sum_cons] at fits ⊢
      rw [List.foldlM_cons, checkedAdd_of_lt (by omega), Option.bind_some,
        checkedAdd_of_lt (by omega), ofOption_some, bind_ok, ih (by omega)]
      congr 1
      omega

theorem viewCount_eq_ok (inv : InspectionInv source inspection) :
    ∃ total, viewCount inspection.members = .ok total := by
  have count := inv.memberCount
  have sum := inv.memberSegments
  simp only [maxMembers, maxSegments] at count sum
  exact ⟨_, viewCount_of (by omega)⟩

/-- The instruction pointer lies in the memory of the entry's segment. -/
theorem entryAddress_of_inside {entry : EntryMetadata} {s : SegmentMetadata}
    (fits : s.file.size ≤ s.memorySize) (inside : entry.Inside s) :
    ∃ address, entryAddress (some entry) = .ok address ∧ s.memorySize ≠ 0 ∧ s.address ≤ address ∧
      address + 1 ≤ s.address + s.memorySize := by
  cases entry with
  | unixThread64 instructionPointer =>
      obtain ⟨above, below⟩ := inside
      exact ⟨instructionPointer, rfl, by omega, above, by omega⟩
  | armThread64 instructionPointer stackPointer cpsr flags =>
      obtain ⟨_, above, below⟩ := inside
      exact ⟨instructionPointer, rfl, by omega, above, by omega⟩
  | main textOffset stackSize => exact inside.elim

end Checks

/-! ### The plan -/

/-- In an arena that covers the collection, every check of the layout passes. -/
theorem layOut_of [UnstableSort] {source : Bytes} {inspection : KcMetadataInspection}
    (inv : InspectionInv source inspection) (page : Nat) {base size : Nat}
    (covers : Covers base size inspection.collection.segments) (small : size < 2 ^ 64) :
    ∃ plan, layOut source inspection page base size = .ok plan ∧
      PlanInv source inspection page base size plan := by
  have coll := inv.collection
  have word : source.length < 2 ^ 64 := Nat.lt_of_le_of_lt inv.input (by decide)
  -- The outer segments.
  have staged : collect (stagingSegment source base size)
      (inspection.collection.segments.zipIdx.filter (·.1.memorySize ≠ 0)) =
        .ok (placedSegments base inspection.collection.segments) := by
    apply collect_of
    rintro ⟨s, i⟩ mem
    obtain ⟨in_zip, takes⟩ := List.mem_filter.mp mem
    have s_mem : s ∈ inspection.collection.segments := List.fst_mem_of_mem_zipIdx in_zip
    obtain ⟨above, below⟩ := covers s s_mem (of_decide_eq_true takes)
    exact stagingSegment_of (coll.each s s_mem) above below word small
  have laid := laidOut_placed coll.each coll.nonoverlap covers
  generalize sorted_eq : UnstableSort.sortByKey (fun s : StagingSegment => s.destinationOffset)
    (placedSegments base inspection.collection.segments) = sorted at laid
  have perm : sorted.Perm (placedSegments base inspection.collection.segments) :=
    sorted_eq ▸ UnstableSort.perm _ _
  have apart : forWindows (fun a b : StagingSegment => do
      let stop ← add a.destinationOffset a.memorySize
      rejectIf (stop > b.destinationOffset) KcStagingError.invalidMapping) sorted = .ok () := by
    rw [forWindows_eq_ok]
    refine laid.ascending.isChain.imp_of_mem_imp fun a b a_mem _ before => ?_
    have a_inside := laid.inside a a_mem
    simp only [StagingSegment.memory, Span.stop] at before a_inside
    rw [add_of_lt (by omega), bind_ok, rejectIf_of_not _ (by omega)]
  -- The header and the entry.
  obtain ⟨h, h_mem, h_takes, h_low, h_high⟩ := header_in_memory coll
  obtain ⟨h_above, h_below⟩ := covers h h_mem h_takes
  have header : relativeRange inspection.collection.headerAddress
      (32 + inspection.collection.commandBytes) base size =
        .ok (inspection.collection.headerAddress - base) :=
    relativeRange_of (by omega) (by omega) small
  obtain ⟨entry, entry_eq, e, e_mem, _, e_inside⟩ := inv.entry
  obtain ⟨address, address_eq, e_takes, e_low, e_high⟩ :=
    entryAddress_of_inside (coll.each e e_mem).fileFits e_inside
  obtain ⟨e_above, e_below⟩ := covers e e_mem e_takes
  rw [← entry_eq] at address_eq
  have entry_offset : relativeRange address 1 base size = .ok (address - base) :=
    relativeRange_of (by omega) (by omega) small
  -- The member views.
  obtain ⟨total, counted⟩ := viewCount_eq_ok inv
  have sound {member : FilesetMember} (mem : member ∈ inspection.members) :=
    viewOk_of_member coll (inv.members member mem).1 (inv.members member mem).2
      (fun s s_mem => perm.mem_iff.mpr s_mem) covers
  have viewed : collect (memberViews source sorted base size) inspection.members =
      .ok (inspection.members.map (viewsOf base)) := by
    apply collect_of
    intro member mem
    exact memberViews_of laid small word (sound mem).1 (sound mem).2
  rw [layOut, staged, bind_ok, sorted_eq]
  dsimp only
  rw [apart, bind_ok, header, bind_ok, address_eq, bind_ok, entry_offset, bind_ok, counted, bind_ok,
    viewed, bind_ok, ← List.flatMap_def]
  have views_perm := UnstableSort.perm (fun view : MemberView => view.destinationOffset)
    (inspection.members.flatMap (viewsOf base))
  refine ⟨_, rfl, rfl, rfl, rfl, rfl, rfl, perm, laid, views_perm, UnstableSort.sorted _ _, ?_, ?_,
    Nat.add_sub_cancel' (by omega), ?_⟩
  · intro view mem
    obtain ⟨member, m_mem, view_mem⟩ := List.mem_flatMap.mp (views_perm.mem_iff.mp mem)
    rcases List.mem_cons.mp view_mem with rfl | in_segments
    · exact (sound m_mem).1.2
    · obtain ⟨s, s_mem, rfl⟩ := List.mem_map.mp in_segments
      exact ((sound m_mem).2 s s_mem).2
  · rw [views_perm.length_eq]
    exact (length_views_le base inspection.members).trans
      (Nat.add_le_add inv.memberCount inv.memberSegments)
  · rw [address_eq, Nat.add_sub_cancel' (by omega)]

/-- The planner's loop over the segments takes the minimum and the maximum. -/
theorem foldlM_extendBounds {segments : List SegmentMetadata}
    (noWrap : ∀ s ∈ segments, s.address + s.memorySize < 2 ^ 64) (low high : Nat) :
    segments.foldlM extendBounds (low, high) =
      .ok (((segments.map (·.memory)).map Span.start).foldl min low,
        ((segments.map (·.memory)).map Span.stop).foldl max high) := by
  induction segments generalizing low high with
  | nil => rfl
  | cons s rest ih =>
      obtain ⟨first, others⟩ := List.forall_mem_cons.mp noWrap
      rw [List.foldlM_cons, extendBounds, checkedAdd_of_lt first, ofOption_some, bind_ok, pure_eq,
        bind_ok, ih others]
      rfl

/-- Where some segment takes memory, the loop finds the extent. -/
theorem extent_of_foldlM {segments : List SegmentMetadata}
    (noWrap : ∀ s ∈ segments, s.address + s.memorySize < 2 ^ 64)
    (takes : ∃ s ∈ segments, s.memorySize ≠ 0) :
    ∃ first last, Span.Extent (memories segments) first last ∧ first < last ∧ last < 2 ^ 64 ∧
      (nonempty segments).foldlM extendBounds (2 ^ 64 - 1, 0) = .ok (first, last) := by
  obtain ⟨s, mem, memory⟩ := takes
  have s_mem := mem_nonempty.mpr ⟨mem, memory⟩
  have wraps_not := noWrap s mem
  have s_low : s.memory.start ≤ 2 ^ 64 - 1 := by
    simp only [SegmentMetadata.memory]
    omega
  have loop := foldlM_extendBounds (fun r r_mem => noWrap r (mem_nonempty.mp r_mem).1)
    (2 ^ 64 - 1) 0
  have extent : Span.Extent (memories segments) _ _ :=
    Span.extent_of_foldl (List.mem_map_of_mem s_mem) s_low (Nat.zero_le _)
  refine ⟨_, _, extent, ?_, ?_, loop⟩
  · have le := extent.le_start (List.mem_map_of_mem s_mem)
    have stop_le := extent.stop_le (List.mem_map_of_mem s_mem)
    refine Nat.lt_of_le_of_lt le (Nat.lt_of_lt_of_le ?_ stop_le)
    simp only [SegmentMetadata.memory, Span.stop]
    omega
  · obtain ⟨_, last_mem, same⟩ := extent.last.1
    obtain ⟨r, r_mem, rfl⟩ := List.mem_map.mp last_mem
    exact same ▸ noWrap r (mem_nonempty.mp r_mem).1

/-- The span that the planner rounds to pages. -/
theorem arenaSpan_cases {source : Bytes} {image : ImageMetadata} (inv : ImageInv source image)
    {page : Nat} (pow : page.isPowerOfTwo) :
    ∃ first last, Span.Extent (memories image.segments) first last ∧
      (¬ last + (page - 1) < 2 ^ 64 → arenaSpan image.segments page = .err .addressOverflow) ∧
      (last + (page - 1) < 2 ^ 64 → maxStagingSize < roundUp page last - roundDown page first →
        arenaSpan image.segments page = .err .arenaTooLarge) ∧
      (last + (page - 1) < 2 ^ 64 → roundUp page last - roundDown page first ≤ maxStagingSize →
        arenaSpan image.segments page =
          .ok (roundDown page first, roundUp page last - roundDown page first)) := by
  have positive := Nat.pos_of_isPowerOfTwo pow
  obtain ⟨h, h_mem, h_takes, _⟩ := header_in_memory inv
  obtain ⟨first, last, extent, below, last_word, loop⟩ :=
    extent_of_foldlM (fun s mem => (inv.each s mem).noWrap) ⟨h, h_mem, h_takes⟩
  have first_word : ¬ (first = 2 ^ 64 - 1 ∨ last ≤ first) := by omega
  have rounded : roundDown page first < roundUp page last :=
    Nat.lt_of_le_of_lt (roundDown_le page first)
      (Nat.lt_of_lt_of_le below (le_roundUp positive last))
  have up : andNot (last + (page - 1)) (page - 1) = roundUp page last := andNot_eq pow _
  have span : checkedSub (roundUp page last) (roundDown page first) =
      some (roundUp page last - roundDown page first) := checkedSub_eq_some.mpr ⟨rounded.le, rfl⟩
  have max_small : maxStagingSize < 2 ^ 63 := by decide
  refine ⟨first, last, extent, ?_⟩
  rw [arenaSpan, loop, bind_ok]
  dsimp only
  rw [rejectIf_of_not KcStagingError.emptyImage first_word, bind_ok, sub_of_le positive, bind_ok,
    andNot_eq pow]
  refine ⟨?_, ?_, ?_⟩
  · intro wraps
    rw [checkedAdd_of_not_lt wraps, ofOption_none, bind_err]
  · intro fits large
    rw [checkedAdd_of_lt fits, ofOption_some, bind_ok, up, span, ofOption_some, bind_ok,
      rejectIf_of _ (.inr (.inl large)), bind_err]
  · intro fits small
    rw [checkedAdd_of_lt fits, ofOption_some, bind_ok, up, span, ofOption_some, bind_ok,
      rejectIf_of_not _ (by omega), bind_ok, tryWord_of_lt (by omega), bind_ok, pure_eq]

/-! ### Plans by profile -/

/-- The page size that a profile rounds to. -/
def pageSizeOf : Profile → Nat
  | .x86_64 => stagingPageSize
  | .arm64 => arm64StagingPageSize

/-- The constructor of a profile's plans. -/
def KcStagingPlan.forProfile [UnstableSort] : Profile → Bytes → Result KcStagingPlan
  | .x86_64 => KcStagingPlan.new
  | .arm64 => KcStagingPlan.newArm64

theorem forProfile_eq [UnstableSort] (profile : Profile) (source : Bytes) :
    KcStagingPlan.forProfile profile source = (do
      let inspection ← (inspectProfile source profile).mapErr KcStagingError.metadata
      fromInspection source inspection (pageSizeOf profile)) := by
  cases profile <;> rfl

theorem pageSizeOf_pow (profile : Profile) : (pageSizeOf profile).isPowerOfTwo := by
  cases profile with
  | x86_64 => exact ⟨12, rfl⟩
  | arm64 => exact ⟨14, rfl⟩

/-- A plan for an inspected collection whose segments with memory lie from `first` to `last`. -/
structure Planned (source : Bytes) (page first last : Nat) (plan : KcStagingPlan) : Prop where
  accepted : InspectionInv source plan.inspection
  extent : Span.Extent (memories plan.inspection.collection.segments) first last
  noWrap : last + (page - 1) < 2 ^ 64
  small : roundUp page last - roundDown page first ≤ maxStagingSize
  layout : PlanInv source plan.inspection page (roundDown page first)
    (roundUp page last - roundDown page first) plan

/-- The page-rounded extent covers the segments. -/
theorem covers_of_extent {segments : List SegmentMetadata} {page first last : Nat}
    (positive : 0 < page) (extent : Span.Extent (memories segments) first last) :
    Covers (roundDown page first) (roundUp page last - roundDown page first) segments := by
  intro s mem takes
  have in_memories : s.memory ∈ memories segments :=
    List.mem_map_of_mem (mem_nonempty.mpr ⟨mem, takes⟩)
  have low := (roundDown_le page first).trans (extent.le_start in_memories)
  have high := (extent.stop_le in_memories).trans (le_roundUp positive last)
  simp only [SegmentMetadata.memory, Span.stop] at low high
  omega

/-- What becomes of an inspected collection. -/
theorem fromInspection_cases [UnstableSort] {source : Bytes} {inspection : KcMetadataInspection}
    (inv : InspectionInv source inspection) {page : Nat} (pow : page.isPowerOfTwo) :
    ∃ first last, Span.Extent (memories inspection.collection.segments) first last ∧
      (¬ last + (page - 1) < 2 ^ 64 →
        fromInspection source inspection page = .err .addressOverflow) ∧
      (last + (page - 1) < 2 ^ 64 → maxStagingSize < roundUp page last - roundDown page first →
        fromInspection source inspection page = .err .arenaTooLarge) ∧
      (last + (page - 1) < 2 ^ 64 → roundUp page last - roundDown page first ≤ maxStagingSize →
        ∃ plan, fromInspection source inspection page = .ok plan ∧ plan.inspection = inspection ∧
          Planned source page first last plan) := by
  have positive := Nat.pos_of_isPowerOfTwo pow
  obtain ⟨first, last, extent, overflow, large, small⟩ := arenaSpan_cases inv.collection pow
  refine ⟨first, last, extent, ?_, ?_, ?_⟩
  · intro wraps
    rw [fromInspection, overflow wraps, bind_err]
  · intro fits too_large
    rw [fromInspection, large fits too_large, bind_err]
  · intro fits bounded
    have covers := covers_of_extent positive extent
    have size_word : roundUp page last - roundDown page first < 2 ^ 64 :=
      Nat.lt_of_le_of_lt bounded (by decide)
    obtain ⟨plan, laid, layout⟩ := layOut_of inv page covers size_word
    have inspected := layout.inspected
    refine ⟨plan, ?_, inspected, ?_⟩
    · rw [fromInspection, small fits bounded, bind_ok]
      exact laid
    · subst inspected
      exact ⟨inv, extent, fits, bounded, layout⟩

/-- Every plan is the plan of an inspected collection. -/
theorem planned_of_ok [UnstableSort] {profile : Profile} {source : Bytes} {plan : KcStagingPlan}
    (made : KcStagingPlan.forProfile profile source = .ok plan) :
    inspectProfile source profile = .ok plan.inspection ∧
      ∃ first last, Planned source (pageSizeOf profile) first last plan := by
  rw [forProfile_eq] at made
  obtain ⟨inspection, inspected, made⟩ := bind_eq_ok.mp made
  rw [mapErr_eq_ok] at inspected
  obtain ⟨first, last, _, overflow, large, small⟩ :=
    fromInspection_cases (inspectProfile_eq_ok inspected) (pageSizeOf_pow profile)
  by_cases fits : last + (pageSizeOf profile - 1) < 2 ^ 64
  · by_cases bounded : roundUp (pageSizeOf profile) last - roundDown (pageSizeOf profile) first ≤
        maxStagingSize
    · obtain ⟨plan', made', same, planned⟩ := small fits bounded
      rw [made'] at made
      cases made
      exact ⟨same ▸ inspected, first, last, planned⟩
    · rw [large fits (Nat.lt_of_not_le bounded)] at made
      cases made
  · rw [overflow fits] at made
    cases made

/-- The planner makes a plan of an accepted collection exactly when the page-rounded span of its
outer segments stays within the addresses and within the bound; nothing else it checks can
fail. -/
theorem planner_agrees [UnstableSort] {profile : Profile} {source : Bytes}
    {inspection : KcMetadataInspection}
    (accepted : inspectProfile source profile = .ok inspection) :
    ∃ first last, Span.Extent (memories inspection.collection.segments) first last ∧
      ((∃ plan, KcStagingPlan.forProfile profile source = .ok plan) ↔
        last + (pageSizeOf profile - 1) < 2 ^ 64 ∧
          roundUp (pageSizeOf profile) last - roundDown (pageSizeOf profile) first ≤
            maxStagingSize) ∧
      (∀ error, KcStagingPlan.forProfile profile source = .err error →
        (error = .addressOverflow ∧ ¬ last + (pageSizeOf profile - 1) < 2 ^ 64) ∨
          (error = .arenaTooLarge ∧ last + (pageSizeOf profile - 1) < 2 ^ 64 ∧
            maxStagingSize <
              roundUp (pageSizeOf profile) last - roundDown (pageSizeOf profile) first)) ∧
      KcStagingPlan.forProfile profile source ≠ .panic := by
  obtain ⟨first, last, extent, overflow, large, small⟩ :=
    fromInspection_cases (inspectProfile_eq_ok accepted) (pageSizeOf_pow profile)
  refine ⟨first, last, extent, ?_⟩
  rw [forProfile_eq, accepted, mapErr, bind_ok]
  by_cases fits : last + (pageSizeOf profile - 1) < 2 ^ 64
  · by_cases bounded : roundUp (pageSizeOf profile) last - roundDown (pageSizeOf profile) first ≤
        maxStagingSize
    · obtain ⟨plan, made, _, _⟩ := small fits bounded
      rw [made]
      refine ⟨⟨fun _ => ⟨fits, bounded⟩, fun _ => ⟨plan, rfl⟩⟩, ?_, ?_⟩
      · intro error failed
        cases failed
      · intro failed
        cases failed
    · have too_large := Nat.lt_of_not_le bounded
      rw [large fits too_large]
      refine ⟨⟨?_, fun both => absurd both.2 bounded⟩, ?_, ?_⟩
      · rintro ⟨plan, made⟩
        cases made
      · intro error failed
        cases failed
        exact .inr ⟨rfl, fits, too_large⟩
      · intro failed
        cases failed
  · rw [overflow fits]
    refine ⟨⟨?_, fun both => absurd both.1 fits⟩, ?_, ?_⟩
    · rintro ⟨plan, made⟩
      cases made
    · intro error failed
      cases failed
      exact .inl ⟨rfl, fits⟩
    · intro failed
      cases failed

theorem planner_agrees_sample :
    ∃ inspection first last,
      @inspectProfile UnstableSort.insertion sampleCollection .x86_64 = .ok inspection ∧
        Span.Extent (memories inspection.collection.segments) first last ∧
        ((∃ plan, @KcStagingPlan.forProfile UnstableSort.insertion .x86_64 sampleCollection =
            .ok plan) ↔
          last + (4096 - 1) < 2 ^ 64 ∧ roundUp 4096 last - roundDown 4096 first ≤
            maxStagingSize) := by
  obtain ⟨inspection, accepted⟩ := isOk_iff.mp
    (show (@inspectProfile UnstableSort.insertion sampleCollection .x86_64).isOk = true by
      decide +kernel)
  obtain ⟨first, last, extent, agrees, _⟩ := @planner_agrees UnstableSort.insertion _ _ _ accepted
  exact ⟨inspection, first, last, accepted, extent, agrees⟩

end Nextcore.KcStaging
