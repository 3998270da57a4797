import Nextcore.KcStaging.Image
import Nextcore.KcStaging.Planner

/-!
What staging leaves, and what verification accepts.

Staging any arena of the right size leaves the image of the plan and succeeds
(`on_stageIntoObserved`); verification accepts that image and nothing else
(`on_verifyObserved_of_ne`). The results about plans made from a source follow: the staged
arena is the linked image of the collection (`stage_into_exact`), members find their bytes at
their own addresses in it (`member_views_coherent`), and verification is exact
(`verify_exact`).
-/

namespace Nextcore.KcStaging

open Checked Checked.Outcome Checked.Exec
open KernelCollection

/-! ### Sound plans -/

/-- What staging and verification rely on. -/
structure KcStagingPlan.Sound (plan : KcStagingPlan) : Prop where
  laidOut : LaidOut plan.source plan.arenaSize plan.segments
  viewOk : ∀ view ∈ plan.memberViews, ViewOk plan.source plan.arenaSize plan.segments view
  viewCount : plan.memberViews.length < 2 ^ 64
  small : plan.arenaSize < 2 ^ 64
  word : plan.source.length < 2 ^ 64

theorem Planned.sound {source : Bytes} {page first last : Nat} {plan : KcStagingPlan}
    (planned : Planned source page first last plan) : plan.Sound := by
  have layout := planned.layout
  have small : plan.arenaSize < 2 ^ 64 := by
    rw [layout.arenaSize]
    exact Nat.lt_of_le_of_lt planned.small (by decide)
  refine ⟨?_, ?_, Nat.lt_of_le_of_lt layout.viewCount (by decide), small, ?_⟩
  · rw [layout.fromSource, layout.arenaSize]
    exact layout.laidOut
  · rw [layout.fromSource, layout.arenaSize]
    exact layout.viewOk
  · rw [layout.fromSource]
    exact Nat.lt_of_le_of_lt planned.accepted.input (by decide)

namespace KcStagingPlan

variable {plan : KcStagingPlan}

@[simp] theorem length_linkedImage (plan : KcStagingPlan) :
    plan.linkedImage.length = plan.arenaSize :=
  length_image ..

theorem getElem?_linkedImage (plan : KcStagingPlan) :
    ∀ i < plan.arenaSize,
      plan.linkedImage[i]? = some (byteOf (plan.segments.map (piece plan.source)) i) :=
  fun _ inside => getElem?_image inside _

/-- Copying over a cleared arena gives the image. -/
theorem applied_eq_linkedImage (sound : plan.Sound) :
    applied (plan.segments.map (piece plan.source)) (List.replicate plan.arenaSize 0) =
      plan.linkedImage := by
  rw [linkedImage, eq_image_iff (by rw [length_applied, List.length_replicate])]
  exact applied_zeros sound.laidOut.apart sound.laidOut.piece_fits

section Verification

variable [Target] {destination : Bytes}

/-- The pass over the arena accepts the image and nothing else. -/
theorem verifyArena_decides (sound : plan.Sound) (length : destination.length = plan.arenaSize) :
    Decides (destination = plan.linkedImage) .readbackMismatch
      (fun sweep => sweep.copiedBytes = (plan.segments.map (·.fileSize)).sum ∧
        sweep.zeroTailBytes = (plan.segments.map fun s => s.memorySize - s.fileSize).sum ∧
        sweep.copiedBytes + sweep.zeroTailBytes + sweep.holeBytes = plan.arenaSize)
      (verifyArena plan destination) := by
  have laid : LaidOut plan.source destination.length plan.segments := length ▸ sound.laidOut
  have decides := @sweep_decides plan.source destination plan.segments _ ⟨0, 0, 0, 0⟩ laid
    (length ▸ sound.small) sound.word (fun _ _ => Nat.zero_le _) (Nat.zero_le _) rfl
  simp only [Nat.zero_add, Nat.zero_le, true_implies, length] at decides
  refine decides.congr ?_
  exact (eq_image_iff length).symm

/-- The pass over the member views accepts the image. -/
theorem verifyMembers_of (sound : plan.Sound) :
    ∃ pass, verifyMembers plan plan.linkedImage = .ok pass := by
  have laid := sound.laidOut
  have views := sound.viewOk
  have small := sound.small
  have agree := plan.getElem?_linkedImage
  rw [← plan.length_linkedImage] at laid views small agree
  refine passViews_of laid agree views small sound.word ⟨Nat.le_refl _, Nat.zero_le _⟩ ?_
  simpa using sound.viewCount

/-- Verification of the image succeeds. -/
theorem on_verifyObserved_of_eq (sound : plan.Sound) (phases : List KcStagingPhase) :
    ∃ verification, plan.verifyObserved.on ⟨plan.linkedImage, phases⟩ =
      (.ok verification, ⟨plan.linkedImage,
        phases ++ [.arenaVerified] ++ [.memberViewsVerified]⟩) := by
  obtain ⟨sweep, swept, _⟩ := (verifyArena_decides sound plan.length_linkedImage).1 rfl
  obtain ⟨pass, passed⟩ := verifyMembers_of sound
  have sized : rejectIf (plan.linkedImage.length ≠ plan.arenaSize)
      KcStagingError.destinationSize = .ok () :=
    rejectIf_of_not _ (not_not.mpr plan.length_linkedImage)
  refine ⟨⟨plan.arenaSize, sweep.copiedBytes, sweep.zeroTailBytes, sweep.holeBytes,
    pass.headersChecked, pass.segmentViewsChecked, pass.fileBytesCompared⟩, ?_⟩
  simp only [verifyObserved, observe, on_bind, on_look, on_write, on_pure, sized, swept, passed]

/-- Verification of anything else reports a mismatch, and no phase. -/
theorem on_verifyObserved_of_ne (sound : plan.Sound) (length : destination.length = plan.arenaSize)
    (differ : destination ≠ plan.linkedImage) (phases : List KcStagingPhase) :
    plan.verifyObserved.on ⟨destination, phases⟩ =
      (.err .readbackMismatch, ⟨destination, phases⟩) := by
  have sized : rejectIf (destination.length ≠ plan.arenaSize)
      KcStagingError.destinationSize = .ok () := rejectIf_of_not _ (not_not.mpr length)
  have failed := (verifyArena_decides sound length).2 differ
  simp only [verifyObserved, on_bind, on_look, sized, failed]

/-- Staging any arena of the right size succeeds and leaves the image. -/
theorem on_stageIntoObserved (sound : plan.Sound) (length : destination.length = plan.arenaSize)
    (phases : List KcStagingPhase) :
    ∃ verification, plan.stageIntoObserved.on ⟨destination, phases⟩ =
      (.ok verification, ⟨plan.linkedImage, phases ++ [.destinationInitialized] ++
        [.segmentsCopied] ++ [.arenaVerified] ++ [.memberViewsVerified]⟩) := by
  have sized : rejectIf (destination.length ≠ plan.arenaSize)
      KcStagingError.destinationSize = .ok () := rejectIf_of_not _ (not_not.mpr length)
  have laid := sound.laidOut
  have fits : ∀ o ∈ plan.segments, o.destinationOffset + o.fileSize ≤ plan.arenaSize := by
    intro o mem
    have file_fits := laid.fileFits o mem
    have inside := laid.inside o mem
    simp only [StagingSegment.memory, Span.stop] at inside
    omega
  have copied := @on_copySegments plan.source plan.segments
    ⟨List.replicate plan.arenaSize 0, phases ++ [.destinationInitialized]⟩
    (by simpa using fits) laid.inSource (by simpa using sound.small) sound.word
  rw [applied_eq_linkedImage sound] at copied
  obtain ⟨verification, verified⟩ := on_verifyObserved_of_eq sound
    (phases ++ [.destinationInitialized] ++ [.segmentsCopied])
  refine ⟨verification, ?_⟩
  simp only [stageIntoObserved, observe, on_bind, on_look, on_write, sized]
  simp only [length, copied, verified]

/-- An arena of another size is left as it was. -/
theorem on_stageIntoObserved_of_length_ne (length : destination.length ≠ plan.arenaSize)
    (phases : List KcStagingPhase) :
    plan.stageIntoObserved.on ⟨destination, phases⟩ =
      (.err .destinationSize, ⟨destination, phases⟩) := by
  have rejected : rejectIf (destination.length ≠ plan.arenaSize)
      KcStagingError.destinationSize = .err .destinationSize := rejectIf_of _ length
  simp only [stageIntoObserved, on_bind, on_look, rejected]

end Verification

end KcStagingPlan

/-! ### The span -/

/-- From `base` on, `size` bytes are the least range of whole pages that covers the segments. -/
structure PageSpan (page : Nat) (segments : List SegmentMetadata) (base size : Nat) : Prop where
  base_dvd : page ∣ base
  size_dvd : page ∣ size
  covers : Covers base size segments
  tightest : ∀ low high, page ∣ low → page ∣ high →
    (∀ s ∈ segments, s.memorySize ≠ 0 → low ≤ s.address ∧ s.address + s.memorySize ≤ high) →
      low ≤ base ∧ base + size ≤ high

theorem Planned.pageSpan {source : Bytes} {page first last : Nat} {plan : KcStagingPlan}
    (positive : 0 < page) (planned : Planned source page first last plan) :
    PageSpan page plan.inspection.collection.segments plan.minimumVirtualAddress
      plan.arenaSize := by
  have extent := planned.extent
  rw [planned.layout.minimum, planned.layout.arenaSize]
  have covers := covers_of_extent positive extent
  refine ⟨dvd_roundDown page first, ?_, covers, ?_⟩
  · exact Nat.dvd_sub (dvd_roundUp page last) (dvd_roundDown page first)
  · intro low high low_dvd high_dvd around
    have both : low ≤ first ∧ last ≤ high := by
      apply extent.le_of_covers
      intro a mem
      obtain ⟨s, s_mem, rfl⟩ := List.mem_map.mp mem
      obtain ⟨in_segments, takes⟩ := mem_nonempty.mp s_mem
      exact around s in_segments takes
    have ordered := ((roundDown_le page first).trans extent.first_le_last).trans
      (le_roundUp positive last)
    rw [Nat.add_sub_cancel' ordered]
    exact ⟨le_roundDown positive low_dvd both.1, roundUp_le positive high_dvd both.2⟩

/-- The entry of a collection lies in its arena. -/
theorem Planned.entry_inside {source : Bytes} {page first last : Nat} {plan : KcStagingPlan}
    (positive : 0 < page) (planned : Planned source page first last plan) :
    entryAddress plan.inspection.collection.entry =
        .ok (plan.minimumVirtualAddress + plan.outerEntryOffset) ∧
      plan.outerEntryOffset < plan.arenaSize := by
  have layout := planned.layout
  obtain ⟨entry, entry_eq, s, mem, _, inside⟩ := planned.accepted.entry
  obtain ⟨address, address_eq, takes, above, below⟩ :=
    entryAddress_of_inside (planned.accepted.collection.each s mem).fileFits inside
  have covered := (planned.pageSpan positive).covers s mem takes
  have same := layout.entry
  rw [← layout.minimum] at same
  refine ⟨same, ?_⟩
  rw [entry_eq, address_eq] at same
  cases same
  omega

/-- The header of a collection lies in its arena. -/
theorem Planned.header_inside {source : Bytes} {page first last : Nat} {plan : KcStagingPlan}
    (positive : 0 < page) (planned : Planned source page first last plan) :
    plan.inspection.collection.headerAddress =
        plan.minimumVirtualAddress + plan.collectionHeaderOffset ∧
      plan.collectionHeaderOffset < plan.arenaSize := by
  have same := planned.layout.header
  rw [← planned.layout.minimum] at same
  obtain ⟨s, mem, takes, above, below⟩ := header_in_memory planned.accepted.collection
  have covered := (planned.pageSpan positive).covers s mem takes
  omega

/-- Verification tells the image from every other arena of its size. -/
theorem KcStagingPlan.verify_decides [Target] {plan : KcStagingPlan} (sound : plan.Sound)
    {destination : Bytes} (length : destination.length = plan.arenaSize) :
    Decides (destination = plan.linkedImage) .readbackMismatch (fun _ => True)
      (plan.verify destination) := by
  constructor
  · rintro rfl
    obtain ⟨verification, verified⟩ := on_verifyObserved_of_eq sound []
    exact ⟨verification, by rw [verify, verified], trivial⟩
  · intro differ
    rw [verify, on_verifyObserved_of_ne sound length differ]

/-- The result of staging, and the arena it leaves. -/
theorem KcStagingPlan.stageInto_eq [Target] {plan : KcStagingPlan} (sound : plan.Sound)
    {destination : Bytes} (length : destination.length = plan.arenaSize) :
    ∃ verification, plan.stageInto destination = (.ok verification, plan.linkedImage) := by
  obtain ⟨verification, staged⟩ := on_stageIntoObserved sound length []
  refine ⟨verification, ?_⟩
  rw [stageInto, staged]

/-! ### Staged collections -/

section Collections

variable {profile : Profile} {source : Bytes} {page first last : Nat} {plan : KcStagingPlan}

/-- The image shows the file bytes of every outer segment at its linked address. -/
theorem Planned.shows_segment (planned : Planned source page first last plan)
    {s : SegmentMetadata} (mem : s ∈ plan.inspection.collection.segments) :
    Shows plan.linkedImage (s.address - plan.minimumVirtualAddress) source s.file.offset
      s.file.size := by
  have layout := planned.layout
  intro k below
  have fits := (planned.accepted.collection.each s mem).fileFits
  obtain ⟨i, at_i⟩ := List.mem_iff_getElem?.mp mem
  have in_plan : placed plan.minimumVirtualAddress (s, i) ∈ plan.segments := by
    rw [layout.segments.mem_iff, layout.minimum]
    exact mem_placedSegments.mpr ⟨i, s, at_i, by omega, rfl⟩
  have shown := shows_of_mem planned.sound.laidOut plan.getElem?_linkedImage in_plan
  rw [layout.fromSource] at shown
  exact shown k below

/-- Elsewhere the image is zero. -/
theorem Planned.zero_elsewhere (planned : Planned source page first last plan) {i : Nat}
    (inside : i < plan.arenaSize)
    (elsewhere : ∀ s ∈ plan.inspection.collection.segments, ∀ k < s.file.size,
      i ≠ s.address - plan.minimumVirtualAddress + k) :
    plan.linkedImage[i]? = some 0 := by
  have layout := planned.layout
  rw [plan.getElem?_linkedImage i inside]
  congr 1
  apply byteOf_of_not_mem
  intro p p_mem hit
  obtain ⟨o, o_mem, rfl⟩ := List.mem_map.mp p_mem
  rw [span_piece (planned.sound.laidOut.inSource o o_mem)] at hit
  rw [layout.segments.mem_iff, ← layout.minimum] at o_mem
  obtain ⟨_, s, at_i, _, rfl⟩ := mem_placedSegments.mp o_mem
  simp only [placed, Span.mem_bytes, Span.stop_mk] at hit
  have apart := elsewhere s (List.mem_of_getElem? at_i)
    (i - (s.address - plan.minimumVirtualAddress)) (by omega)
  omega

/-- The views of a plan are those of its members. -/
theorem Planned.mem_memberViews (planned : Planned source page first last plan)
    {view : MemberView} : view ∈ plan.memberViews ↔
      ∃ member ∈ plan.inspection.members, view ∈ viewsOf plan.minimumVirtualAddress member := by
  rw [planned.layout.views.mem_iff, planned.layout.minimum]
  exact List.mem_flatMap

/-- The image shows the file bytes of every view. -/
theorem Planned.shows_view (planned : Planned source page first last plan) {view : MemberView}
    (mem : view ∈ plan.memberViews) :
    Shows plan.linkedImage view.destinationOffset source view.fileOffset view.fileSize := by
  obtain ⟨outer, o_mem, owned⟩ := (planned.sound.viewOk view mem).owned
  have shown := shows_of_owned planned.sound.laidOut plan.getElem?_linkedImage o_mem owned
  rwa [planned.layout.fromSource] at shown

/-- Every view of a member lies at its linked address, which is not below the arena's. -/
theorem Planned.member_above (planned : Planned source page first last plan) (positive : 0 < page)
    {member : FilesetMember} (mem : member ∈ plan.inspection.members) :
    plan.minimumVirtualAddress ≤ member.image.headerAddress ∧
      ∀ s ∈ nonempty member.image.segments, plan.minimumVirtualAddress ≤ s.address := by
  obtain ⟨own, mapped⟩ := planned.accepted.members member mem
  have covers := (planned.pageSpan positive).covers
  obtain ⟨header, each⟩ := viewOk_of_member planned.accepted.collection own mapped
    (fun _ placed_mem => placed_mem) covers
  exact ⟨header.1, fun s s_mem => (each s s_mem).1⟩

/-- Staging leaves exactly the linked image: the file bytes of each outer segment at its
address, zeros elsewhere, in the least span of pages that covers the segments. Any other
size of the arena is refused before anything is written or reported. -/
theorem stage_into_exact [UnstableSort] [Target]
    (made : KcStagingPlan.forProfile profile source = .ok plan) :
    inspectProfile source profile = .ok plan.inspection ∧ plan.pageSize = pageSizeOf profile ∧
      PageSpan (pageSizeOf profile) plan.inspection.collection.segments
        plan.minimumVirtualAddress plan.arenaSize ∧
      (∀ destination : Bytes, destination.length = plan.arenaSize →
        (∃ verification, (plan.stageInto destination).1 = .ok verification) ∧
          (plan.stageInto destination).2.length = plan.arenaSize ∧
          (∀ s ∈ plan.inspection.collection.segments,
            Shows (plan.stageInto destination).2 (s.address - plan.minimumVirtualAddress)
              source s.file.offset s.file.size) ∧
          ∀ i < plan.arenaSize,
            (∀ s ∈ plan.inspection.collection.segments, ∀ k < s.file.size,
              i ≠ s.address - plan.minimumVirtualAddress + k) →
            (plan.stageInto destination).2[i]? = some 0) ∧
      ∀ (destination : Bytes) (phases : List KcStagingPhase),
        destination.length ≠ plan.arenaSize →
          plan.stageInto destination = (.err .destinationSize, destination) ∧
            plan.stageIntoObserved.on ⟨destination, phases⟩ =
              (.err .destinationSize, ⟨destination, phases⟩) := by
  obtain ⟨inspected, first, last, planned⟩ := planned_of_ok made
  have positive := Nat.pos_of_isPowerOfTwo (pageSizeOf_pow profile)
  refine ⟨inspected, planned.layout.pageSize, planned.pageSpan positive, ?_, ?_⟩
  · intro destination length
    obtain ⟨verification, staged⟩ := KcStagingPlan.stageInto_eq planned.sound length
    rw [staged]
    refine ⟨⟨verification, rfl⟩, plan.length_linkedImage, ?_, ?_⟩
    · intro s mem
      exact planned.shows_segment mem
    · intro i inside elsewhere
      exact planned.zero_elsewhere inside elsewhere
  · intro destination phases length
    have refused := KcStagingPlan.on_stageIntoObserved_of_length_ne length
    refine ⟨?_, refused phases⟩
    rw [KcStagingPlan.stageInto, refused]

theorem stage_into_exact_sample :
    ∃ plan, @KcStagingPlan.forProfile UnstableSort.insertion .x86_64 sampleCollection = .ok plan ∧
      PageSpan stagingPageSize plan.inspection.collection.segments plan.minimumVirtualAddress
        plan.arenaSize ∧
      ∃ verification, (@KcStagingPlan.stageInto Target.aligned plan
        (List.replicate plan.arenaSize 165)).1 = .ok verification := by
  obtain ⟨plan, made⟩ := isOk_iff.mp
    (show (@KcStagingPlan.forProfile UnstableSort.insertion .x86_64 sampleCollection).isOk = true by
      decide +kernel)
  obtain ⟨_, _, span, staged, _⟩ :=
    @stage_into_exact .x86_64 _ plan UnstableSort.insertion Target.aligned made
  exact ⟨plan, made, span, (staged _ List.length_replicate).1⟩

/-- Every member finds its header and load commands, and the file bytes of its segments, at its
own linked addresses in the staged arena, although only outer segments are copied. -/
theorem member_views_coherent [UnstableSort] [Target]
    (made : KcStagingPlan.forProfile profile source = .ok plan)
    {destination : Bytes} (length : destination.length = plan.arenaSize)
    {member : FilesetMember} (mem : member ∈ plan.inspection.members) :
    (plan.minimumVirtualAddress ≤ member.image.headerAddress ∧
      Shows (plan.stageInto destination).2
        (member.image.headerAddress - plan.minimumVirtualAddress) source
        member.image.headerFileOffset (32 + member.image.commandBytes)) ∧
      ∀ s ∈ member.image.segments, s.file.size ≠ 0 →
        plan.minimumVirtualAddress ≤ s.address ∧
          Shows (plan.stageInto destination).2 (s.address - plan.minimumVirtualAddress) source
            s.file.offset s.file.size := by
  obtain ⟨_, first, last, planned⟩ := planned_of_ok made
  have positive := Nat.pos_of_isPowerOfTwo (pageSizeOf_pow profile)
  obtain ⟨header_above, above⟩ := planned.member_above positive mem
  obtain ⟨verification, staged⟩ := KcStagingPlan.stageInto_eq planned.sound length
  have viewed {view : MemberView} (view_mem : view ∈ viewsOf plan.minimumVirtualAddress member) :
      view ∈ plan.memberViews :=
    planned.mem_memberViews.mpr ⟨member, mem, view_mem⟩
  rw [staged]
  constructor
  · exact ⟨header_above, planned.shows_view (viewed List.mem_cons_self)⟩
  · intro s s_mem backed
    have fits := ((planned.accepted.members member mem).1.each s s_mem).fileFits
    have takes : s ∈ nonempty member.image.segments := mem_nonempty.mpr ⟨s_mem, by omega⟩
    refine ⟨above s takes, ?_⟩
    exact planned.shows_view (viewed (List.mem_cons_of_mem _ (List.mem_map_of_mem takes)))

theorem member_views_coherent_sample :
    ∃ plan, @KcStagingPlan.forProfile UnstableSort.insertion .x86_64 sampleCollection = .ok plan ∧
      ∃ member ∈ plan.inspection.members,
        Shows (@KcStagingPlan.stageInto Target.aligned plan (List.replicate plan.arenaSize 165)).2
          (member.image.headerAddress - plan.minimumVirtualAddress) sampleCollection
          member.image.headerFileOffset (32 + member.image.commandBytes) := by
  obtain ⟨plan, made, members⟩ := isOkAnd_iff.mp
    (show (@KcStagingPlan.forProfile UnstableSort.insertion .x86_64 sampleCollection).isOkAnd
        (fun plan => plan.inspection.members ≠ []) = true by
      decide +kernel)
  obtain ⟨member, mem⟩ := List.exists_mem_of_ne_nil _ (of_decide_eq_true members)
  have coherent := @member_views_coherent .x86_64 _ plan UnstableSort.insertion Target.aligned made
    (List.replicate plan.arenaSize 165) List.length_replicate member mem
  exact ⟨plan, made, member, mem, coherent.1.2⟩

/-- Verification accepts the arena that staging writes, and no other: any difference is a
mismatch, and the pass over the members never changes the verdict of the pass over the arena. -/
theorem verify_exact [UnstableSort] [Target]
    (made : KcStagingPlan.forProfile profile source = .ok plan) :
    (∀ prior : Bytes, prior.length = plan.arenaSize →
      (plan.stageInto prior).2 = plan.linkedImage) ∧
      ∀ destination : Bytes, destination.length = plan.arenaSize →
        ((∃ verification, plan.verify destination = .ok verification) ↔
          destination = plan.linkedImage) ∧
        (destination ≠ plan.linkedImage → plan.verify destination = .err .readbackMismatch) ∧
        ((∃ verification, plan.verify destination = .ok verification) ↔
          ∃ sweep, verifyArena plan destination = .ok sweep) ∧
        ∀ sweep, verifyArena plan destination = .ok sweep →
          ∃ pass, verifyMembers plan destination = .ok pass := by
  obtain ⟨_, first, last, planned⟩ := planned_of_ok made
  have sound := planned.sound
  refine ⟨?_, ?_⟩
  · intro prior length
    obtain ⟨verification, staged⟩ := KcStagingPlan.stageInto_eq sound length
    rw [staged]
  · intro destination length
    have arena := KcStagingPlan.verifyArena_decides sound length
    have whole := KcStagingPlan.verify_decides sound length
    by_cases same : destination = plan.linkedImage
    · subst same
      obtain ⟨verification, returned, _⟩ := whole.1 rfl
      obtain ⟨sweep, swept, _⟩ := arena.1 rfl
      refine ⟨⟨fun _ => rfl, fun _ => ⟨_, returned⟩⟩, fun differ => absurd rfl differ,
        ⟨fun _ => ⟨_, swept⟩, fun _ => ⟨_, returned⟩⟩, fun _ _ => ?_⟩
      exact KcStagingPlan.verifyMembers_of sound
    · rw [whole.2 same, arena.2 same]
      refine ⟨⟨?_, fun eq => absurd eq same⟩, fun _ => rfl, ⟨?_, ?_⟩, ?_⟩
      · rintro ⟨verification, returned⟩
        cases returned
      · rintro ⟨verification, returned⟩
        cases returned
      · rintro ⟨sweep, swept⟩
        cases swept
      · intro sweep swept
        cases swept

theorem verify_exact_sample :
    ∃ plan, @KcStagingPlan.forProfile UnstableSort.insertion .x86_64 sampleCollection = .ok plan ∧
      ∃ verification, @KcStagingPlan.verify Target.aligned plan plan.linkedImage =
        .ok verification := by
  obtain ⟨plan, made⟩ := isOk_iff.mp
    (show (@KcStagingPlan.forProfile UnstableSort.insertion .x86_64 sampleCollection).isOk = true by
      decide +kernel)
  have verified := (@verify_exact .x86_64 _ plan UnstableSort.insertion Target.aligned made).2
    plan.linkedImage plan.length_linkedImage
  exact ⟨plan, made, verified.1.mpr rfl⟩

end Collections

end Nextcore.KcStaging
