import Nextcore.KcStaging.Plan
import Nextcore.KernelCollection.WellFormed

/-!
The layout of a plan.

What the planner computes of an inspected collection is written down here without its checks:
where the outer segments come to lie (`placedSegments`) and which member views there are
(`viewsOf`). In an arena that covers the collection the segments are laid out in order and
apart (`laidOut_placed`), and each view lies in one of them with the displacement of that
segment (`viewOk_of_member`). `PlanInv` is what the rest of the development knows of a plan.
-/

namespace Nextcore.KcStaging

open Checked Checked.Outcome
open KernelCollection

/-! ### Outer segments -/

/-- The arena offsets of the mapping. -/
def StagingSegment.memory (s : StagingSegment) : Span := ⟨s.destinationOffset, s.memorySize⟩

/-- One outer segment, in an arena whose first byte is linked at `base`. -/
def placed (base : Nat) (entry : SegmentMetadata × Nat) : StagingSegment :=
  ⟨entry.2, entry.1.address, entry.1.address - base, entry.1.memorySize, entry.1.file.offset,
    entry.1.file.size, entry.1.initialProtection, entry.1.maximumProtection⟩

/-- The outer segments that take memory, each with the index of its command. -/
def placedSegments (base : Nat) (segments : List SegmentMetadata) : List StagingSegment :=
  (segments.zipIdx.filter (·.1.memorySize ≠ 0)).map (placed base)

theorem mem_placedSegments {base : Nat} {segments : List SegmentMetadata} {o : StagingSegment} :
    o ∈ placedSegments base segments ↔
      ∃ i s, segments[i]? = some s ∧ s.memorySize ≠ 0 ∧ placed base (s, i) = o := by
  simp only [placedSegments, List.mem_map, List.mem_filter, List.mem_zipIdx_iff_getElem?,
    decide_eq_true_eq, Prod.exists]
  constructor
  · rintro ⟨s, i, ⟨at_i, nonempty⟩, rfl⟩
    exact ⟨i, s, at_i, nonempty, rfl⟩
  · rintro ⟨i, s, at_i, nonempty, rfl⟩
    exact ⟨s, i, ⟨at_i, nonempty⟩, rfl⟩

/-- The segments of the planner are laid out in the arena: in order and apart, their file bytes
within their memory and within the source. -/
structure LaidOut (source : Bytes) (size : Nat) (segments : List StagingSegment) : Prop where
  fileFits : ∀ s ∈ segments, s.fileSize ≤ s.memorySize
  inside : ∀ s ∈ segments, s.memory.stop ≤ size
  inSource : ∀ s ∈ segments, s.fileOffset + s.fileSize ≤ source.length
  ascending : segments.Pairwise fun a b => a.memory.stop ≤ b.memory.start

/-! ### Member views -/

/-- The view lies in the mapping, and its file bytes lie as far into the mapping's. -/
def Owned (view : MemberView) (outer : StagingSegment) : Prop :=
  outer.destinationOffset ≤ view.destinationOffset ∧
    view.destinationOffset + view.memorySize ≤ outer.destinationOffset + outer.memorySize ∧
    (view.fileSize ≠ 0 → outer.fileOffset ≤ view.fileOffset ∧
      view.fileOffset + view.fileSize ≤ outer.fileOffset + outer.fileSize ∧
      view.destinationOffset - outer.destinationOffset = view.fileOffset - outer.fileOffset)

instance (view : MemberView) (outer : StagingSegment) : Decidable (Owned view outer) := by
  unfold Owned
  infer_instance

/-- The view of a member's header and load commands. -/
def headerView (base : Nat) (image : ImageMetadata) : MemberView :=
  ⟨image.headerAddress - base, 32 + image.commandBytes, image.headerFileOffset,
    32 + image.commandBytes, true⟩

/-- The view of a member's segment. -/
def segmentView (base : Nat) (s : SegmentMetadata) : MemberView :=
  ⟨s.address - base, s.memorySize, s.file.offset, s.file.size, false⟩

/-- The views of a member. -/
def viewsOf (base : Nat) (member : FilesetMember) : List MemberView :=
  headerView base member.image :: (nonempty member.image.segments).map (segmentView base)

/-- What the planner has checked of a view. -/
structure ViewOk (source : Bytes) (size : Nat) (segments : List StagingSegment)
    (view : MemberView) : Prop where
  inside : view.destinationOffset + view.memorySize ≤ size
  inSource : view.fileOffset + view.fileSize ≤ source.length
  fileFits : view.fileSize ≤ view.memorySize
  owned : ∃ outer ∈ segments, Owned view outer

/-- The memory of the segments that take any. -/
def memories (segments : List SegmentMetadata) : List Span := (nonempty segments).map (·.memory)

theorem mem_nonempty {segments : List SegmentMetadata} {s : SegmentMetadata} :
    s ∈ nonempty segments ↔ s ∈ segments ∧ s.memorySize ≠ 0 := by
  rw [nonempty, List.mem_filter, decide_eq_true_eq]

/-- What is known of the layout that a plan gives an inspected collection. -/
structure PlanInv (source : Bytes) (inspection : KcMetadataInspection) (page base size : Nat)
    (plan : KcStagingPlan) : Prop where
  fromSource : plan.source = source
  inspected : plan.inspection = inspection
  pageSize : plan.pageSize = page
  minimum : plan.minimumVirtualAddress = base
  arenaSize : plan.arenaSize = size
  segments : plan.segments.Perm (placedSegments base inspection.collection.segments)
  laidOut : LaidOut source size plan.segments
  views : plan.memberViews.Perm (inspection.members.flatMap (viewsOf base))
  viewsSorted : plan.memberViews.Pairwise fun a b => a.destinationOffset ≤ b.destinationOffset
  viewOk : ∀ view ∈ plan.memberViews, ViewOk source size plan.segments view
  viewCount : plan.memberViews.length ≤ maxMembers + maxSegments
  header : base + plan.collectionHeaderOffset = inspection.collection.headerAddress
  entry : entryAddress inspection.collection.entry = .ok (base + plan.outerEntryOffset)

/-! ### What the inspector grants -/

section Placing

variable {source : Bytes} {inspection : KcMetadataInspection} {base size : Nat}

/-- The memory of an image lies between `base` and the end of the arena. -/
def Covers (base size : Nat) (segments : List SegmentMetadata) : Prop :=
  ∀ s ∈ segments, s.memorySize ≠ 0 → base ≤ s.address ∧ s.address + s.memorySize ≤ base + size

/-- The outer segments are laid out where the plan places them. -/
theorem laidOut_placed [UnstableSort] {segments : List SegmentMetadata}
    (each : ∀ s ∈ segments, SegmentOk source s) (nonoverlap : Nonoverlap segments)
    (covers : Covers base size segments) :
    LaidOut source size
      (UnstableSort.sortByKey (·.destinationOffset) (placedSegments base segments)) := by
  have find {o : StagingSegment}
      (mem : o ∈ UnstableSort.sortByKey (·.destinationOffset) (placedSegments base segments)) :
      ∃ i, ∃ s ∈ segments, s.memorySize ≠ 0 ∧ placed base (s, i) = o := by
    obtain ⟨i, s, at_i, memory, eq⟩ := mem_placedSegments.mp (UnstableSort.mem_sortByKey.mp mem)
    exact ⟨i, s, List.mem_of_getElem? at_i, memory, eq⟩
  refine ⟨?_, ?_, ?_, ?_⟩
  · intro o mem
    obtain ⟨i, s, s_mem, memory, rfl⟩ := find mem
    exact (each s s_mem).fileFits
  · intro o mem
    obtain ⟨i, s, s_mem, memory, rfl⟩ := find mem
    obtain ⟨above, below⟩ := covers s s_mem memory
    simp only [StagingSegment.memory, Span.stop, placed]
    omega
  · intro o mem
    obtain ⟨i, s, s_mem, memory, rfl⟩ := find mem
    exact (each s s_mem).inside
  · have apart : (placedSegments base segments).Pairwise fun a b => a.memory.Apart b.memory := by
      have by_index : (segments.zipIdx.filter (·.1.memorySize ≠ 0)).map Prod.fst =
          segments.filter (·.memorySize ≠ 0) := by
        conv_rhs => rw [← List.zipIdx_map_fst 0 segments, List.filter_map]
        rfl
      have memory := nonoverlap.memory
      rw [← by_index, List.pairwise_map] at memory
      rw [placedSegments, List.pairwise_map]
      refine memory.imp_of_mem fun {a b} ha hb apart => ?_
      have above {entry : SegmentMetadata × Nat}
          (mem : entry ∈ segments.zipIdx.filter (·.1.memorySize ≠ 0)) :
          base ≤ entry.1.address := by
        obtain ⟨in_zip, memory⟩ := List.mem_filter.mp mem
        exact (covers _ (List.fst_mem_of_mem_zipIdx in_zip) (of_decide_eq_true memory)).1
      have a_above := above ha
      have b_above := above hb
      simp only [Span.Apart, Span.stop, SegmentMetadata.memory, StagingSegment.memory,
        placed] at apart ⊢
      omega
    refine @UnstableSort.ascending_of_apart _ _ StagingSegment.memory _ ?_ apart
    intro o mem
    obtain ⟨i, s, s_mem, memory, rfl⟩ := mem_placedSegments.mp mem
    exact Nat.pos_of_ne_zero memory

variable {segments : List StagingSegment}

/-- What lies in the memory of an outer segment, and views its file bytes, is a sound view. -/
theorem viewOk_of_within {outer : List SegmentMetadata} {o : SegmentMetadata}
    {address memorySize offset fileSize : Nat} (isHeader : Bool)
    (complete : ∀ s ∈ placedSegments base outer, s ∈ segments) (covers : Covers base size outer)
    (mem : o ∈ outer) (memory : Span.Within ⟨address, memorySize⟩ o.memory)
    (takes : memorySize ≠ 0) (views : fileSize ≠ 0 → o.Views ⟨offset, fileSize⟩ address)
    (inSource : offset + fileSize ≤ source.length) (fits : fileSize ≤ memorySize) :
    base ≤ address ∧
      ViewOk source size segments ⟨address - base, memorySize, offset, fileSize, isHeader⟩ := by
  obtain ⟨low, high⟩ := memory
  simp only [SegmentMetadata.memory, Span.stop] at low high
  have outer_takes : o.memorySize ≠ 0 := by omega
  obtain ⟨above, below⟩ := covers o mem outer_takes
  obtain ⟨i, at_i⟩ := List.mem_iff_getElem?.mp mem
  have is_placed : placed base (o, i) ∈ placedSegments base outer :=
    mem_placedSegments.mpr ⟨i, o, at_i, outer_takes, rfl⟩
  refine ⟨by omega, by dsimp only; omega, inSource, fits, placed base (o, i),
    complete _ is_placed, ?_, ?_, ?_⟩
  · simp only [placed]
    omega
  · simp only [placed]
    omega
  · intro nonempty
    obtain ⟨⟨file_low, file_high⟩, _, displacement⟩ := views nonempty
    simp only [FileRange.span, Span.stop] at file_low file_high displacement
    simp only [placed]
    omega

/-- Every view of an inspected member is sound. -/
theorem viewOk_of_member {collection image : ImageMetadata} (outer : ImageInv source collection)
    (own : ImageInv source image) (mapped : MemberMapped collection.segments image)
    (complete : ∀ s ∈ placedSegments base collection.segments, s ∈ segments)
    (covers : Covers base size collection.segments) :
    (base ≤ image.headerAddress ∧ ViewOk source size segments (headerView base image)) ∧
      ∀ s ∈ nonempty image.segments,
        base ≤ s.address ∧ ViewOk source size segments (segmentView base s) := by
  have formed := mapped.wellFormed outer own
  constructor
  · obtain ⟨o, o_mem, memory, views⟩ := formed.header
    refine viewOk_of_within true complete covers o_mem memory (by omega) (fun _ => views) ?_
      (Nat.le_refl _)
    obtain ⟨r, r_mem, r_views⟩ := own.header
    have r_inside := (own.each r r_mem).inside
    have r_high := r_views.within.2
    simp only [ImageMetadata.header, FileRange.span, Span.stop] at r_high
    omega
  · intro s s_nonempty
    obtain ⟨s_mem, takes⟩ := mem_nonempty.mp s_nonempty
    have checked := own.each s s_mem
    by_cases empty : s.file.size = 0
    · obtain ⟨o, o_mem, memory⟩ := formed.zeroFill s s_mem empty takes
      exact viewOk_of_within false complete covers o_mem memory takes
        (fun nonempty => absurd empty nonempty) checked.inside checked.fileFits
    · obtain ⟨o, o_mem, memory, views⟩ := formed.fileBacked s s_mem empty
      exact viewOk_of_within false complete covers o_mem memory takes (fun _ => views)
        checked.inside checked.fileFits

/-- The header of an image lies in a segment that takes memory. -/
theorem header_in_memory {image : ImageMetadata} (inv : ImageInv source image) :
    ∃ s ∈ image.segments, s.memorySize ≠ 0 ∧ s.address ≤ image.headerAddress ∧
      image.headerAddress + (32 + image.commandBytes) ≤ s.address + s.memorySize := by
  obtain ⟨s, mem, views⟩ := inv.header
  obtain ⟨low, high⟩ := memory_of_views (inv.each s mem) views
  simp only [SegmentMetadata.memory, Span.stop] at low high
  exact ⟨s, mem, by omega, low, high⟩

theorem length_views_le (base : Nat) (members : List FilesetMember) :
    (members.flatMap (viewsOf base)).length ≤
      members.length + (members.map (·.image.segments.length)).sum := by
  induction members with
  | nil => exact Nat.le_refl _
  | cons member rest ih =>
      have kept : (nonempty member.image.segments).length ≤ member.image.segments.length :=
        List.length_filter_le ..
      simp only [List.flatMap_cons, List.length_append, viewsOf, List.length_cons,
        List.length_map, List.map_cons, List.sum_cons]
      omega

end Placing

end Nextcore.KcStaging
