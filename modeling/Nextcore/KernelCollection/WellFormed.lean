import Nextcore.KernelCollection.Scan

/-!
Accepted collections are well formed.

`InspectionInv` is what the inspector has checked, in its own terms; `WellFormed` says what
that means for addresses and file offsets. The two searches that place a member segment,
one by memory and one by file range, have the segment's first address in common, and no
two outer segments share an address: both find the same one (`ImageInv.same_segment`).
-/

namespace Nextcore.KernelCollection

open Checked Checked.Outcome

variable {bytes : Bytes}

/-! ### The collection's entry -/

/-- The instruction at the entry lies in the file-backed bytes of the segment. -/
def EntryMetadata.Inside (s : SegmentMetadata) : EntryMetadata → Prop
  | .unixThread64 instructionPointer =>
      s.address ≤ instructionPointer ∧ instructionPointer < s.address + s.file.size
  | .armThread64 instructionPointer _ _ _ =>
      4 ∣ instructionPointer ∧ s.address ≤ instructionPointer ∧
        instructionPointer + 4 ≤ s.address + s.file.size
  | .main _ _ => False

theorem inside_of_entryIn {entry : EntryMetadata} {s : SegmentMetadata}
    (found : entryIn entry s = true) : s.initialProtection &&& 4 ≠ 0 ∧ entry.Inside s := by
  unfold entryIn at found
  rcases ite_eq_iff.mp found with ⟨_, found⟩ | ⟨executable, found⟩
  · cases found
  · refine ⟨executable, ?_⟩
    cases entry with
    | unixThread64 instructionPointer =>
        obtain ⟨n, distance, inside⟩ := (Option.any_eq_true _ _).mp found
        obtain ⟨above, rfl⟩ := checkedSub_eq_some.mp distance
        have below := of_decide_eq_true inside
        exact ⟨above, by omega⟩
    | armThread64 instructionPointer stackPointer cpsr flags =>
        obtain ⟨aligned, found⟩ := of_decide_eq_true found
        obtain ⟨n, sum, inside⟩ := (Option.any_eq_true _ _).mp found
        obtain ⟨k, distance, added⟩ := Option.bind_eq_some_iff.mp sum
        obtain ⟨above, rfl⟩ := checkedSub_eq_some.mp distance
        obtain ⟨_, rfl⟩ := checkedAdd_eq_some.mp added
        have below := of_decide_eq_true inside
        exact ⟨Nat.dvd_of_mod_eq_zero aligned, above, by omega⟩
    | main textOffset stackSize => cases found

/-- The entry of an accepted collection lies in an executable segment. -/
theorem validateCollectionEntry_eq_ok {image : ImageMetadata} {u : Unit}
    (valid : validateCollectionEntry image = .ok u) :
    ∃ entry, image.entry = some entry ∧
      ∃ s ∈ image.segments, s.initialProtection &&& 4 ≠ 0 ∧ entry.Inside s := by
  obtain ⟨entry, present, valid⟩ := bind_eq_ok.mp valid
  rw [ofOption_eq_ok] at present
  refine ⟨entry, present, ?_⟩
  cases entry with
  | main => cases valid
  | unixThread64 | armThread64 =>
      rw [rejectIf_eq_ok, Bool.not_eq_false] at valid
      obtain ⟨s, mem, found⟩ := List.any_eq_true.mp valid
      exact ⟨s, mem, inside_of_entryIn found⟩

/-! ### The members -/

theorem views_of_isCollectionView {segments : List SegmentMetadata} {file : FileRange}
    {address : Nat} (viewed : isCollectionView segments file address = true) :
    ∃ s ∈ segments, s.Views file.span address := by
  obtain ⟨s, mem, found⟩ := List.any_eq_true.mp viewed
  obtain ⟨inside, same⟩ := of_decide_eq_true found
  obtain ⟨within, _, _⟩ := contains_iff.mp inside
  have offset : checkedSub file.offset s.file.offset = some (file.offset - s.file.offset) :=
    checkedSub_eq_some.mpr ⟨within.1, rfl⟩
  rw [offset, checkedSub_eq_some] at same
  exact ⟨s, mem, within, same.1, same.2⟩

/-- What has been checked of a member against the outer segments. -/
structure MemberMapped (outer : List SegmentMetadata) (image : ImageMetadata) : Prop where
  header : ∃ o ∈ outer, o.Views image.header image.headerAddress
  memory : ∀ s ∈ image.segments, s.memorySize ≠ 0 → ∃ o ∈ outer, s.memory.Within o.memory
  files : ∀ s ∈ image.segments, s.file.size ≠ 0 → ∃ o ∈ outer, o.Views s.file.span s.address

theorem validateMemberSegment_eq_ok {segments : List SegmentMetadata} {s : SegmentMetadata}
    {u : Unit} (valid : validateMemberSegment segments s = .ok u) :
    (s.memorySize ≠ 0 → ∃ o ∈ segments, s.memory.Within o.memory) ∧
      (s.file.size ≠ 0 → ∃ o ∈ segments, o.Views s.file.span s.address) := by
  simp only [validateMemberSegment, seq_eq_ok, rejectIf_eq_ok, not_and, not_not] at valid
  constructor
  · intro nonempty
    obtain ⟨o, mem, inside⟩ := List.any_eq_true.mp (valid.1 nonempty)
    exact ⟨o, mem, (contains_iff.mp inside).1⟩
  · intro nonempty
    exact views_of_isCollectionView (valid.2 nonempty)

/-- A member is an image that is parsed at its offset, and compared with the outer image. -/
theorem parsed_of_inspectMember [UnstableSort] {profile : Profile} {outer : ImageMetadata}
    {reference : MemberReference} {budget budget' : Budget} {member : FilesetMember}
    (done : inspectMember bytes profile outer reference budget = .ok (member, budget')) :
    ∃ parsed, parseImage bytes reference.offset false profile budget = .ok (parsed, budget') ∧
      member.image = parsed.image ∧ member.image.headerAddress = reference.address ∧
      isCollectionView outer.segments ⟨reference.offset, 32 + member.image.commandBytes⟩
        reference.address = true ∧
      ∀ s ∈ member.image.segments, validateMemberSegment outer.segments s = .ok () := by
  unfold inspectMember at done
  obtain ⟨⟨parsed, left⟩, ran, done⟩ := bind_eq_ok.mp done
  obtain ⟨_, _, done⟩ := bind_eq_ok.mp done
  obtain ⟨_, address, done⟩ := bind_eq_ok.mp done
  obtain ⟨headerSize, sized, done⟩ := bind_eq_ok.mp done
  obtain ⟨_, rfl⟩ := add_eq_ok.mp sized
  obtain ⟨_, header, done⟩ := bind_eq_ok.mp done
  obtain ⟨_, checked, done⟩ := bind_eq_ok.mp done
  cases done
  simp only [rejectIf_eq_ok, not_not] at address header
  exact ⟨parsed, ran, rfl, address, header, forEach_eq_ok.mp checked⟩

theorem inspectMember_eq_ok [UnstableSort] {profile : Profile} {outer : ImageMetadata}
    {reference : MemberReference} {budget budget' : Budget} {member : FilesetMember}
    (done : inspectMember bytes profile outer reference budget = .ok (member, budget'))
    (within : budget.segments ≤ maxSegments) :
    ImageInv bytes member.image ∧ MemberMapped outer.segments member.image ∧
      budget'.segments = budget.segments + member.image.segments.length ∧
      budget'.segments ≤ maxSegments := by
  obtain ⟨parsed, ran, same, address, header, each⟩ := parsed_of_inspectMember done
  obtain ⟨inv, base, _, spent, limit⟩ := parseImage_eq_ok ran within
  rw [← same] at inv base spent
  refine ⟨inv, ⟨?_, ?_, ?_⟩, spent, limit⟩
  · obtain ⟨o, mem, viewed⟩ := views_of_isCollectionView header
    refine ⟨o, mem, ?_⟩
    rw [address, ImageMetadata.header, base]
    exact viewed
  · exact fun s mem => (validateMemberSegment_eq_ok (each s mem)).1
  · exact fun s mem => (validateMemberSegment_eq_ok (each s mem)).2

/-- Every member is well formed and mapped, and all their segments are paid for. -/
theorem inspectMembers_eq_ok [UnstableSort] {profile : Profile} {outer : ImageMetadata}
    {references : List MemberReference} {budget : Budget} {members : List FilesetMember}
    (done : inspectMembers bytes profile outer references budget = .ok members)
    (within : budget.segments ≤ maxSegments) :
    (∀ member ∈ members, ImageInv bytes member.image ∧ MemberMapped outer.segments member.image) ∧
      members.length = references.length ∧
      budget.segments + (members.map (·.image.segments.length)).sum ≤ maxSegments := by
  induction references generalizing budget members with
  | nil =>
      cases done
      exact ⟨by simp, rfl, within⟩
  | cons reference rest ih =>
      unfold inspectMembers at done
      obtain ⟨⟨member, left⟩, first, done⟩ := bind_eq_ok.mp done
      obtain ⟨others, remaining, done⟩ := bind_eq_ok.mp done
      cases done
      obtain ⟨inv, mapped, spent, limit⟩ := inspectMember_eq_ok first within
      obtain ⟨each, count, sum⟩ := ih remaining limit
      refine ⟨List.forall_mem_cons.mpr ⟨⟨inv, mapped⟩, each⟩, ?_, ?_⟩
      · rw [List.length_cons, List.length_cons, count]
      · rw [spent, Nat.add_assoc] at sum
        rwa [List.map_cons, List.sum_cons]

/-! ### The collection -/

/-- What the inspector has checked of what it returns. -/
structure InspectionInv (bytes : Bytes) (inspection : KcMetadataInspection) : Prop where
  input : bytes.length ≤ maxInputSize
  collection : ImageInv bytes inspection.collection
  entry : ∃ entry, inspection.collection.entry = some entry ∧
    ∃ s ∈ inspection.collection.segments, s.initialProtection &&& 4 ≠ 0 ∧ entry.Inside s
  members : ∀ member ∈ inspection.members, ImageInv bytes member.image ∧
    MemberMapped inspection.collection.segments member.image
  memberCount : inspection.members.length ≤ maxMembers
  memberSegments : (inspection.members.map (·.image.segments.length)).sum ≤ maxSegments

theorem inspectProfile_eq_ok [UnstableSort] {profile : Profile} {inspection : KcMetadataInspection}
    (accepted : inspectProfile bytes profile = .ok inspection) :
    InspectionInv bytes inspection := by
  unfold inspectProfile at accepted
  obtain ⟨_, input, accepted⟩ := bind_eq_ok.mp accepted
  obtain ⟨⟨outer, left⟩, parsed, accepted⟩ := bind_eq_ok.mp accepted
  obtain ⟨_, entry, accepted⟩ := bind_eq_ok.mp accepted
  obtain ⟨_, _, accepted⟩ := bind_eq_ok.mp accepted
  obtain ⟨members, ran, accepted⟩ := bind_eq_ok.mp accepted
  cases accepted
  obtain ⟨inv, _, room, _, limit⟩ := parseImage_eq_ok parsed (Nat.zero_le _)
  obtain ⟨each, count, sum⟩ := inspectMembers_eq_ok ran limit
  rw [rejectIf_eq_ok, Nat.not_lt] at input
  exact ⟨input, inv, validateCollectionEntry_eq_ok entry, each, count ▸ room,
    Nat.le_trans (Nat.le_add_left _ _) sum⟩

theorem inspectionInv_of_accepted [UnstableSort] {inspection : KcMetadataInspection}
    (accepted : inspectKernelCollection bytes = .ok inspection ∨
      inspectArm64KernelCollection bytes = .ok inspection) : InspectionInv bytes inspection := by
  rcases accepted with intel | arm
  · exact inspectProfile_eq_ok intel
  · exact inspectProfile_eq_ok arm

/-! ### In terms of addresses and offsets -/

/-- What a segment views lies in its memory. -/
theorem memory_of_views {s : SegmentMetadata} (checked : SegmentOk bytes s)
    {address offset size : Nat}
    (views : s.Views ⟨offset, size⟩ address) : Span.Within ⟨address, size⟩ s.memory := by
  have fits := checked.fileFits
  obtain ⟨⟨low, high⟩, above, displacement⟩ := views
  simp only [FileRange.span, Span.stop] at low high displacement
  refine ⟨above, ?_⟩
  simp only [SegmentMetadata.memory, Span.stop]
  omega

/-- The segment that has the memory of a range and the segment that views its file bytes are
the same one: the first address is in both, and segments are apart. -/
theorem ImageInv.same_segment {image : ImageMetadata} (inv : ImageInv bytes image)
    {o o' : SegmentMetadata} (mem : o ∈ image.segments) (mem' : o' ∈ image.segments)
    {s : SegmentMetadata} (fits : s.file.size ≤ s.memorySize) (nonempty : s.file.size ≠ 0)
    (memory : s.memory.Within o.memory) (views : o'.Views s.file.span s.address) : o = o' := by
  have first : s.address ∈ s.memory.bytes := by
    simp only [SegmentMetadata.memory, Span.mem_bytes, Span.stop]
    omega
  have first' : s.address ∈ (Span.mk s.address s.file.size).bytes := by
    simp only [Span.mem_bytes, Span.stop]
    omega
  have in_o := memory.mem first
  have in_o' := (memory_of_views (inv.each o' mem') views).mem first'
  -- Both segments have memory, so both take part in the check of the addresses.
  have has_memory {r : SegmentMetadata} (r_mem : r ∈ image.segments)
      (inside : s.address ∈ r.memory.bytes) :
      r ∈ image.segments.filter (·.memorySize ≠ 0) := by
    refine List.mem_filter.mpr ⟨r_mem, decide_eq_true ?_⟩
    intro empty
    simp only [SegmentMetadata.memory, Span.mem_bytes, Span.stop, empty] at inside
    omega
  exact Span.eq_of_mem_of_mem inv.nonoverlap.memory (has_memory mem in_o) (has_memory mem' in_o')
    in_o in_o'

/-- The segments and the header of an image are laid out soundly in memory and in the file. -/
structure ImageWellFormed (bytes : Bytes) (image : ImageMetadata) : Prop where
  noWrap : ∀ s ∈ image.segments, s.address + s.memorySize < 2 ^ 64
  addresses : (image.segments.filter (·.memorySize ≠ 0)).Pairwise fun a b =>
    Disjoint a.memory.bytes b.memory.bytes
  insideInput : ∀ s ∈ image.segments, s.file.offset + s.file.size ≤ bytes.length
  offsets : (image.segments.filter (·.file.size ≠ 0)).Pairwise fun a b =>
    Disjoint a.file.span.bytes b.file.span.bytes
  fileFits : ∀ s ∈ image.segments, s.file.size ≤ s.memorySize
  header : ∃ s ∈ image.segments, image.header.Within s.file.span ∧
    image.headerAddress = s.address + (image.headerFileOffset - s.file.offset)

/-- The member's header and segments have their places in the outer segments. -/
structure MemberWellFormed (outer : List SegmentMetadata) (image : ImageMetadata) : Prop where
  header : ∃ o ∈ outer, image.headerMemory.Within o.memory ∧
    o.Views image.header image.headerAddress
  fileBacked : ∀ s ∈ image.segments, s.file.size ≠ 0 →
    ∃ o ∈ outer, s.memory.Within o.memory ∧ o.Views s.file.span s.address
  sameOuter : ∀ s ∈ image.segments, s.file.size ≠ 0 → ∀ o ∈ outer, ∀ o' ∈ outer,
    s.memory.Within o.memory → o'.Views s.file.span s.address → o = o'
  zeroFill : ∀ s ∈ image.segments, s.file.size = 0 → s.memorySize ≠ 0 →
    ∃ o ∈ outer, s.memory.Within o.memory

theorem ImageInv.wellFormed {image : ImageMetadata} (inv : ImageInv bytes image) :
    ImageWellFormed bytes image where
  noWrap := fun s mem => (inv.each s mem).noWrap
  addresses := by
    refine inv.nonoverlap.memory.imp_of_mem fun {a b} ha hb apart => ?_
    refine (Span.apart_iff_disjoint ?_ ?_).mp apart
    · exact Nat.pos_of_ne_zero (of_decide_eq_true (List.mem_filter.mp ha).2)
    · exact Nat.pos_of_ne_zero (of_decide_eq_true (List.mem_filter.mp hb).2)
  insideInput := fun s mem => (inv.each s mem).inside
  offsets := by
    refine inv.nonoverlap.files.imp_of_mem fun {a b} ha hb apart => ?_
    refine (Span.apart_iff_disjoint ?_ ?_).mp apart
    · exact Nat.pos_of_ne_zero (of_decide_eq_true (List.mem_filter.mp ha).2)
    · exact Nat.pos_of_ne_zero (of_decide_eq_true (List.mem_filter.mp hb).2)
  fileFits := fun s mem => (inv.each s mem).fileFits
  header := by
    obtain ⟨s, mem, within, above, displacement⟩ := inv.header
    refine ⟨s, mem, within, ?_⟩
    rw [show image.headerFileOffset - s.file.offset = image.headerAddress - s.address from
      displacement.symm, Nat.add_sub_cancel' above]

theorem MemberMapped.wellFormed {outer image : ImageMetadata} (inv : ImageInv bytes outer)
    (own : ImageInv bytes image) (mapped : MemberMapped outer.segments image) :
    MemberWellFormed outer.segments image where
  header := by
    obtain ⟨o, mem, views⟩ := mapped.header
    exact ⟨o, mem, memory_of_views (inv.each o mem) views, views⟩
  fileBacked := by
    intro s mem nonempty
    have fits := (own.each s mem).fileFits
    obtain ⟨o, o_mem, memory⟩ := mapped.memory s mem (by omega)
    obtain ⟨o', o'_mem, views⟩ := mapped.files s mem nonempty
    obtain rfl := inv.same_segment o_mem o'_mem fits nonempty memory views
    exact ⟨o, o_mem, memory, views⟩
  sameOuter := by
    intro s mem nonempty o o_mem o' o'_mem memory views
    exact inv.same_segment o_mem o'_mem (own.each s mem).fileFits nonempty memory views
  zeroFill := fun s mem _ nonempty => mapped.memory s mem nonempty

/-- Every accepted collection is well formed: the outer image and each member image are laid
out soundly, the entry lies in the file-backed bytes of an executable outer segment, and
each member's header, file-backed and zero-filled segments lie in one outer segment each. -/
theorem accepted_well_formed [UnstableSort] {inspection : KcMetadataInspection}
    (accepted : inspectKernelCollection bytes = .ok inspection ∨
      inspectArm64KernelCollection bytes = .ok inspection) :
    ImageWellFormed bytes inspection.collection ∧
      (∃ entry, inspection.collection.entry = some entry ∧
        ∃ s ∈ inspection.collection.segments,
          s.initialProtection &&& 4 ≠ 0 ∧ entry.Inside s) ∧
      ∀ member ∈ inspection.members, ImageWellFormed bytes member.image ∧
        MemberWellFormed inspection.collection.segments member.image := by
  have inv := inspectionInv_of_accepted accepted
  refine ⟨inv.collection.wellFormed, inv.entry, fun member mem => ?_⟩
  obtain ⟨own, mapped⟩ := inv.members member mem
  exact ⟨own.wellFormed, mapped.wellFormed inv.collection own⟩

/-! ### A small collection -/

/-- The header of a thin x86_64 image. -/
def sampleHeader (fileType count commandBytes : Nat) : Bytes :=
  toLeBytes 4 0xfeedfacf ++ toLeBytes 4 0x01000007 ++ toLeBytes 4 3 ++ toLeBytes 4 fileType ++
    toLeBytes 4 count ++ toLeBytes 4 commandBytes ++ toLeBytes 4 0 ++ toLeBytes 4 0

/-- A segment command without sections. -/
def sampleSegment (address memorySize offset size : Nat) : Bytes :=
  toLeBytes 4 0x19 ++ toLeBytes 4 72 ++ List.replicate 16 0 ++ toLeBytes 8 address ++
    toLeBytes 8 memorySize ++ toLeBytes 8 offset ++ toLeBytes 8 size ++ toLeBytes 4 7 ++
    toLeBytes 4 5 ++ toLeBytes 4 0 ++ toLeBytes 4 0

/-- A collection of one segment and one member, which views the end of that segment. -/
def sampleCollection : Bytes :=
  sampleHeader 12 3 296 ++ sampleSegment 4196 1000 0 432 ++
    (toLeBytes 4 5 ++ toLeBytes 4 184 ++ toLeBytes 4 4 ++ toLeBytes 4 42 ++
      List.replicate 128 0 ++ toLeBytes 8 4200 ++ List.replicate 32 0) ++
    (toLeBytes 4 0x80000035 ++ toLeBytes 4 40 ++ toLeBytes 8 4524 ++ toLeBytes 8 328 ++
      toLeBytes 4 32 ++ toLeBytes 4 0 ++ [109, 0, 0, 0, 0, 0, 0, 0]) ++
    sampleHeader 2 1 72 ++ sampleSegment 4524 300 328 104

theorem accepted_well_formed_sample :
    ∃ inspection,
      @inspectKernelCollection UnstableSort.insertion sampleCollection = .ok inspection ∧
        ImageWellFormed sampleCollection inspection.collection := by
  obtain ⟨inspection, accepted⟩ := isOk_iff.mp
    (show (@inspectKernelCollection UnstableSort.insertion sampleCollection).isOk = true by
      decide +kernel)
  exact ⟨inspection, accepted,
    (@accepted_well_formed _ UnstableSort.insertion _ (.inl accepted)).1⟩

end Nextcore.KernelCollection
