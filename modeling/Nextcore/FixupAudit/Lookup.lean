import Nextcore.FixupAudit.Agreement
import Nextcore.Lib.Search

/-!
What the lookup of an address finds.

A lookup makes one binary search over the sorted mappings and looks at one of them. Segments with
memory are apart, so that it finds what a search through all the segments does
(`lookup_linear`): a segment that has the whole range in its memory, or in its file-backed part.
-/

namespace Nextcore.FixupAudit

open Checked Checked.Outcome KernelCollection

/-! ### The searches -/

/-- `containing`, with its binary search. -/
def containingBySearch (maps : List Mapping) (address width : Nat) : Option Mapping := do
  let m ← lastBySearch (·.start ≤ address) maps
  let stop ← checkedAdd address width
  if stop ≤ m.stop then some m else none

/-- `file_location`, with the binary search of `containing`. -/
def fileLocationBySearch (maps : List Mapping) (address width : Nat) : Option Nat := do
  let m ← containingBySearch maps address width
  let stop ← checkedAdd address width
  if stop ≤ m.fileEnd then some (m.fileOffset + (address - m.start)) else none

/-- The segment has memory, and the range lies in it. -/
def HasMemory (address width : Nat) (s : SegmentMetadata) : Prop :=
  s.memorySize ≠ 0 ∧ s.address ≤ address ∧ address + width ≤ s.address + s.memorySize

/-- The range lies in the file-backed part of the segment. -/
def HasFile (address width : Nat) (s : SegmentMetadata) : Prop :=
  s.address ≤ address ∧ address + width ≤ s.address + s.file.size

instance (address width : Nat) : DecidablePred (HasMemory address width) :=
  fun _ => inferInstanceAs (Decidable (_ ∧ _))

instance (address width : Nat) : DecidablePred (HasFile address width) :=
  fun _ => inferInstanceAs (Decidable (_ ∧ _))

/-- The lookups of a range find what a search through the segments finds. -/
structure LooksUp (segments : List SegmentMetadata) (maps : List Mapping) (address width : Nat) :
    Prop where
  memory : ∀ m, containingBySearch maps address width = some m ↔
    ∃ s ∈ segments, HasMemory address width s ∧ m = mappingOf s
  file : ∀ o, fileLocationBySearch maps address width = some o ↔
    ∃ s ∈ segments, HasFile address width s ∧ o = s.file.offset + (address - s.address)
  linear : containingBySearch maps address width =
    (segments.find? fun s => HasMemory address width s).map mappingOf
  linearFile : fileLocationBySearch maps address width =
    (segments.find? fun s => HasFile address width s).map
      fun s => s.file.offset + (address - s.address)
  word : ∀ o, fileLocationBySearch maps address width = some o → o < 2 ^ 64
  modelled : containing maps address width = containingBySearch maps address width ∧
    fileLocation maps address width = fileLocationBySearch maps address width

/-- A lookup that is right about every segment is the search through the segments. -/
theorem eq_find_of_iff {β : Type} {segments : List SegmentMetadata} {found : Option β}
    {has : SegmentMetadata → Prop} [DecidablePred has] {value : SegmentMetadata → β}
    (right : ∀ b, found = some b ↔ ∃ s ∈ segments, has s ∧ b = value s) :
    found = (segments.find? fun s => has s).map value := by
  cases first : segments.find? fun s => has s with
  | none =>
      rw [List.find?_eq_none] at first
      rw [Option.map_none, Option.eq_none_iff_forall_ne_some]
      intro b some'
      obtain ⟨s, mem, known, _⟩ := (right b).mp some'
      exact first s mem (decide_eq_true known)
  | some s =>
      have hit := List.find?_some first
      rw [Option.map_some, right]
      exact ⟨s, List.mem_of_find?_eq_some first, of_decide_eq_true hit, rfl⟩

section Lookup

variable [UnstableSort] {source : Bytes} {image : ImageMetadata} {maps : List Mapping}
  {address width : Nat}

/-- Mappings are sorted, so that the binary search finds the last one that starts by then. -/
theorem containingBySearch_eq (mapped : mappings image.segments = .ok maps) :
    containingBySearch maps address width = containing maps address width := by
  simp only [mappings, bind_eq_ok, pure_eq, ok.injEq] at mapped
  obtain ⟨collected, _, rfl⟩ := mapped
  have ordered := UnstableSort.sorted (fun m : Mapping => m.start) collected
  rw [containingBySearch, lastBySearch_eq, containing]
  refine ordered.imp fun {a b} le passed => ?_
  exact decide_eq_true (Nat.le_trans le (of_decide_eq_true passed))

theorem fileLocationBySearch_eq (mapped : mappings image.segments = .ok maps) :
    fileLocationBySearch maps address width = fileLocation maps address width := by
  rw [fileLocationBySearch, containingBySearch_eq mapped, fileLocation]

theorem looksUp_of_inv (small : source.length < 2 ^ 64) (inv : ImageInv source image)
    (mapped : mappings image.segments = .ok maps) (positive : 0 < width) :
    LooksUp image.segments maps address width := by
  have memory : ∀ m, containingBySearch maps address width = some m ↔
      ∃ s ∈ image.segments, HasMemory address width s ∧ m = mappingOf s := by
    intro m
    rw [containingBySearch_eq mapped]
    constructor
    · intro found
      obtain ⟨mem, above, inside⟩ := of_containing_eq_some found
      obtain ⟨s, s_mem, rfl⟩ := isMapping_of_mem mapped mem
      dsimp only at above inside
      exact ⟨s, s_mem, ⟨by omega, above, inside⟩, rfl⟩
    · rintro ⟨s, mem, ⟨_, above, inside⟩, rfl⟩
      exact containing_of_segment inv mapped mem positive above inside
  have file : ∀ o, fileLocationBySearch maps address width = some o ↔ ∃ s ∈ image.segments,
      HasFile address width s ∧ o = s.file.offset + (address - s.address) := by
    intro o
    rw [fileLocationBySearch_eq mapped]
    constructor
    · intro found
      obtain ⟨s, mem, above, inside, rfl⟩ := inFile_of_fileLocation mapped found
      exact ⟨s, mem, ⟨above, inside⟩, rfl⟩
    · rintro ⟨s, mem, ⟨above, inside⟩, rfl⟩
      exact fileLocation_of_segment inv mapped mem positive above inside
  refine ⟨memory, file, eq_find_of_iff memory, eq_find_of_iff file, fun o found => ?_,
    (containingBySearch_eq mapped).symm, (fileLocationBySearch_eq mapped).symm⟩
  obtain ⟨s, mem, ⟨above, inside⟩, rfl⟩ := (file o).mp found
  have inInput := (inv.each s mem).inside
  omega

/-- Of every image that the inspector accepts, the mappings exist, and a lookup in them finds what a
search through the segments finds. -/
theorem lookup_linear {inspection : KcMetadataInspection}
    (accepted : inspectKernelCollection source = .ok inspection ∨
      inspectArm64KernelCollection source = .ok inspection) {entry : ImageMetadata × Nat}
    (mem : entry ∈ images inspection) :
    ∃ maps, mappings entry.1.segments = .ok maps ∧
      ∀ address width, 0 < width → LooksUp entry.1.segments maps address width := by
  have inv := inspectionInv_of_accepted accepted
  have own : ImageInv source entry.1 := by
    rcases List.mem_cons.mp (List.fst_mem_of_mem_zipIdx mem) with first | later
    · rw [first]
      exact inv.collection
    · obtain ⟨member, member_mem, same⟩ := List.mem_map.mp later
      rw [← same]
      exact (inv.members member member_mem).1
  have small : source.length < 2 ^ 64 := Nat.lt_of_le_of_lt inv.input (by decide)
  have mapped := mappings_of_segments own.each
  exact ⟨_, mapped, fun address width positive => looksUp_of_inv small own mapped positive⟩

end Lookup

theorem lookup_linear_sample :
    ∃ inspection maps,
      @inspectKernelCollection UnstableSort.insertion sampleFixups = .ok inspection ∧
      @mappings UnstableSort.insertion inspection.collection.segments = .ok maps ∧
      LooksUp inspection.collection.segments maps 4616 8 := by
  obtain ⟨inspection, accepted⟩ := isOk_iff.mp
    (show (@inspectKernelCollection UnstableSort.insertion sampleFixups).isOk = true by
      decide +kernel)
  obtain ⟨maps, mapped, found⟩ := @lookup_linear UnstableSort.insertion sampleFixups inspection
    (.inl accepted) (inspection.collection, 0) List.mem_cons_self
  exact ⟨inspection, maps, accepted, mapped, found 4616 8 (by decide)⟩

end Nextcore.FixupAudit
