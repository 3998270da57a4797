import Nextcore.FixupAudit.Lookup

/-!
What a write is said to meet.

The memory of the members is kept as ranges that are sorted and separate, each as long as its
segments reach without a gap (`separated_mergeRanges`, `covers_mergeRanges`). Of such ranges only
the last that starts in time can meet a write, so that one binary search decides it
(`intersects_iff`). The inspector's budget for segments is the bound on the ranges
(`memberRanges_of_inv`).
-/

namespace Nextcore.FixupAudit

open Checked Checked.Outcome KernelCollection

/-! ### Merging -/

/-- The ranges are sorted, and there is a gap between each and the next. -/
structure Separated (ranges : List (Nat × Nat)) : Prop where
  nonempty : ∀ r ∈ ranges, r.1 < r.2
  apart : ranges.Pairwise fun a b => a.2 < b.1

/-- An address lies in one of the ranges. -/
def Covers (ranges : List (Nat × Nat)) (x : Nat) : Prop := ∃ r ∈ ranges, r.1 ≤ x ∧ x < r.2

/-- Ranges with something in them, in the order of their starts. -/
structure Ordered (ranges : List (Nat × Nat)) : Prop where
  nonempty : ∀ r ∈ ranges, r.1 < r.2
  starts : ranges.Pairwise fun a b => a.1 ≤ b.1

section Merging

variable {first next : Nat × Nat} {rest ranges : List (Nat × Nat)} {x : Nat}

theorem covers_cons : Covers (first :: rest) x ↔ first.1 ≤ x ∧ x < first.2 ∨ Covers rest x := by
  rw [Covers, List.exists_mem_cons_iff, Covers]

theorem covers_of_perm {ranges' : List (Nat × Nat)} (perm : ranges.Perm ranges') :
    Covers ranges x ↔ Covers ranges' x := by
  simp only [Covers, perm.mem_iff]

theorem Ordered.tail (ordered : Ordered (first :: rest)) : Ordered rest where
  nonempty := (List.forall_mem_cons.mp ordered.nonempty).2
  starts := (List.pairwise_cons.mp ordered.starts).2

theorem Ordered.first_le (ordered : Ordered (first :: rest)) : ∀ r ∈ rest, first.1 ≤ r.1 :=
  (List.pairwise_cons.mp ordered.starts).1

/-- The first two, made one, are in front of the others. -/
theorem Ordered.join (ordered : Ordered (first :: next :: rest)) :
    Ordered ((first.1, max first.2 next.2) :: rest) where
  nonempty := by
    refine List.forall_mem_cons.mpr ⟨?_, ordered.tail.tail.nonempty⟩
    exact Nat.lt_of_lt_of_le (ordered.nonempty first List.mem_cons_self) (Nat.le_max_left _ _)
  starts := by
    refine List.pairwise_cons.mpr ⟨fun r mem => ?_, ordered.tail.tail.starts⟩
    exact ordered.first_le r (List.mem_cons_of_mem next mem)

/-- Merging starts no earlier than the range that it merges onto. -/
theorem le_of_mem_mergeOnto (ordered : Ordered (first :: rest)) :
    ∀ r ∈ mergeOnto first rest, first.1 ≤ r.1 := by
  induction rest generalizing first with
  | nil =>
      intro r mem
      rw [List.mem_singleton.mp mem]
  | cons next rest ih =>
      rw [mergeOnto]
      by_cases meets : next.1 ≤ first.2
      · rw [if_pos meets]
        exact ih ordered.join
      · rw [if_neg meets]
        refine List.forall_mem_cons.mpr ⟨Nat.le_refl _, fun r mem => ?_⟩
        have le := ordered.first_le next List.mem_cons_self
        exact Nat.le_trans le (ih ordered.tail r mem)

theorem separated_mergeOnto (ordered : Ordered (first :: rest)) :
    Separated (mergeOnto first rest) := by
  induction rest generalizing first with
  | nil => exact ⟨ordered.nonempty, List.pairwise_singleton ..⟩
  | cons next rest ih =>
      rw [mergeOnto]
      by_cases meets : next.1 ≤ first.2
      · rw [if_pos meets]
        exact ih ordered.join
      · rw [if_neg meets]
        have others := ih ordered.tail
        refine ⟨List.forall_mem_cons.mpr
          ⟨ordered.nonempty first List.mem_cons_self, others.nonempty⟩,
          List.pairwise_cons.mpr ⟨fun r mem => ?_, others.apart⟩⟩
        have le := le_of_mem_mergeOnto ordered.tail r mem
        omega

/-- No address is lost, and none is added: what is made one meets or touches. -/
theorem covers_mergeOnto (ordered : Ordered (first :: rest)) :
    Covers (mergeOnto first rest) x ↔ Covers (first :: rest) x := by
  induction rest generalizing first with
  | nil => rfl
  | cons next rest ih =>
      rw [mergeOnto]
      by_cases meets : next.1 ≤ first.2
      · have le := ordered.first_le next List.mem_cons_self
        rw [if_pos meets, ih ordered.join, covers_cons, covers_cons, covers_cons, ← or_assoc]
        refine or_congr ?_ Iff.rfl
        dsimp only
        omega
      · rw [if_neg meets, covers_cons, ih ordered.tail, covers_cons, covers_cons, covers_cons]

end Merging

section MergeRanges

variable {ranges : List (Nat × Nat)} {x : Nat}

theorem ordered_sortPairs (nonempty : ∀ r ∈ ranges, r.1 < r.2) : Ordered (sortPairs ranges) where
  nonempty := fun r mem => nonempty r ((perm_sortPairs ranges).mem_iff.mp mem)
  starts := (sorted_sortPairs ranges).imp fun {a b} le => by
    rw [PairLe] at le
    omega

theorem separated_mergeRanges (ordered : Ordered ranges) : Separated (mergeRanges ranges) := by
  cases ranges with
  | nil => exact ⟨by simp [mergeRanges], .nil⟩
  | cons first rest => exact separated_mergeOnto ordered

theorem covers_mergeRanges (ordered : Ordered ranges) :
    Covers (mergeRanges ranges) x ↔ Covers ranges x := by
  cases ranges with
  | nil => rfl
  | cons first rest => exact covers_mergeOnto ordered

end MergeRanges

/-! ### Meeting a write -/

/-- `intersects`, with its binary search. -/
def intersectsBySearch (ranges : List (Nat × Nat)) (start stop : Nat) : Bool :=
  (lastBySearch (·.1 < stop) ranges).any (start < ·.2)

section Intersects

variable {ranges : List (Nat × Nat)} {start stop : Nat}

theorem Separated.starts (separated : Separated ranges) :
    ranges.Pairwise fun a b => a.1 < b.1 := by
  refine separated.apart.imp_of_mem fun {a b} mem _ gap => ?_
  exact Nat.lt_trans (separated.nonempty a mem) gap

theorem intersectsBySearch_eq (separated : Separated ranges) :
    intersectsBySearch ranges start stop = intersects ranges start stop := by
  rw [intersectsBySearch, lastBySearch_eq, intersects]
  refine separated.starts.imp fun {a b} below passed => ?_
  exact decide_eq_true (Nat.lt_trans below (of_decide_eq_true passed))

/-- Of separate ranges, the last that starts in time meets the write if any does. -/
theorem intersects_iff (separated : Separated ranges) (some : start < stop) :
    intersects ranges start stop = true ↔ ∃ x, start ≤ x ∧ x < stop ∧ Covers ranges x := by
  rw [intersects, Option.any_eq_true]
  constructor
  · rintro ⟨r, found, meets⟩
    obtain ⟨mem, before⟩ := lastOfFront_eq_some found
    have before := of_decide_eq_true before
    have meets := of_decide_eq_true meets
    have nonempty := separated.nonempty r mem
    exact ⟨max start r.1, by omega, by omega, r, mem, by omega, by omega⟩
  · rintro ⟨x, above, below, r, mem, low, high⟩
    obtain ⟨front, rest, rfl⟩ := List.append_of_mem mem
    obtain ⟨_, behind, before⟩ := List.pairwise_append.mp separated.starts
    have passed : ∀ b ∈ front, decide (b.1 < stop) = true := by
      intro b b_mem
      have le := before b b_mem r List.mem_cons_self
      exact decide_eq_true (by omega)
    obtain ⟨last, last_mem, found⟩ :=
      exists_lastOfFront rest passed (decide_eq_true (by omega : r.1 < stop))
    refine ⟨last, found, decide_eq_true ?_⟩
    rcases List.mem_cons.mp last_mem with rfl | later
    · omega
    · have gap := (List.pairwise_cons.mp (List.pairwise_append.mp separated.apart).2.1).1 last later
      have nonempty := separated.nonempty last (List.mem_append_right front last_mem)
      omega

end Intersects

/-! ### The ranges of the members -/

/-- The addresses that segments with memory of the members with a file type take up. -/
def memberMemory (inspection : KcMetadataInspection) (fileType : Nat) : Set Nat :=
  {x | ∃ member ∈ inspection.members, member.image.fileType = fileType ∧
    ∃ s ∈ member.image.segments, s.memorySize ≠ 0 ∧ x ∈ s.memory.bytes}

/-- The ranges that `member_ranges` merges. -/
def memberInputs (inspection : KcMetadataInspection) (fileType : Nat) : List (Nat × Nat) :=
  ((inspection.members.filter (·.image.fileType = fileType)).flatMap fun m =>
    m.image.segments.filter (·.memorySize ≠ 0)).map fun s => (s.address, s.address + s.memorySize)

section Members

variable {inspection : KcMetadataInspection} {fileType : Nat}

theorem covers_memberInputs {x : Nat} :
    Covers (memberInputs inspection fileType) x ↔ x ∈ memberMemory inspection fileType := by
  constructor
  · rintro ⟨r, mem, low, high⟩
    obtain ⟨s, listed, rfl⟩ := List.mem_map.mp mem
    obtain ⟨member, member_mem, s_mem⟩ := List.mem_flatMap.mp listed
    obtain ⟨member_mem, typed⟩ := List.mem_filter.mp member_mem
    obtain ⟨s_mem, some⟩ := List.mem_filter.mp s_mem
    exact ⟨member, member_mem, of_decide_eq_true typed, s, s_mem, of_decide_eq_true some,
      Span.mem_bytes.mpr ⟨low, high⟩⟩
  · rintro ⟨member, member_mem, typed, s, s_mem, some, inside⟩
    obtain ⟨low, high⟩ := Span.mem_bytes.mp inside
    refine ⟨_, List.mem_map_of_mem (List.mem_flatMap.mpr ⟨member, ?_, ?_⟩), low, high⟩
    · exact List.mem_filter.mpr ⟨member_mem, decide_eq_true typed⟩
    · exact List.mem_filter.mpr ⟨s_mem, decide_eq_true some⟩

theorem memberInputs_nonempty : ∀ r ∈ memberInputs inspection fileType, r.1 < r.2 := by
  intro r mem
  obtain ⟨s, listed, rfl⟩ := List.mem_map.mp mem
  obtain ⟨_, _, s_mem⟩ := List.mem_flatMap.mp listed
  have some := of_decide_eq_true (List.mem_filter.mp s_mem).2
  exact Nat.lt_add_of_pos_right (Nat.pos_of_ne_zero some)

/-- There are no more ranges than the members have segments. -/
theorem length_memberInputs_le :
    (memberInputs inspection fileType).length ≤
      (inspection.members.map (·.image.segments.length)).sum := by
  rw [memberInputs, List.length_map, List.length_flatMap]
  induction inspection.members with
  | nil => exact Nat.le_refl 0
  | cons member rest ih =>
      have few := List.length_filter_le (fun s => decide (s.memorySize ≠ 0)) member.image.segments
      rw [List.map_cons, List.sum_cons]
      by_cases typed : member.image.fileType = fileType
      · rw [List.filter_cons, if_pos (decide_eq_true typed), List.map_cons, List.sum_cons]
        omega
      · rw [List.filter_cons, if_neg (by simpa using typed)]
        omega

/-- Each range is pushed while the bound has room for it. -/
theorem pushRanges_eq {segments : List SegmentMetadata} {ranges : List (Nat × Nat)}
    (noWrap : ∀ s ∈ segments, s.address + s.memorySize < 2 ^ 64)
    (room : ranges.length + segments.length ≤ 4096) :
    segments.foldlM (fun ranges s => do
      let stop ← addWord s.address s.memorySize
      let (ranges, _) ← pushBounded ranges (s.address, stop) 4096
      pure ranges) ranges =
    (.ok (ranges ++ segments.map fun s => (s.address, s.address + s.memorySize)) :
      Result (List (Nat × Nat))) := by
  induction segments generalizing ranges with
  | nil => rw [List.foldlM_nil, List.map_nil, List.append_nil, pure_eq]
  | cons s rest ih =>
      obtain ⟨word, noWrap⟩ := List.forall_mem_cons.mp noWrap
      rw [List.length_cons] at room
      have length : (ranges ++ [(s.address, s.address + s.memorySize)]).length =
          ranges.length + 1 := by
        rw [List.length_append, List.length_singleton]
      have pushed : (pushBounded ranges (s.address, s.address + s.memorySize) 4096) =
          .ok (ranges ++ [(s.address, s.address + s.memorySize)], ranges.length) := by
        rw [pushBounded, rejectIf_of_not _ (by omega)]
        rfl
      rw [List.foldlM_cons, addWord_eq_ok.mpr ⟨word, rfl⟩, bind_ok, pushed, List.map_cons]
      have room' :
          (ranges ++ [(s.address, s.address + s.memorySize)]).length + rest.length ≤ 4096 := by
        omega
      refine (ih noWrap room').trans ?_
      rw [List.append_assoc, List.singleton_append]

/-- The ranges of the members of an inspected collection, and what they are. -/
structure MemberRanges (inspection : KcMetadataInspection) (fileType : Nat)
    (ranges : List (Nat × Nat)) : Prop where
  returned : memberRanges inspection fileType = .ok ranges
  bounded : (memberInputs inspection fileType).length ≤ 4096
  separated : Separated ranges
  union : ∀ x, Covers ranges x ↔ Covers (memberInputs inspection fileType) x
  memory : ∀ x, Covers ranges x ↔ x ∈ memberMemory inspection fileType
  searched : ∀ start stop, intersects ranges start stop = intersectsBySearch ranges start stop

theorem memberRanges_of_inv {source : Bytes} (inv : InspectionInv source inspection)
    (fileType : Nat) : ∃ ranges, MemberRanges inspection fileType ranges := by
  have bounded : (memberInputs inspection fileType).length ≤ 4096 :=
    Nat.le_trans length_memberInputs_le inv.memberSegments
  have ordered : Ordered (sortPairs (memberInputs inspection fileType)) :=
    ordered_sortPairs memberInputs_nonempty
  have separated := separated_mergeRanges ordered
  have union : ∀ x, Covers (mergeRanges (sortPairs (memberInputs inspection fileType))) x ↔
      Covers (memberInputs inspection fileType) x := by
    intro x
    rw [covers_mergeRanges ordered]
    exact covers_of_perm (perm_sortPairs _)
  refine ⟨mergeRanges (sortPairs (memberInputs inspection fileType)), ?_, bounded, separated, union,
    fun x => (union x).trans covers_memberInputs, fun _ _ => (intersectsBySearch_eq separated).symm⟩
  rw [memberRanges, pushRanges_eq]
  · rfl
  · intro s mem
    obtain ⟨member, member_mem, s_mem⟩ := List.mem_flatMap.mp mem
    exact ((inv.members member (List.mem_filter.mp member_mem).1).1.each s
      (List.mem_filter.mp s_mem).1).noWrap
  · rw [memberInputs, List.length_map] at bounded
    rwa [List.length_nil, Nat.zero_add]

end Members

/-! ### The classification -/

/-- Whether a write shares an address with a set. -/
def Meets (address width : Nat) (memory : Set Nat) : Prop :=
  ∃ x, address ≤ x ∧ x < address + width ∧ x ∈ memory

/-- What a class says about the two kinds of members. -/
def MemberOverlap.Tells (executable kext : Prop) : MemberOverlap → Prop
  | .both => executable ∧ kext
  | .executableMember => executable ∧ ¬ kext
  | .kextMember => ¬ executable ∧ kext
  | .outerOnly => ¬ executable ∧ ¬ kext

/-- No two classes say the same. -/
theorem MemberOverlap.Tells.unique {executable kext : Prop} {c c' : MemberOverlap}
    (told : c.Tells executable kext) (told' : c'.Tells executable kext) : c = c' := by
  cases c <;> cases c' <;> simp only [Tells] at told told' <;> tauto

section Classification

variable {source : Bytes} {inspection : KcMetadataInspection}

theorem MemberRanges.intersects_iff {fileType address width : Nat} {ranges : List (Nat × Nat)}
    (known : MemberRanges inspection fileType ranges) (positive : 0 < width) :
    intersects ranges address (address + width) = true ↔
      Meets address width (memberMemory inspection fileType) := by
  rw [FixupAudit.intersects_iff known.separated (by omega), Meets]
  simp only [known.memory]

theorem tells_memberOverlap {audit : Audit} {executable kext : Prop} {address width : Nat}
    (word : address + width < 2 ^ 64)
    (first : intersects audit.executable address (address + width) = true ↔ executable)
    (second : intersects audit.kext address (address + width) = true ↔ kext) :
    (audit.memberOverlap (some address) width).Tells executable kext := by
  rw [Audit.memberOverlap, checkedAdd_of_lt word, ← first, ← second]
  dsimp only
  cases intersects audit.executable address (address + width) <;>
    cases intersects audit.kext address (address + width) <;>
    simp [MemberOverlap.Tells]

/-- The ranges of the members of an inspected collection exist, sorted and separate and with the
memory of the members, and an audit that has them classifies every write by what it meets. -/
theorem memberOverlap_exact [UnstableSort]
    (accepted : inspectKernelCollection source = .ok inspection ∨
      inspectArm64KernelCollection source = .ok inspection) :
    (∀ fileType, ∃ ranges, MemberRanges inspection fileType ranges) ∧
      ∀ audit : Audit, memberRanges inspection 2 = .ok audit.executable →
        memberRanges inspection 11 = .ok audit.kext →
        ∀ address width, 0 < width → address + width < 2 ^ 64 → ∀ c,
          audit.memberOverlap (some address) width = c ↔
            c.Tells (Meets address width (memberMemory inspection 2))
              (Meets address width (memberMemory inspection 11)) := by
  have inv := inspectionInv_of_accepted accepted
  refine ⟨memberRanges_of_inv inv, fun audit executable kext address width positive word c => ?_⟩
  obtain ⟨_, known⟩ := memberRanges_of_inv inv 2
  obtain ⟨_, known'⟩ := memberRanges_of_inv inv 11
  obtain rfl := Outcome.ok.inj (executable.symm.trans known.returned)
  obtain rfl := Outcome.ok.inj (kext.symm.trans known'.returned)
  have told := tells_memberOverlap word (known.intersects_iff positive)
    (known'.intersects_iff positive)
  constructor
  · rintro rfl
    exact told
  · exact told.unique

end Classification

/-- The member of the sample has two ranges: a word in the second is in the executable member, and
one between them is in no member. -/
theorem memberOverlap_exact_sample :
    ∃ inspection, @inspectKernelCollection UnstableSort.insertion pairFixups = .ok inspection ∧
      MemberOverlap.executableMember.Tells (Meets 4808 8 (memberMemory inspection 2))
        (Meets 4808 8 (memberMemory inspection 11)) ∧
      MemberOverlap.outerOnly.Tells (Meets 4800 8 (memberMemory inspection 2))
        (Meets 4800 8 (memberMemory inspection 11)) := by
  obtain ⟨inspection, accepted, found⟩ := isOkAnd_iff.mp
    (show (@inspectKernelCollection UnstableSort.insertion pairFixups).isOkAnd
        (fun i => memberRanges i 2 = .ok [(4616, 4800), (4808, 4816)] ∧
          memberRanges i 11 = .ok []) = true by decide +kernel)
  obtain ⟨executable, kext⟩ := of_decide_eq_true found
  have classified := (@memberOverlap_exact _ _ UnstableSort.insertion (.inl accepted)).2
    ⟨pairFixups, .default, [], [(4616, 4800), (4808, 4816)], []⟩ executable kext
  exact ⟨inspection, accepted,
    (classified 4808 8 (by decide) (by decide) .executableMember).mp (by decide),
    (classified 4800 8 (by decide) (by decide) .outerOnly).mp (by decide)⟩

end Nextcore.FixupAudit
