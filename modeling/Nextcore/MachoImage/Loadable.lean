import Nextcore.MachoImage.Scan

/-!
Every accepted plan is loadable.

`Loadable` is what the caller of the parser relies on: where the segments, the header and the
entry are, in the file and in memory. The loops over the sorted segments have one lemma each
(`placeSegments_eq_ok`, `locateEntry_eq_ok`), and `planImage_calm` puts them together for what
the scan of the load commands left.
-/

namespace Nextcore.MachoImage

open Checked Checked.Outcome

/-! ### What a plan says -/

namespace SegmentPlan

variable (s : SegmentPlan)

/-- The memory of the segment. -/
def memory : Span := ⟨s.vmaddr, s.memorySize⟩

/-- The bytes of the segment in the file. -/
def file : Span := ⟨s.fileOffset, s.fileSize⟩

/-- The part of the memory that the file backs. -/
def backed : Span := ⟨s.vmaddr, s.fileSize⟩

def Executable : Prop := s.initProt &&& vmProtExecute ≠ 0

end SegmentPlan

/-- The number of bytes of load commands. -/
def commandBytes (bytes : Bytes) : Nat := wordAt 4 bytes 20

/-- The load commands of an image. -/
def loadCommands (bytes : Bytes) : Bytes := window bytes 32 (commandBytes bytes)

/-- The `k`-th load command is of a kind. -/
def HasCommand (bytes : Bytes) (k kind : Nat) : Prop :=
  k < wordAt 4 bytes 16 ∧ commandKind (loadCommands bytes) k = kind

/-- The word of 64 bits in the `k`-th load command. -/
def commandWord (bytes : Bytes) (k offset : Nat) : Nat :=
  wordAt 8 (commandAt (loadCommands bytes) k) offset

/-- The `k`-th load command is the guard page. -/
def IsGuard (bytes : Bytes) (k : Nat) : Prop :=
  HasCommand bytes k 0x19 ∧ window (commandAt (loadCommands bytes) k) 8 16 = pageZeroName

/-- What a loader relies on of one segment. -/
structure SegmentLoadable (bytes : Bytes) (plan : MachOImagePlan) (s : SegmentPlan) : Prop where
  positive : 0 < s.memorySize
  fits : s.fileSize ≤ s.memorySize
  inside : s.file.stop ≤ bytes.length
  placed : s.vmaddr = plan.preferredBase + s.memoryOffset
  within : s.memoryOffset + s.memorySize ≤ plan.imageSize
  guard : ∀ k, IsGuard bytes k →
    s.memory.Apart ⟨commandWord bytes k 24, commandWord bytes k 32⟩

/-- The entry is in the file-backed bytes of the executable segment `s`, where the command that
declares it says. -/
structure Enters (bytes : Bytes) (plan : MachOImagePlan) (s : SegmentPlan) : Prop where
  executable : s.Executable
  backed : plan.entryVaddr ∈ s.backed.bytes
  main : ∀ k, HasCommand bytes k 0x80000028 → plan.entryKind = .main ∧
    commandWord bytes k 8 ∈ s.file.bytes ∧
      plan.entryVaddr = s.vmaddr + (commandWord bytes k 8 - s.fileOffset)
  thread : ∀ k, HasCommand bytes k 0x5 → plan.entryKind = .unixThread64 ∧
    plan.entryVaddr = commandWord bytes k 144

/-- What a loader relies on of a plan. -/
structure Loadable (bytes : Bytes) (plan : MachOImagePlan) : Prop where
  sorted : plan.segments.Pairwise fun a b => a.vmaddr ≤ b.vmaddr
  memory : plan.segments.Pairwise fun a b => a.memory.Apart b.memory
  files : (plan.segments.filter (·.fileSize ≠ 0)).Pairwise fun a b => a.file.Apart b.file
  each : ∀ s ∈ plan.segments, SegmentLoadable bytes plan s
  base_page : pageSize ∣ plan.preferredBase
  size_page : pageSize ∣ plan.imageSize
  size_limit : plan.imageSize ≤ maxImageSize
  header : ∃ s ∈ plan.segments, plan.headerVaddr = s.vmaddr ∧ s.fileOffset = 0 ∧
    32 + commandBytes bytes ≤ s.fileSize
  entry_offset : plan.entryVaddr = plan.preferredBase + plan.entryOffset
  entry : ∃! s, s ∈ plan.segments ∧ s.Executable ∧ plan.entryVaddr ∈ s.backed.bytes
  enters : ∀ s ∈ plan.segments, s.Executable → plan.entryVaddr ∈ s.backed.bytes →
    Enters bytes plan s

/-! ### The loops over the segments -/

theorem placeSegments_ne_panic {previousEnd : Nat} {segments : List SegmentPlan} :
    placeSegments previousEnd segments ≠ .panic := by
  induction segments generalizing previousEnd with
  | nil => exact ok_ne_panic _
  | cons s rest ih =>
      refine bind_ne_panic rejectIf_ne_panic fun _ _ => ?_
      exact bind_ne_panic checkedEnd_ne_panic fun _ _ => ih

/-- Segments that were placed follow each other, from the guard on. -/
theorem placeSegments_eq_ok {previousEnd last : Nat} {segments : List SegmentPlan}
    (placed : placeSegments previousEnd segments = .ok last) :
    previousEnd ≤ last ∧ (∀ s ∈ segments, previousEnd ≤ s.vmaddr ∧ s.memory.stop ≤ last) ∧
      segments.Pairwise fun a b => a.memory.stop ≤ b.vmaddr := by
  induction segments generalizing previousEnd with
  | nil =>
      cases placed
      exact ⟨Nat.le_refl _, fun s mem => absurd mem List.not_mem_nil, .nil⟩
  | cons s rest ih =>
      simp only [placeSegments, bind_eq_ok, rejectIf_eq_ok, Nat.not_lt, checkedEnd_eq_ok,
        exists_const] at placed
      obtain ⟨first, stop, ⟨_, rfl⟩, others⟩ := placed
      obtain ⟨below, each, ordered⟩ := ih others
      refine ⟨by omega, List.forall_mem_cons.mpr ⟨⟨first, below⟩, fun r mem => ?_⟩,
        List.pairwise_cons.mpr ⟨fun r mem => (each r mem).1, ordered⟩⟩
      obtain ⟨above, inside⟩ := each r mem
      exact ⟨by omega, inside⟩

theorem rejectShared_ne_panic {s other : SegmentPlan} (word : s.file.stop < 2 ^ 64)
    (otherWord : other.file.stop < 2 ^ 64) : rejectShared s other ≠ .panic := by
  rw [SegmentPlan.file, Span.stop_mk] at word otherWord
  rw [rejectShared, overlap, rangesMeet_of_lt word otherWord, bind_ok]
  exact rejectIf_ne_panic

theorem rejectShared_eq_ok {s other : SegmentPlan} (word : s.file.stop < 2 ^ 64)
    (otherWord : other.file.stop < 2 ^ 64) (apart : rejectShared s other = .ok ())
    (nonempty : s.fileSize ≠ 0) (otherNonempty : other.fileSize ≠ 0) :
    s.file.Apart other.file := by
  rw [SegmentPlan.file, Span.stop_mk] at word otherWord
  rw [rejectShared, overlap, rangesMeet_of_lt word otherWord, bind_ok, rejectIf_eq_ok,
    decide_eq_true_eq] at apart
  simp only [Span.Apart, SegmentPlan.file, Span.stop]
  omega

/-- The segment with its offset in the image. -/
def SegmentPlan.placedAt (base : Nat) (s : SegmentPlan) : SegmentPlan :=
  { s with memoryOffset := s.vmaddr - base }

/-- The entry is in the part of the segment that the file backs, `relative` bytes into it. -/
def Entry.At (entry : Entry) (s : SegmentPlan) (relative : Nat) : Prop :=
  entry.within s = some relative ∧ relative < s.fileSize

theorem locateIn_ne_panic {entry : Entry} {found : Option Nat} {s : SegmentPlan} :
    locateIn entry found s ≠ .panic := by
  rw [locateIn]
  refine ite_ne_panic (ok_ne_panic _) ?_
  split
  · exact ok_ne_panic _
  · exact bind_ne_panic checkedEnd_ne_panic fun _ _ => ok_ne_panic _

/-- What was found before stands, or the segment has the entry. -/
theorem locateIn_eq_ok {entry : Entry} {found found' : Option Nat} {s : SegmentPlan}
    (located : locateIn entry found s = .ok found') :
    found' = found ∨ s.Executable ∧ ∃ relative, entry.At s relative ∧
      found' = some (s.vmaddr + relative) := by
  rw [locateIn] at located
  rcases ite_eq_iff.mp located with ⟨_, located⟩ | ⟨executable, located⟩
  · cases located
    exact .inl rfl
  · split at located
    · cases located
      exact .inl rfl
    · next relative filtered =>
        obtain ⟨within, below⟩ := Option.filter_eq_some_iff.mp filtered
        obtain ⟨vaddr, added, located⟩ := bind_eq_ok.mp located
        cases located
        obtain ⟨_, rfl⟩ := checkedEnd_eq_ok.mp added
        exact .inr ⟨executable, relative, ⟨within, of_decide_eq_true below⟩, rfl⟩

theorem locateEntry_ne_panic {base : Nat} {entry : Entry} {found : Option Nat}
    {segments : List SegmentPlan} (above : ∀ s ∈ segments, base ≤ s.vmaddr) :
    locateEntry base entry found segments ≠ .panic := by
  induction segments generalizing found with
  | nil => exact ok_ne_panic _
  | cons s rest ih =>
      obtain ⟨first, others⟩ := List.forall_mem_cons.mp above
      refine bind_ne_panic (sub_ne_panic_iff.mpr first) fun _ _ => ?_
      refine bind_ne_panic locateIn_ne_panic fun _ _ => ?_
      exact bind_ne_panic (ih others) fun _ _ => ok_ne_panic _

/-- The last loop sets the offsets, and finds the entry in an executable segment. -/
theorem locateEntry_eq_ok {base vaddr : Nat} {entry : Entry} {found : Option Nat}
    {segments placed : List SegmentPlan}
    (located : locateEntry base entry found segments = .ok (some vaddr, placed)) :
    placed = segments.map (SegmentPlan.placedAt base) ∧
      (found = some vaddr ∨ ∃ s ∈ segments, s.Executable ∧ ∃ relative, entry.At s relative ∧
        vaddr = s.vmaddr + relative) := by
  induction segments generalizing found placed with
  | nil =>
      cases located
      exact ⟨rfl, .inl rfl⟩
  | cons s rest ih =>
      rw [locateEntry] at located
      obtain ⟨_, offset, located⟩ := bind_eq_ok.mp located
      obtain ⟨_, rfl⟩ := sub_eq_ok.mp offset
      obtain ⟨next, first, located⟩ := bind_eq_ok.mp located
      obtain ⟨⟨_, others⟩, later, located⟩ := bind_eq_ok.mp located
      cases located
      obtain ⟨rfl, source⟩ := ih later
      refine ⟨rfl, ?_⟩
      rcases source with rfl | ⟨r, mem, has⟩
      · rcases locateIn_eq_ok first with same | ⟨executable, relative, at', eq⟩
        · exact .inl same.symm
        · exact .inr ⟨s, List.mem_cons_self, executable, relative, at', Option.some.inj eq⟩
      · exact .inr ⟨r, List.mem_cons_of_mem _ mem, has⟩

/-! ### The plan -/

theorem andNot_page (v : Nat) : andNot v (pageSize - 1) = roundDown pageSize v :=
  andNot_two_pow v 12

theorem head_least {segments : List SegmentPlan} {first : SegmentPlan}
    (sorted : segments.Pairwise fun a b => a.vmaddr ≤ b.vmaddr)
    (head : segments.head? = some first) : ∀ s ∈ segments, first.vmaddr ≤ s.vmaddr := by
  obtain ⟨rest, rfl⟩ := List.head?_eq_some_iff.mp head
  exact List.forall_mem_cons.mpr ⟨Nat.le_refl _, (List.pairwise_cons.mp sorted).1⟩

/-- What the scan of the load commands knows of the segments, at the start of the plan. -/
structure Scanned (bytes : Bytes) (commandSize : Nat) (scan : Scan) : Prop where
  small : bytes.length < 2 ^ 64
  short : commandSize < 2 ^ 32
  each : ∀ s ∈ scan.segments, SegmentOk bytes s

/-- What the parts of `planImage` have returned. -/
structure Planned (commandSize : Nat) (scan : Scan) (plan : MachOImagePlan)
    (segments : List SegmentPlan) (first : SegmentPlan) (last : Nat) (entry : Entry) : Prop where
  head : segments.head? = some first
  placed : placeSegments (scan.guard.getD 0) segments = .ok last
  unshared : forEarlier rejectShared [] segments = .ok ()
  base : plan.preferredBase = roundDown pageSize first.vmaddr
  size : plan.preferredBase + plan.imageSize = roundUp pageSize last
  limit : plan.imageSize ≤ maxImageSize
  header : ∃ s ∈ segments, s.fileOffset = 0 ∧ 32 + commandSize ≤ s.fileSize ∧
    plan.headerVaddr = s.vmaddr
  declared : scan.entry = some entry
  kind : plan.entryKind = entry.kind
  source : ∃ s ∈ segments, s.Executable ∧ ∃ relative, entry.At s relative ∧
    plan.entryVaddr = s.vmaddr + relative
  offset : plan.entryVaddr = plan.preferredBase + plan.entryOffset
  segments : plan.segments = segments.map (SegmentPlan.placedAt plan.preferredBase)

section Plan

variable [UnstableSort] {bytes : Bytes} {commandSize : Nat} {scan : Scan}

theorem planImage_ne_panic (scanned : Scanned bytes commandSize scan) :
    planImage commandSize scan ≠ .panic := by
  have short := scanned.short
  have word : ∀ s ∈ UnstableSort.sortByKey (·.vmaddr) scan.segments, s.file.stop < 2 ^ 64 := by
    intro s mem
    exact Nat.lt_of_le_of_lt (scanned.each s (UnstableSort.mem_sortByKey.mp mem)).inside
      scanned.small
  have sorted := UnstableSort.sorted (fun s : SegmentPlan => s.vmaddr) scan.segments
  rw [planImage]
  refine bind_ne_panic rejectIf_ne_panic fun _ nonempty => ?_
  rw [rejectIf_eq_ok, List.isEmpty_iff] at nonempty
  refine bind_ne_panic placeSegments_ne_panic fun previousEnd placed => ?_
  have pairs : forEarlier rejectShared [] (UnstableSort.sortByKey (·.vmaddr) scan.segments) ≠
      .panic := by
    refine forEarlier_ne_panic fun a a_mem b b_mem => rejectShared_ne_panic (word a a_mem) ?_
    exact word b (b_mem.resolve_left List.not_mem_nil)
  refine bind_ne_panic pairs fun _ _ => ?_
  refine bind_ne_panic (add_ne_panic_iff.mpr (by omega)) fun headerSize _ => ?_
  refine bind_ne_panic ofOption_ne_panic fun header _ => ?_
  obtain ⟨first, head⟩ : ∃ first,
      (UnstableSort.sortByKey (·.vmaddr) scan.segments).head? = some first :=
    Option.ne_none_iff_exists'.mp (mt UnstableSort.head?_sortByKey_eq_none.mp nonempty)
  rw [head, expect_some, bind_ok]
  have base : ∀ s ∈ UnstableSort.sortByKey (·.vmaddr) scan.segments,
      andNot first.vmaddr (pageSize - 1) ≤ s.vmaddr := by
    intro s mem
    rw [andNot_page]
    exact (roundDown_le _ _).trans (head_least sorted head s mem)
  dsimp only
  refine bind_ne_panic checkedEnd_ne_panic fun roundedEnd _ => ?_
  refine bind_ne_panic ofOption_ne_panic fun imageSize _ => ?_
  refine bind_ne_panic rejectIf_ne_panic fun _ _ => ?_
  refine bind_ne_panic ofOption_ne_panic fun entry _ => ?_
  refine bind_ne_panic (locateEntry_ne_panic base) fun located found => ?_
  obtain ⟨vaddr?, segments⟩ := located
  refine bind_ne_panic ofOption_ne_panic fun vaddr some_vaddr => ?_
  rw [ofOption_eq_ok] at some_vaddr
  subst some_vaddr
  have above : andNot first.vmaddr (pageSize - 1) ≤ vaddr := by
    rcases (locateEntry_eq_ok found).2 with none | ⟨s, mem, _, relative, _, rfl⟩
    · cases none
    · exact (base s mem).trans (Nat.le_add_right _ _)
  exact bind_ne_panic (sub_ne_panic_iff.mpr above) fun _ _ => ok_ne_panic _

theorem planImage_eq_ok {plan : MachOImagePlan} (done : planImage commandSize scan = .ok plan) :
    ∃ first last entry, Planned commandSize scan plan
      (UnstableSort.sortByKey (·.vmaddr) scan.segments) first last entry := by
  rw [planImage] at done
  obtain ⟨_, _, done⟩ := bind_eq_ok.mp done
  dsimp only at done
  obtain ⟨last, placed, done⟩ := bind_eq_ok.mp done
  obtain ⟨_, unshared, done⟩ := bind_eq_ok.mp done
  obtain ⟨_, sized, done⟩ := bind_eq_ok.mp done
  obtain ⟨_, rfl⟩ := add_eq_ok.mp sized
  obtain ⟨header, found, done⟩ := bind_eq_ok.mp done
  obtain ⟨first, head, done⟩ := bind_eq_ok.mp done
  obtain ⟨_, rounded, done⟩ := bind_eq_ok.mp done
  obtain ⟨_, rfl⟩ := checkedEnd_eq_ok.mp rounded
  obtain ⟨imageSize, spans, done⟩ := bind_eq_ok.mp done
  obtain ⟨_, limit, done⟩ := bind_eq_ok.mp done
  obtain ⟨entry, declared, done⟩ := bind_eq_ok.mp done
  obtain ⟨⟨vaddr?, segments⟩, located, done⟩ := bind_eq_ok.mp done
  obtain ⟨vaddr, some_vaddr, done⟩ := bind_eq_ok.mp done
  rw [ofOption_eq_ok] at some_vaddr
  subst some_vaddr
  obtain ⟨offset, distance, done⟩ := bind_eq_ok.mp done
  obtain ⟨above, rfl⟩ := sub_eq_ok.mp distance
  cases done
  rw [expect_eq_ok] at head
  rw [ofOption_eq_ok] at found declared
  rw [ofOption_eq_ok, checkedSub_eq_some, andNot_page, andNot_page] at spans
  obtain ⟨below, rfl⟩ := spans
  have test := List.find?_some found
  rw [decide_eq_true_eq] at test
  obtain ⟨rfl, source⟩ := locateEntry_eq_ok located
  rcases source with none | source
  · cases none
  · exact ⟨first, last, entry,
      { head, placed, unshared
        base := andNot_page _
        size := by
          rw [andNot_page, Nat.add_sub_cancel' below]
          rfl
        limit := Nat.not_lt.mp (rejectIf_eq_ok.mp limit)
        header := ⟨header, List.mem_of_find?_eq_some found, test.1, test.2, rfl⟩
        declared
        kind := rfl
        source
        offset := (Nat.add_sub_cancel' above).symm
        segments := rfl }⟩

end Plan

/-! ### Accepted plans -/

section Accepted

variable {bytes : Bytes} {scan : Scan} {plan : MachOImagePlan} {segments : List SegmentPlan}
  {first : SegmentPlan} {last : Nat} {entry : Entry}

/-- The segment that has the entry is entered where the command says. -/
theorem Planned.enters (inv : Scan.Inv bytes (loadCommands bytes) (wordAt 4 bytes 16) scan)
    (planned : Planned (commandBytes bytes) scan plan segments first last entry) {s : SegmentPlan}
    {relative : Nat} (executable : s.Executable) (source : entry.At s relative)
    (entered : plan.entryVaddr = s.vmaddr + relative) :
    Enters bytes plan (s.placedAt plan.preferredBase) := by
  obtain ⟨within, below⟩ := source
  have backed : plan.entryVaddr ∈ (s.placedAt plan.preferredBase).backed.bytes := by
    rw [entered]
    exact ⟨Nat.le_add_right _ _, Nat.add_lt_add_left below _⟩
  refine ⟨executable, backed, fun k has => ?_, fun k has => ?_⟩
  · have declared := inv.mains k has.1 has.2
    rw [planned.declared, Option.some.injEq] at declared
    subst declared
    rw [Entry.within, checkedSub_eq_some] at within
    obtain ⟨above, rfl⟩ := within
    refine ⟨planned.kind, ⟨above, ?_⟩, entered⟩
    exact (Nat.sub_lt_iff_lt_add' above).mp below
  · have declared := inv.threads k has.1 has.2
    rw [planned.declared, Option.some.injEq] at declared
    subst declared
    rw [Entry.within, checkedSub_eq_some] at within
    obtain ⟨above, rfl⟩ := within
    exact ⟨planned.kind, entered.trans (Nat.add_sub_cancel' above)⟩

theorem Planned.loadable (scanned : Scanned bytes (commandBytes bytes) scan)
    (inv : Scan.Inv bytes (loadCommands bytes) (wordAt 4 bytes 16) scan)
    (planned : Planned (commandBytes bytes) scan plan segments first last entry)
    (sorted : segments.Pairwise fun a b => a.vmaddr ≤ b.vmaddr)
    (each : ∀ s ∈ segments, SegmentOk bytes s) : Loadable bytes plan := by
  obtain ⟨above, spans, ordered⟩ := placeSegments_eq_ok planned.placed
  have low : ∀ s ∈ segments, plan.preferredBase ≤ s.vmaddr := by
    intro s mem
    rw [planned.base]
    exact (roundDown_le _ _).trans (head_least sorted planned.head s mem)
  have top : last ≤ plan.preferredBase + plan.imageSize := by
    rw [planned.size]
    exact le_roundUp (by decide) last
  have memory : plan.segments.Pairwise fun a b => a.memory.Apart b.memory := by
    rw [planned.segments, List.pairwise_map]
    exact ordered.imp .inl
  have holds_entry : ∀ s : SegmentPlan, SegmentOk bytes s → plan.entryVaddr ∈ s.backed.bytes →
      plan.entryVaddr ∈ s.memory.bytes := by
    intro s ok mem
    exact ⟨mem.1, Nat.lt_of_lt_of_le mem.2 (Nat.add_le_add_left ok.fits _)⟩
  have each_placed : ∀ s ∈ plan.segments, SegmentOk bytes s := by
    rw [planned.segments, List.forall_mem_map]
    exact fun s mem => ⟨(each s mem).positive, (each s mem).fits, (each s mem).word,
      (each s mem).inside⟩
  obtain ⟨s, mem, executable, relative, source, entered⟩ := planned.source
  have enters := planned.enters inv executable source entered
  have placed_mem : s.placedAt plan.preferredBase ∈ plan.segments := by
    rw [planned.segments]
    exact List.mem_map_of_mem mem
  -- The segments do not meet, so that no other one has the entry.
  have only : ∀ r ∈ plan.segments, plan.entryVaddr ∈ r.backed.bytes →
      r = s.placedAt plan.preferredBase := by
    intro r r_mem has
    exact Span.eq_of_mem_of_mem memory r_mem placed_mem
      (holds_entry r (each_placed r r_mem) has)
      (holds_entry _ (each_placed _ placed_mem) enters.backed)
  exact
    { sorted := by
        rw [planned.segments, List.pairwise_map]
        exact sorted
      memory
      files := by
        rw [planned.segments, List.filter_map, List.pairwise_map]
        have unshared := (forEarlier_eq_ok.mp planned.unshared).2
        refine List.Pairwise.filter _ unshared |>.imp_of_mem fun {a b} a_mem b_mem shared => ?_
        obtain ⟨a_mem, a_some⟩ := List.mem_filter.mp a_mem
        obtain ⟨b_mem, b_some⟩ := List.mem_filter.mp b_mem
        have apart : b.file.Apart a.file :=
          rejectShared_eq_ok (Nat.lt_of_le_of_lt (each b b_mem).inside scanned.small)
            (Nat.lt_of_le_of_lt (each a a_mem).inside scanned.small) shared
            (of_decide_eq_true b_some) (of_decide_eq_true a_some)
        exact apart.symm
      each := by
        intro r r_mem
        have ok := each_placed r r_mem
        rw [planned.segments] at r_mem
        obtain ⟨t, t_mem, rfl⟩ := List.mem_map.mp r_mem
        obtain ⟨behind, inside⟩ := spans t t_mem
        have base := low t t_mem
        simp only [SegmentPlan.memory, Span.stop_mk] at inside
        refine ⟨ok.positive, ok.fits, ok.inside, (Nat.add_sub_cancel' base).symm, ?_, ?_⟩
        · simp only [SegmentPlan.placedAt]
          omega
        · intro k guard
          obtain ⟨zero, is⟩ := inv.guards k guard.1.1 guard.1.2 guard.2
          rw [is, Option.getD_some] at behind
          refine .inr ?_
          rw [Span.stop_mk, commandWord, zero, Nat.zero_add]
          exact behind
      base_page := planned.base ▸ dvd_roundDown _ _
      size_page := by
        refine (Nat.dvd_add_iff_right (planned.base ▸ dvd_roundDown _ _)).mpr ?_
        exact planned.size ▸ dvd_roundUp _ _
      size_limit := planned.limit
      header := by
        obtain ⟨h, h_mem, zero, covers, is⟩ := planned.header
        refine ⟨h.placedAt plan.preferredBase, ?_, is, zero, covers⟩
        rw [planned.segments]
        exact List.mem_map_of_mem h_mem
      entry_offset := planned.offset
      entry := ⟨_, ⟨placed_mem, executable, enters.backed⟩, fun r has => only r has.1 has.2.2⟩
      enters := by
        intro r r_mem _ has
        rw [only r r_mem has]
        exact enters }

end Accepted

/-- The parser panics on no input, and a loader can rely on every plan it returns. -/
theorem parseMachoImage_loadable [UnstableSort] (bytes : Bytes) :
    parseMachoImage bytes ≠ .panic ∧
      ∀ plan, parseMachoImage bytes = .ok plan → Loadable bytes plan := by
  have scan_calm := scanCommands_calm bytes
  constructor
  · rw [parseMachoImage]
    refine bind_ne_panic rejectIf_ne_panic fun _ limit => ?_
    rw [rejectIf_eq_ok, Nat.not_lt, maxFileSize] at limit
    refine bind_ne_panic read32_ne_panic fun magic _ => ?_
    refine bind_ne_panic rejectIf_ne_panic fun _ _ => ?_
    refine bind_ne_panic slice_ne_panic fun header _ => ?_
    refine bind_ne_panic read32_ne_panic fun cpu _ => ?_
    refine bind_ne_panic rejectIf_ne_panic fun _ _ => ?_
    refine bind_ne_panic read32_ne_panic fun subtype _ => ?_
    refine bind_ne_panic rejectIf_ne_panic fun _ _ => ?_
    refine bind_ne_panic read32_ne_panic fun fileType _ => ?_
    refine bind_ne_panic rejectIf_ne_panic fun _ _ => ?_
    refine bind_ne_panic read32_ne_panic fun flags _ => ?_
    refine bind_ne_panic rejectIf_ne_panic fun _ _ => ?_
    refine bind_ne_panic read32_ne_panic fun reserved _ => ?_
    refine bind_ne_panic rejectIf_ne_panic fun _ _ => ?_
    refine bind_ne_panic read32_ne_panic fun count _ => ?_
    refine bind_ne_panic read32_ne_panic fun size sized => ?_
    refine bind_ne_panic rejectIf_ne_panic fun _ _ => ?_
    refine bind_ne_panic rejectIf_ne_panic fun _ _ => ?_
    refine bind_ne_panic slice_ne_panic fun commands _ => ?_
    obtain ⟨calm, kept⟩ := scan_calm commands count
    refine bind_ne_panic calm fun scan ran => ?_
    refine bind_ne_panic rejectIf_ne_panic fun _ _ => ?_
    exact planImage_ne_panic ⟨by omega, read32_lt sized, (kept scan ran).segments⟩
  · intro plan done
    rw [parseMachoImage] at done
    obtain ⟨_, limit, done⟩ := bind_eq_ok.mp done
    rw [rejectIf_eq_ok, Nat.not_lt, maxFileSize] at limit
    -- The words of the header, each with its check.
    iterate 13 obtain ⟨_, _, done⟩ := bind_eq_ok.mp done
    obtain ⟨count, counted, done⟩ := bind_eq_ok.mp done
    obtain rfl := read32_eq counted
    obtain ⟨size, sized, done⟩ := bind_eq_ok.mp done
    have short := read32_lt sized
    obtain rfl := read32_eq sized
    iterate 2 obtain ⟨_, _, done⟩ := bind_eq_ok.mp done
    obtain ⟨commands, sliced, done⟩ := bind_eq_ok.mp done
    obtain ⟨_, rfl⟩ := sliceOr_eq_ok.mp sliced
    obtain ⟨scan, ran, done⟩ := bind_eq_ok.mp done
    obtain ⟨_, _, done⟩ := bind_eq_ok.mp done
    have inv := (scan_calm (loadCommands bytes) _).2 scan ran
    obtain ⟨first, last, entry, planned⟩ := planImage_eq_ok done
    refine planned.loadable ⟨by omega, short, inv.segments⟩ inv (UnstableSort.sorted _ _) ?_
    exact fun s mem => inv.segments s (UnstableSort.mem_sortByKey.mp mem)

/-- A segment command without sections. -/
def sampleSegment (address memorySize offset size protection : Nat) : Bytes :=
  toLeBytes 4 0x19 ++ toLeBytes 4 72 ++ List.replicate 16 0 ++ toLeBytes 8 address ++
    toLeBytes 8 memorySize ++ toLeBytes 8 offset ++ toLeBytes 8 size ++ toLeBytes 4 protection ++
    toLeBytes 4 protection ++ toLeBytes 4 0 ++ toLeBytes 4 0

/-- An image of two segments, with its entry behind the load commands. -/
def sampleImage : Bytes :=
  toLeBytes 4 0xfeedfacf ++ toLeBytes 4 0x01000007 ++ toLeBytes 4 3 ++ toLeBytes 4 2 ++
    toLeBytes 4 3 ++ toLeBytes 4 168 ++ toLeBytes 4 1 ++ toLeBytes 4 0 ++
    sampleSegment 0x100000000 0x1000 0 208 5 ++ sampleSegment 0x100004000 0x2000 208 8 3 ++
    (toLeBytes 4 0x80000028 ++ toLeBytes 4 24 ++ toLeBytes 8 200 ++ toLeBytes 8 0) ++
    List.replicate 8 0xc3 ++ List.replicate 8 0x5a

theorem parseMachoImage_loadable_sample :
    ∃ plan, @parseMachoImage UnstableSort.insertion sampleImage = .ok plan ∧
      plan.segments.length = 2 ∧ plan.entryVaddr = 0x1000000c8 ∧ Loadable sampleImage plan := by
  obtain ⟨plan, parsed, found⟩ := isOkAnd_iff.mp
    (show (@parseMachoImage UnstableSort.insertion sampleImage).isOkAnd
        (fun plan => plan.segments.length = 2 ∧ plan.entryVaddr = 0x1000000c8) = true by
      decide +kernel)
  obtain ⟨two, enters⟩ := of_decide_eq_true found
  exact ⟨plan, parsed, two, enters,
    (@parseMachoImage_loadable UnstableSort.insertion sampleImage).2 plan parsed⟩

end Nextcore.MachoImage
