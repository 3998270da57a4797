import Nextcore.StartupImage.Parse

/-!
What a parsed image is.

`declaredSegments` lists what the load commands of an image declare, whether or not they were
checked. The scan keeps that list (`Scan.Inv`), and the checks behind it say how the segments
lie, in memory and in the file (`Parsed`).
-/

namespace Nextcore.StartupImage

open Checked Checked.Outcome

/-! ### What the load commands declare -/

/-- The load commands of an image. -/
def loadCommands (source : Bytes) : Bytes := window source 32 (wordAt 4 source 20)

/-- The four words of a segment command. -/
def segmentOf (command : Bytes) : Segment :=
  ⟨wordAt 8 command 24, wordAt 8 command 32, wordAt 8 command 40, wordAt 8 command 48⟩

/-- The segment of a load command, if it has one; the guard page is none. -/
def segmentIn (kind : Nat) (command : Bytes) : Option Segment :=
  if kind = 0x19 ∧ window command 8 16 ≠ pageZeroName then some (segmentOf command) else none

/-- The segments of the first `count` load commands. -/
def segmentsOf (commands : Bytes) (count : Nat) : List Segment :=
  (List.range count).filterMap fun k => segmentIn (commandKind commands k) (commandAt commands k)

/-- The segments of an image, in the order of its load commands. -/
def declaredSegments (source : Bytes) : List Segment :=
  segmentsOf (loadCommands source) (wordAt 4 source 16)

theorem segmentsOf_succ (commands : Bytes) (k : Nat) :
    segmentsOf commands (k + 1) = segmentsOf commands k ++
      (segmentIn (commandKind commands k) (commandAt commands k)).toList := by
  rw [segmentsOf, List.range_succ, List.filterMap_append]
  rfl

/-! ### The scan -/

/-- What has been checked of every segment. -/
structure SegmentOk (source : Bytes) (s : Segment) : Prop where
  fits : s.filesize ≤ s.vmsize
  word : s.vmaddr + s.vmsize < 2 ^ 64
  inside : s.fileoff + s.filesize ≤ source.length

section Commands

variable {source command : Bytes} {scan scan' : Scan}

theorem read32_eq {b : Bytes} {offset n : Nat} (read : read32 b offset = .ok n) :
    n = wordAt 4 b offset := (wordOr_eq_ok.mp read).2

theorem read64_eq {b : Bytes} {offset n : Nat} (read : read64 b offset = .ok n) :
    n = wordAt 8 b offset := (wordOr_eq_ok.mp read).2

/-- What a load command adds to the segments has been checked. -/
def Adds (source command : Bytes) (kind : Nat) (scan scan' : Scan) : Prop :=
  scan'.segments = scan.segments ++ (segmentIn kind command).toList ∧
    ∀ s ∈ segmentIn kind command, SegmentOk source s

theorem adds_nothing {kind : Nat} (other : segmentIn kind command = none)
    (same : scan'.segments = scan.segments) : Adds source command kind scan scan' := by
  rw [Adds, other, Option.toList_none, List.append_nil]
  exact ⟨same, fun s mem => nomatch mem⟩

theorem segmentCommand_eq_ok {size : Nat}
    (done : segmentCommand source command size scan = .ok scan') :
    Adds source command 0x19 scan scan' := by
  rw [segmentCommand] at done
  iterate 4 obtain ⟨_, _, done⟩ := bind_eq_ok.mp done
  obtain ⟨vmaddr, at_vmaddr, done⟩ := bind_eq_ok.mp done
  obtain ⟨vmsize, at_vmsize, done⟩ := bind_eq_ok.mp done
  obtain ⟨fileoff, at_fileoff, done⟩ := bind_eq_ok.mp done
  obtain ⟨filesize, at_filesize, done⟩ := bind_eq_ok.mp done
  have declared : segmentOf command = ⟨vmaddr, vmsize, fileoff, filesize⟩ := by
    rw [segmentOf, read64_eq at_vmaddr, read64_eq at_vmsize, read64_eq at_fileoff,
      read64_eq at_filesize]
  obtain ⟨name, named, done⟩ := bind_eq_ok.mp done
  obtain ⟨_, rfl⟩ := index_eq_ok.mp named
  rcases ite_eq_iff.mp done with ⟨zero, done⟩ | ⟨not_zero, done⟩
  · iterate 7 obtain ⟨_, _, done⟩ := bind_eq_ok.mp done
    cases done
    exact adds_nothing (if_neg fun is => is.2 zero) rfl
  · obtain ⟨_, valid, done⟩ := bind_eq_ok.mp done
    obtain ⟨_, inside, done⟩ := bind_eq_ok.mp done
    obtain ⟨_, _, done⟩ := bind_eq_ok.mp done
    cases done
    rw [rejectIf_eq_ok] at valid
    push Not at valid
    obtain ⟨_, _, fits, word⟩ := valid
    obtain ⟨stop, added⟩ := Option.ne_none_iff_exists'.mp word
    have is : segmentIn 0x19 command = some ⟨vmaddr, vmsize, fileoff, filesize⟩ := by
      rw [segmentIn, if_pos ⟨rfl, not_zero⟩, declared]
    rw [Adds, is]
    refine ⟨rfl, fun s mem => ?_⟩
    cases mem
    exact ⟨fits, (checkedAdd_eq_some.mp added).1, (sliceOr_eq_ok.mp inside).1.2⟩

theorem symtabCommand_eq_ok {size : Nat}
    (done : symtabCommand source command size scan = .ok scan') :
    scan'.segments = scan.segments := by
  rw [symtabCommand] at done
  iterate 7 obtain ⟨_, _, done⟩ := bind_eq_ok.mp done
  cases done
  rfl

theorem dysymtabCommand_eq_ok {size : Nat}
    (done : dysymtabCommand source command size scan = .ok scan') :
    scan'.segments = scan.segments := by
  rw [dysymtabCommand] at done
  iterate 3 obtain ⟨_, _, done⟩ := bind_eq_ok.mp done
  cases done
  rfl

theorem threadCommand_eq_ok {size : Nat} (done : threadCommand command size scan = .ok scan') :
    scan'.segments = scan.segments := by
  rw [threadCommand] at done
  iterate 5 obtain ⟨_, _, done⟩ := bind_eq_ok.mp done
  cases done
  rfl

theorem loadCommand_eq_ok {kind size : Nat}
    (done : loadCommand source command kind size scan = .ok scan') :
    Adds source command kind scan scan' := by
  rw [loadCommand] at done
  rcases ite_eq_iff.mp done with ⟨rfl, done⟩ | ⟨not_segment, done⟩
  · exact segmentCommand_eq_ok done
  have other : segmentIn kind command = none := if_neg fun is => not_segment is.1
  refine adds_nothing other ?_
  rcases ite_eq_iff.mp done with ⟨_, done⟩ | ⟨_, done⟩
  · exact symtabCommand_eq_ok done
  rcases ite_eq_iff.mp done with ⟨_, done⟩ | ⟨_, done⟩
  · exact dysymtabCommand_eq_ok done
  rcases ite_eq_iff.mp done with ⟨_, done⟩ | ⟨_, done⟩
  · cases done
    rfl
  rcases ite_eq_iff.mp done with ⟨_, done⟩ | ⟨_, done⟩
  · cases done
    rfl
  rcases ite_eq_iff.mp done with ⟨_, done⟩ | ⟨_, done⟩
  · exact threadCommand_eq_ok done
  · rcases ite_eq_iff.mp done with ⟨_, done⟩ | ⟨_, done⟩ <;> cases done

end Commands

/-- What the loop carries in front of the `k`-th load command. -/
structure Scan.Inv (source commands : Bytes) (k : Nat) (scan : Scan) : Prop where
  offset : scan.offset = commandOffset commands k
  segments : scan.segments = segmentsOf commands k
  each : ∀ s ∈ scan.segments, SegmentOk source s

theorem Scan.inv_start (source commands : Bytes) : Scan.Inv source commands 0 .start where
  offset := rfl
  segments := rfl
  each := fun _ mem => absurd mem List.not_mem_nil

theorem Scan.Inv.step {source commands : Bytes} {k : Nat} {scan scan' : Scan}
    (inv : Scan.Inv source commands k scan)
    (done : scanCommand source commands scan = .ok scan') :
    Scan.Inv source commands (k + 1) scan' := by
  rw [scanCommand] at done
  obtain ⟨kind, at_kind, done⟩ := bind_eq_ok.mp done
  obtain ⟨sizeAt, moved, done⟩ := bind_eq_ok.mp done
  rw [ofOption_eq_ok, checkedAdd_eq_some] at moved
  obtain ⟨_, rfl⟩ := moved
  obtain ⟨size, at_size, done⟩ := bind_eq_ok.mp done
  obtain ⟨_, _, done⟩ := bind_eq_ok.mp done
  obtain ⟨command, sliced, done⟩ := bind_eq_ok.mp done
  obtain ⟨_, rfl⟩ := sliceOr_eq_ok.mp sliced
  obtain ⟨next, ran, done⟩ := bind_eq_ok.mp done
  obtain ⟨offset, advanced, done⟩ := bind_eq_ok.mp done
  cases done
  rw [ofOption_eq_ok, checkedAdd_eq_some] at advanced
  obtain ⟨_, rfl⟩ := advanced
  obtain ⟨added, checked⟩ := loadCommand_eq_ok ran
  rw [read32_eq at_kind, read32_eq at_size, inv.offset] at added checked
  refine ⟨by rw [read32_eq at_size, inv.offset]; rfl, ?_, fun s mem => ?_⟩
  · exact added.trans (by rw [inv.segments, segmentsOf_succ]; rfl)
  · dsimp only at mem
    rw [added] at mem
    rcases List.mem_append.mp mem with old | new
    · exact inv.each s old
    · exact checked s (Option.mem_toList.mp new)

theorem scanCommands_eq_ok {source commands : Bytes} {count k : Nat} {scan last : Scan}
    (inv : Scan.Inv source commands k scan)
    (done : iterate (scanCommand source commands) count scan = .ok last) :
    Scan.Inv source commands (k + count) last := by
  induction count generalizing k scan with
  | zero =>
      cases done
      exact inv
  | succ count ih =>
      obtain ⟨next, first, others⟩ := bind_eq_ok.mp done
      have reached := ih (inv.step first) others
      rwa [Nat.add_assoc, Nat.add_comm 1 count] at reached

/-! ### The image -/

/-- How the segments of a parsed image lie. -/
structure Parsed (source : Bytes) (image : Image) : Prop where
  source_eq : image.source = source
  short : source.length ≤ maxFileSize
  perm : image.segments.Perm (declaredSegments source)
  each : ∀ s ∈ image.segments, SegmentOk source s
  ordered : image.segments.Pairwise fun a b => a.vmaddr + a.vmsize ≤ b.vmaddr
  low : ∀ s ∈ image.segments, image.virtualBase ≤ s.vmaddr
  high : ∀ s ∈ image.segments, s.vmaddr + s.vmsize ≤ image.virtualBase + image.span
  span_page : pageSize ∣ image.span
  positive : 0 < image.span
  small : image.span ≤ maxImageSize
  copied : image.copiedBytes = (image.segments.map (·.filesize)).sum

theorem alignUp_eq_ok {value aligned : Nat} :
    alignUp value = .ok aligned ↔
      value + (pageSize - 1) < 2 ^ 64 ∧ roundUp pageSize value = aligned := by
  have page : andNot (value + (pageSize - 1)) (pageSize - 1) = roundUp pageSize value :=
    andNot_two_pow _ 14
  simp only [alignUp, bind_eq_ok, ofOption_eq_ok, checkedAdd_eq_some, pure_eq, ok.injEq]
  constructor
  · rintro ⟨_, ⟨word, rfl⟩, rfl⟩
    exact ⟨word, page.symm⟩
  · rintro ⟨word, rfl⟩
    exact ⟨_, ⟨word, rfl⟩, page⟩

/-- Neighbours that do not overlap are in order, however far apart they are. -/
theorem ordered_of_neighbours {segments : List Segment} {u : Unit}
    (checked : forWindows rejectOverlap segments = .ok u) :
    segments.Pairwise fun a b => a.vmaddr + a.vmsize ≤ b.vmaddr := by
  have step : Trans (fun a b : Segment => a.vmaddr + a.vmsize ≤ b.vmaddr)
      (fun a b : Segment => a.vmaddr + a.vmsize ≤ b.vmaddr)
      (fun a b : Segment => a.vmaddr + a.vmsize ≤ b.vmaddr) :=
    ⟨fun {a b c} first second => first.trans ((Nat.le_add_right _ _).trans second)⟩
  refine List.isChain_iff_pairwise.mp ((forWindows_eq_ok.mp checked).imp fun a b apart => ?_)
  obtain ⟨stop, added, clear⟩ := bind_eq_ok.mp apart
  obtain ⟨_, rfl⟩ := add_eq_ok.mp added
  exact Nat.not_lt.mp (rejectIf_eq_ok.mp clear)

/-- The last of the ordered segments ends last. -/
theorem le_of_getLast {segments : List Segment} {last : Segment}
    (ordered : segments.Pairwise fun a b => a.vmaddr + a.vmsize ≤ b.vmaddr)
    (is_last : segments.getLast? = some last) :
    ∀ s ∈ segments, s.vmaddr + s.vmsize ≤ last.vmaddr + last.vmsize := by
  obtain ⟨front, rfl⟩ := List.getLast?_eq_some_iff.mp is_last
  obtain ⟨_, _, before⟩ := List.pairwise_append.mp ordered
  intro s mem
  rcases List.mem_append.mp mem with earlier | same
  · exact (before s earlier last List.mem_cons_self).trans (Nat.le_add_right _ _)
  · rw [List.mem_singleton.mp same]

theorem le_of_head {segments : List Segment} {first : Segment}
    (ordered : segments.Pairwise fun a b => a.vmaddr + a.vmsize ≤ b.vmaddr)
    (head : segments.head? = some first) : ∀ s ∈ segments, first.vmaddr ≤ s.vmaddr := by
  obtain ⟨rest, rfl⟩ := List.head?_eq_some_iff.mp head
  refine List.forall_mem_cons.mpr ⟨Nat.le_refl _, fun s mem => ?_⟩
  exact (Nat.le_add_right _ _).trans ((List.pairwise_cons.mp ordered).1 s mem)

theorem sumFiles_eq_ok {segments : List Segment} {sum total : Nat}
    (added : segments.foldlM (fun sum s =>
      (ofOption .addressOverflow (checkedAdd sum s.filesize) : Result Nat)) sum = .ok total) :
    total = sum + (segments.map (·.filesize)).sum := by
  induction segments generalizing sum with
  | nil =>
      cases added
      rfl
  | cons s rest ih =>
      rw [List.foldlM_cons] at added
      obtain ⟨next, first, others⟩ := bind_eq_ok.mp added
      rw [ofOption_eq_ok, checkedAdd_eq_some] at first
      obtain ⟨_, rfl⟩ := first
      rw [ih others, List.map_cons, List.sum_cons, Nat.add_assoc]

section Plan

variable [UnstableSort] {source : Bytes} {image : Image}

theorem planImage_eq_ok {commandBytes : Nat} {scan : Scan} (short : source.length ≤ maxFileSize)
    (perm : scan.segments.Perm (declaredSegments source))
    (each : ∀ s ∈ scan.segments, SegmentOk source s)
    (done : planImage source commandBytes scan = .ok image) : Parsed source image := by
  rw [planImage] at done
  iterate 2 obtain ⟨_, _, done⟩ := bind_eq_ok.mp done
  obtain ⟨first, head, done⟩ := bind_eq_ok.mp done
  rw [expect_eq_ok] at head
  iterate 3 obtain ⟨_, _, done⟩ := bind_eq_ok.mp done
  obtain ⟨_, neighbours, done⟩ := bind_eq_ok.mp done
  have ordered := ordered_of_neighbours neighbours
  obtain ⟨_, _, done⟩ := bind_eq_ok.mp done
  obtain ⟨last, is_last, done⟩ := bind_eq_ok.mp done
  rw [ofOption_eq_ok] at is_last
  obtain ⟨_, ended, done⟩ := bind_eq_ok.mp done
  obtain ⟨_, rfl⟩ := add_eq_ok.mp ended
  obtain ⟨virtualEnd, rounded, done⟩ := bind_eq_ok.mp done
  obtain ⟨_, rfl⟩ := alignUp_eq_ok.mp rounded
  obtain ⟨span, spans, done⟩ := bind_eq_ok.mp done
  have page : andNot first.vmaddr (pageSize - 1) = roundDown pageSize first.vmaddr :=
    andNot_two_pow _ 14
  rw [ofOption_eq_ok, checkedSub_eq_some, page] at spans
  obtain ⟨below, rfl⟩ := spans
  obtain ⟨_, limits, done⟩ := bind_eq_ok.mp done
  rw [rejectIf_eq_ok] at limits
  obtain ⟨copied, summed, done⟩ := bind_eq_ok.mp done
  cases done
  have sorted_perm := UnstableSort.perm (fun s : Segment => s.vmaddr) scan.segments
  have top : last.vmaddr + last.vmsize ≤ roundUp pageSize (last.vmaddr + last.vmsize) :=
    le_roundUp (by decide) _
  exact
    { source_eq := rfl
      short
      perm := sorted_perm.trans perm
      each := fun s mem => each s (sorted_perm.mem_iff.mp mem)
      ordered
      low := fun s mem => by
        dsimp only
        rw [page]
        exact (roundDown_le _ _).trans (le_of_head ordered head s mem)
      high := fun s mem => by
        dsimp only
        rw [page, Nat.add_sub_cancel' below]
        exact (le_of_getLast ordered is_last s mem).trans top
      span_page := Nat.dvd_sub (dvd_roundUp _ _) (dvd_roundDown _ _)
      positive := by
        dsimp only
        omega
      small := by
        dsimp only
        omega
      copied := by
        have total := sumFiles_eq_ok summed
        rwa [Nat.zero_add] at total }

theorem parseImage_eq_ok (done : parseImage source = .ok image) : Parsed source image := by
  rw [parseImage] at done
  obtain ⟨_, limit, done⟩ := bind_eq_ok.mp done
  rw [rejectIf_eq_ok, Nat.not_lt] at limit
  iterate 2 obtain ⟨_, _, done⟩ := bind_eq_ok.mp done
  obtain ⟨header, sliced, done⟩ := bind_eq_ok.mp done
  obtain ⟨_, rfl⟩ := sliceOr_eq_ok.mp sliced
  -- The words of the header, each with its check.
  iterate 10 obtain ⟨_, _, done⟩ := bind_eq_ok.mp done
  obtain ⟨count, counted, done⟩ := bind_eq_ok.mp done
  obtain rfl := read32_eq counted
  obtain ⟨size, sized, done⟩ := bind_eq_ok.mp done
  obtain rfl := read32_eq sized
  iterate 2 obtain ⟨_, _, done⟩ := bind_eq_ok.mp done
  obtain ⟨commands, in_source, done⟩ := bind_eq_ok.mp done
  obtain ⟨_, rfl⟩ := sliceOr_eq_ok.mp in_source
  obtain ⟨scan, ran, done⟩ := bind_eq_ok.mp done
  obtain ⟨_, _, done⟩ := bind_eq_ok.mp done
  have inv := scanCommands_eq_ok (Scan.inv_start source _) ran
  rw [Nat.zero_add, wordAt_window (by decide), wordAt_window (by decide)] at inv
  exact planImage_eq_ok limit (inv.segments ▸ List.Perm.refl _) inv.each done

end Plan

end Nextcore.StartupImage
