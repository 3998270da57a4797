import Nextcore.KcStaging.Layout
import Nextcore.KcStaging.Readback
import Nextcore.Lib.Patchwork

/-!
The image of a plan.

`linkedImage` is what a plan means: the file bytes of each mapping at its place, zeros
elsewhere. The copies of the staging write it over a cleared arena (`on_copySegments`); the
pass over the arena tests that it is there, each byte once (`sweep_decides`); and where it is
there, every member view shows its own file bytes (`shows_of_owned`), so the pass over the
views cannot fail (`verifyMembers_of`).
-/

namespace Nextcore.KcStaging

open Checked Checked.Outcome Checked.Exec

/-! ### The image -/

/-- The file bytes of a mapping, at their place in the arena. -/
def piece (source : Bytes) (s : StagingSegment) : Piece :=
  ⟨s.destinationOffset, window source s.fileOffset s.fileSize⟩

/-- The arena that the plan describes. -/
def KcStagingPlan.linkedImage (plan : KcStagingPlan) : Bytes :=
  image plan.arenaSize (plan.segments.map (piece plan.source))

/-- The arena has, from `at'` on, the `size` bytes that the source has from `offset` on. -/
def Shows (arena : Bytes) (at' : Nat) (source : Bytes) (offset size : Nat) : Prop :=
  ∀ k < size, ∃ b, source[offset + k]? = some b ∧ arena[at' + k]? = some b

/-- A part of what is shown is shown. -/
theorem Shows.part {arena source : Bytes} {at' offset size : Nat}
    (shows' : Shows arena at' source offset size) {skipped count : Nat}
    (inside : skipped + count ≤ size) :
    Shows arena (at' + skipped) source (offset + skipped) count := by
  intro k below
  obtain ⟨b, in_source, in_arena⟩ := shows' (skipped + k) (by omega)
  rw [← Nat.add_assoc] at in_source in_arena
  exact ⟨b, in_source, in_arena⟩

theorem Shows.window_eq {arena source : Bytes} {at' offset size : Nat}
    (shows' : Shows arena at' source offset size) {skipped count : Nat}
    (inside : skipped + count ≤ size) :
    window arena (at' + skipped) count = window source (offset + skipped) count := by
  rw [window_eq_window]
  intro i below
  obtain ⟨b, in_source, in_arena⟩ := shows'.part inside i below
  rw [in_arena, in_source]

section Arena

variable {source destination : Bytes} {segments : List StagingSegment} {size : Nat}

theorem span_piece {s : StagingSegment} (inSource : s.fileOffset + s.fileSize ≤ source.length) :
    (piece source s).span = ⟨s.destinationOffset, s.fileSize⟩ := by
  rw [Piece.span, piece, length_window inSource]

theorem LaidOut.tail {s : StagingSegment} (laid : LaidOut source size (s :: segments)) :
    LaidOut source size segments where
  fileFits := fun r mem => laid.fileFits r (List.mem_cons_of_mem s mem)
  inside := fun r mem => laid.inside r (List.mem_cons_of_mem s mem)
  inSource := fun r mem => laid.inSource r (List.mem_cons_of_mem s mem)
  ascending := (List.pairwise_cons.mp laid.ascending).2

/-- The file bytes of different mappings are apart. -/
theorem LaidOut.apart (laid : LaidOut source size segments) :
    (segments.map (piece source)).Pairwise fun p q => p.span.Apart q.span := by
  rw [List.pairwise_map]
  refine laid.ascending.imp_of_mem fun {a b} ha hb before => ?_
  have fits := laid.fileFits a ha
  rw [span_piece (laid.inSource a ha), span_piece (laid.inSource b hb)]
  simp only [StagingSegment.memory, Span.stop] at before
  simp only [Span.Apart, Span.stop]
  omega

theorem LaidOut.piece_fits (laid : LaidOut source size segments) :
    ∀ p ∈ segments.map (piece source), p.span.stop ≤ size := by
  intro p mem
  obtain ⟨s, s_mem, rfl⟩ := List.mem_map.mp mem
  have fits := laid.fileFits s s_mem
  have inside := laid.inside s s_mem
  rw [span_piece (laid.inSource s s_mem)]
  simp only [StagingSegment.memory, Span.stop] at inside ⊢
  omega

/-- The image shows the file bytes of every mapping. -/
theorem shows_of_mem (laid : LaidOut source size segments)
    (agree : ∀ i < size, destination[i]? = some (byteOf (segments.map (piece source)) i))
    {s : StagingSegment} (mem : s ∈ segments) :
    Shows destination s.destinationOffset source s.fileOffset s.fileSize := by
  intro k below
  have fits := laid.fileFits s mem
  have inside := laid.inside s mem
  have inSource := laid.inSource s mem
  simp only [StagingSegment.memory, Span.stop] at inside
  have in_source := List.getElem?_eq_getElem (show s.fileOffset + k < source.length by omega)
  have at_k : (piece source s).bytes[k]? = some source[s.fileOffset + k] := by
    rw [piece, getElem?_window, if_pos below, in_source]
  refine ⟨_, in_source, ?_⟩
  rw [agree _ (by omega)]
  exact congrArg some (byteOf_of_mem laid.apart (List.mem_map_of_mem mem) at_k)

/-- The image shows the file bytes of every view that a mapping owns. -/
theorem shows_of_owned (laid : LaidOut source size segments)
    (agree : ∀ i < size, destination[i]? = some (byteOf (segments.map (piece source)) i))
    {view : MemberView} {outer : StagingSegment} (mem : outer ∈ segments)
    (owned : Owned view outer) :
    Shows destination view.destinationOffset source view.fileOffset view.fileSize := by
  intro k below
  obtain ⟨above, _, file⟩ := owned
  obtain ⟨file_above, file_below, displacement⟩ := file (by omega)
  -- The view starts as far into the mapping as its file bytes into the mapping's.
  obtain ⟨b, in_source, in_arena⟩ := shows_of_mem laid agree mem
    (view.destinationOffset - outer.destinationOffset + k) (by omega)
  refine ⟨b, ?_, ?_⟩
  · rw [← in_source]
    congr 1
    omega
  · rw [← in_arena]
    congr 1
    omega

/-! ### The copies -/

/-- The loop over the segments writes their pieces, and cannot fail. -/
theorem on_copySegments {s : Staging}
    (fits : ∀ o ∈ segments, o.destinationOffset + o.fileSize ≤ s.destination.length)
    (inSource : ∀ o ∈ segments, o.fileOffset + o.fileSize ≤ source.length)
    (small : s.destination.length < 2 ^ 64) (word : source.length < 2 ^ 64) :
    (copySegments source segments).on s =
      (.ok (), { s with destination := applied (segments.map (piece source)) s.destination }) := by
  induction segments generalizing s with
  | nil => rfl
  | cons o rest ih =>
      obtain ⟨o_fits, rest_fits⟩ := List.forall_mem_cons.mp fits
      obtain ⟨o_inSource, rest_inSource⟩ := List.forall_mem_cons.mp inSource
      have copied : copySegment source o s = .ok { s with
          destination := overlay s.destination o.destinationOffset (piece source o).bytes } := by
        have file_length : (window source o.fileOffset o.fileSize).length = o.fileSize :=
          length_window o_inSource
        rw [copySegment, add_of_lt (by omega), bind_ok, add_of_lt (by omega), bind_ok,
          index_of_le (Nat.le_add_right _ _) o_inSource, bind_ok, Nat.add_sub_cancel_left,
          copyFrom_eq_ok.mpr ⟨⟨Nat.le_add_right _ _, o_fits, by omega⟩, rfl⟩]
        rfl
      rw [copySegments, on_bind_of_ok (on_update_of_ok copied), ih]
      · rfl
      · simpa only [length_overlay] using rest_fits
      · exact rest_inSource
      · simpa only [length_overlay] using small

/-! ### The pass over the arena -/

/-- The memory of one mapping, and the hole in front of it, is its piece alone. -/
theorem agrees_piece_iff {s : StagingSegment} {start : Nat} (before : start ≤ s.destinationOffset)
    (fits : s.fileSize ≤ s.memorySize) (inSource : s.fileOffset + s.fileSize ≤ source.length) :
    ((∀ i, start ≤ i → i < s.destinationOffset → destination[i]? = some 0) ∧
      (∀ i, s.destinationOffset ≤ i → i < s.destinationOffset + s.fileSize →
        destination[i]? = (window source s.fileOffset s.fileSize)[i - s.destinationOffset]?) ∧
      (∀ i, s.destinationOffset + s.fileSize ≤ i → i < s.memory.stop →
        destination[i]? = some 0)) ↔
      ∀ i, start ≤ i → i < s.memory.stop →
        destination[i]? = some (byteOf [piece source s] i) := by
  have span := span_piece inSource
  have outside {i : Nat} (out : i < s.destinationOffset ∨ s.destinationOffset + s.fileSize ≤ i) :
      byteOf [piece source s] i = 0 := by
    apply byteOf_of_not_mem
    intro p mem inside
    obtain rfl := List.mem_singleton.mp mem
    rw [span] at inside
    simp only [Span.mem_bytes, Span.stop_mk] at inside
    omega
  have within {i : Nat} (after : s.destinationOffset ≤ i)
      (below : i < s.destinationOffset + s.fileSize) :
      (window source s.fileOffset s.fileSize)[i - s.destinationOffset]? =
        some (byteOf [piece source s] i) :=
    getElem?_of_mem_span (p := piece source s) (span ▸ ⟨after, below⟩) []
  simp only [StagingSegment.memory, Span.stop]
  constructor
  · rintro ⟨hole, file, tail⟩ i after below
    by_cases first : i < s.destinationOffset
    · rw [outside (.inl first)]
      exact hole i after first
    by_cases second : i < s.destinationOffset + s.fileSize
    · rw [← within (Nat.le_of_not_lt first) second]
      exact file i (Nat.le_of_not_lt first) second
    · rw [outside (.inr (Nat.le_of_not_lt second))]
      exact tail i (Nat.le_of_not_lt second) below
  · intro agree
    refine ⟨?_, ?_, ?_⟩
    · intro i after below
      rw [agree i after (by omega), outside (.inl below)]
    · intro i after below
      rw [agree i (by omega) (by omega), within after below]
    · intro i after below
      rw [agree i (by omega) below, outside (.inr after)]

/-- Up to the end of a mapping the image is its piece; behind that it is the later ones. -/
theorem agrees_cons_iff {s : StagingSegment} {start : Nat}
    (laid : LaidOut source destination.length (s :: segments))
    (ahead : start ≤ s.destinationOffset) :
    ((∀ i, start ≤ i → i < s.memory.stop → destination[i]? = some (byteOf [piece source s] i)) ∧
      ∀ i, s.memory.stop ≤ i → i < destination.length →
        destination[i]? = some (byteOf (segments.map (piece source)) i)) ↔
      ∀ i, start ≤ i → i < destination.length →
        destination[i]? = some (byteOf ((s :: segments).map (piece source)) i) := by
  have mem : s ∈ s :: segments := List.mem_cons_self
  have fits := laid.fileFits s mem
  have inside := laid.inside s mem
  have span := span_piece (laid.inSource s mem)
  obtain ⟨before, _⟩ := List.pairwise_cons.mp laid.ascending
  rw [List.map_cons]
  have front {i : Nat} (below : i < s.memory.stop) :
      byteOf (piece source s :: segments.map (piece source)) i = byteOf [piece source s] i := by
    apply byteOf_cons_of_before
    intro q q_mem
    obtain ⟨r, r_mem, rfl⟩ := List.mem_map.mp q_mem
    exact Nat.lt_of_lt_of_le below (before r r_mem)
  have back {i : Nat} (past : s.memory.stop ≤ i) :
      byteOf (piece source s :: segments.map (piece source)) i =
        byteOf (segments.map (piece source)) i := by
    apply byteOf_cons_of_stop_le
    rw [span]
    simp only [StagingSegment.memory, Span.stop] at past ⊢
    omega
  have start_below : start ≤ s.memory.stop := ahead.trans (Nat.le_add_right _ _)
  constructor
  · rintro ⟨agree, agree'⟩ i after below
    by_cases first : i < s.memory.stop
    · rw [front first]
      exact agree i after first
    · rw [back (Nat.le_of_not_lt first)]
      exact agree' i (Nat.le_of_not_lt first) below
  · intro agree
    refine ⟨fun i after below => ?_, fun i after below => ?_⟩
    · rw [← front below]
      exact agree i after (Nat.lt_of_lt_of_le below inside)
    · rw [← back after]
      exact agree i (start_below.trans after) below

variable [Target] {sweep : Sweep}

/-- The pass over one mapping tests its memory and the hole in front of it. -/
theorem sweepSegment_decides {s : StagingSegment} (before : sweep.previousEnd ≤ s.destinationOffset)
    (fits : s.fileSize ≤ s.memorySize) (inside : s.memory.stop ≤ destination.length)
    (inSource : s.fileOffset + s.fileSize ≤ source.length)
    (small : destination.length < 2 ^ 64) (word : source.length < 2 ^ 64)
    (counted : sweep.copiedBytes + sweep.zeroTailBytes + sweep.holeBytes = sweep.previousEnd) :
    Decides (∀ i, sweep.previousEnd ≤ i → i < s.memory.stop →
        destination[i]? = some (byteOf [piece source s] i))
      .readbackMismatch
      (fun next => next = ⟨sweep.copiedBytes + s.fileSize,
        sweep.zeroTailBytes + (s.memorySize - s.fileSize),
        sweep.holeBytes + (s.destinationOffset - sweep.previousEnd), s.memory.stop⟩)
      (sweepSegment source destination sweep s) := by
  have file_length : (window source s.fileOffset s.fileSize).length = s.fileSize :=
    length_window inSource
  refine Decides.congr (agrees_piece_iff before fits inSource) ?_
  simp only [StagingSegment.memory, Span.stop] at inside ⊢
  have start_inside : s.destinationOffset ≤ destination.length := by omega
  have file_inside : s.destinationOffset + s.fileSize ≤ destination.length := by omega
  have hole := mustRead_none_decides before start_inside
  have file := mustRead_some_decides (Nat.le_add_right s.destinationOffset s.fileSize) file_inside
    (file_length.trans (Nat.add_sub_cancel_left ..).symm)
  have tail := mustRead_none_decides (Nat.add_le_add_left fits s.destinationOffset) inside
  refine .after_ok (add_of_lt (by omega)) (.after_ok (add_of_lt (by omega)) ?_)
  refine hole.bind fun _ _ _ => ?_
  refine .after_ok (add_of_lt (by omega)) ?_
  refine .after_ok (index_of_le (Nat.le_add_right _ _) inSource) ?_
  rw [Nat.add_sub_cancel_left]
  refine file.bind fun _ _ _ => ?_
  -- The counts cannot overflow: together they are the bytes passed.
  refine tail.then_ok fun _ _ _ => ⟨_, ?_, rfl⟩
  rw [add_of_lt (by omega), bind_ok, sub_of_le fits, bind_ok, add_of_lt (by omega), bind_ok,
    sub_of_le before, bind_ok, add_of_lt (by omega), bind_ok, pure_eq]

/-- The hole behind the last mapping. -/
theorem lastHole_decides (reached : sweep.previousEnd ≤ destination.length)
    (small : destination.length < 2 ^ 64)
    (counted : sweep.copiedBytes + sweep.zeroTailBytes + sweep.holeBytes = sweep.previousEnd) :
    Decides (∀ i, sweep.previousEnd ≤ i → i < destination.length → destination[i]? = some 0)
      .readbackMismatch
      (fun final => final.copiedBytes = sweep.copiedBytes ∧
        final.zeroTailBytes = sweep.zeroTailBytes ∧
        final.copiedBytes + final.zeroTailBytes + final.holeBytes = destination.length)
      (lastHole destination sweep) := by
  refine (mustRead_none_decides reached (Nat.le_refl _)).then_ok fun _ _ _ =>
    ⟨{ sweep with holeBytes := sweep.holeBytes + (destination.length - sweep.previousEnd) },
      ?_, rfl, rfl, ?_⟩
  · rw [sub_of_le reached, bind_ok, add_of_lt (by omega), bind_ok, pure_eq]
  · dsimp only
    omega

/-- The pass over the arena, from any mapping on, tests the rest of the image. -/
theorem sweep_decides (laid : LaidOut source destination.length segments)
    (small : destination.length < 2 ^ 64) (word : source.length < 2 ^ 64)
    (ahead : ∀ s ∈ segments, sweep.previousEnd ≤ s.destinationOffset)
    (reached : sweep.previousEnd ≤ destination.length)
    (counted : sweep.copiedBytes + sweep.zeroTailBytes + sweep.holeBytes = sweep.previousEnd) :
    Decides (∀ i, sweep.previousEnd ≤ i → i < destination.length →
        destination[i]? = some (byteOf (segments.map (piece source)) i))
      .readbackMismatch
      (fun final =>
        final.copiedBytes = sweep.copiedBytes + (segments.map (·.fileSize)).sum ∧
        final.zeroTailBytes =
          sweep.zeroTailBytes + (segments.map fun s => s.memorySize - s.fileSize).sum ∧
        final.copiedBytes + final.zeroTailBytes + final.holeBytes = destination.length)
      (segments.foldlM (sweepSegment source destination) sweep >>= lastHole destination) := by
  induction segments generalizing sweep with
  | nil => exact lastHole_decides reached small counted
  | cons s rest ih =>
      obtain ⟨s_ahead, _⟩ := List.forall_mem_cons.mp ahead
      obtain ⟨s_before, _⟩ := List.pairwise_cons.mp laid.ascending
      have mem : s ∈ s :: rest := List.mem_cons_self
      have fits := laid.fileFits s mem
      have inside := laid.inside s mem
      have inSource := laid.inSource s mem
      have step := sweepSegment_decides s_ahead fits inside inSource small word counted
      have split : ((∀ i, sweep.previousEnd ≤ i → i < s.memory.stop →
            destination[i]? = some (byteOf [piece source s] i)) ∧
          ∀ i, s.memory.stop ≤ i → i < destination.length →
            destination[i]? = some (byteOf (rest.map (piece source)) i)) ↔
          ∀ i, sweep.previousEnd ≤ i → i < destination.length →
            destination[i]? = some (byteOf ((s :: rest).map (piece source)) i) :=
        agrees_cons_iff laid s_ahead
      rw [List.foldlM_cons, bind_assoc]
      refine (step.bind fun _ next next_eq => ?_).congr split
      have next_reached : next.previousEnd = s.memory.stop := by rw [next_eq]
      have next_counted :
          next.copiedBytes + next.zeroTailBytes + next.holeBytes = next.previousEnd := by
        rw [next_eq]
        simp only [StagingSegment.memory, Span.stop]
        omega
      have remaining := ih laid.tail (next_reached ▸ s_before) (next_reached ▸ inside) next_counted
      rw [next_reached] at remaining
      refine remaining.imp fun final counts => ?_
      obtain ⟨copied, zeros, all⟩ := counts
      refine ⟨?_, ?_, all⟩
      · rw [copied, next_eq, List.map_cons, List.sum_cons, Nat.add_assoc]
      · rw [zeros, next_eq, List.map_cons, List.sum_cons, Nat.add_assoc]

/-! ### The pass over the member views -/

/-- What the pass over the views carries. -/
structure PassInv (size : Nat) (pass : MemberPass) : Prop where
  compared : pass.fileBytesCompared ≤ pass.coveredEnd
  covered : pass.coveredEnd ≤ size

variable {pass : MemberPass} {view : MemberView}

/-- Where the arena shows the view, the comparison passes, whatever was covered before it. -/
theorem compareView_of
    (shown : Shows destination view.destinationOffset source view.fileOffset view.fileSize)
    (inside : view.destinationOffset + view.fileSize ≤ destination.length)
    (inSource : view.fileOffset + view.fileSize ≤ source.length)
    (small : destination.length < 2 ^ 64) (word : source.length < 2 ^ 64)
    (inv : PassInv destination.length pass) :
    ∃ compared, compareView source destination pass view
        (view.destinationOffset + view.fileSize) = .ok compared ∧
      compared ≤ max pass.coveredEnd (view.destinationOffset + view.fileSize) := by
  obtain ⟨compared, covered⟩ := inv
  unfold compareView
  dsimp only
  generalize start_eq : max pass.coveredEnd view.destinationOffset = compareStart
  by_cases left : compareStart < view.destinationOffset + view.fileSize
  · have after : view.destinationOffset ≤ compareStart := start_eq ▸ Nat.le_max_right _ _
    have counted : pass.fileBytesCompared ≤ compareStart :=
      compared.trans (start_eq ▸ Nat.le_max_left _ _)
    obtain ⟨skipped, rfl⟩ := Nat.exists_eq_add_of_le after
    have same : window destination (view.destinationOffset + skipped) (view.fileSize - skipped) =
        window source (view.fileOffset + skipped) (view.fileSize - skipped) :=
      shown.window_eq (by omega)
    have sizes : view.destinationOffset + view.fileSize - (view.destinationOffset + skipped) =
        view.fileSize - skipped := by omega
    have sizes' : view.fileOffset + view.fileSize - (view.fileOffset + skipped) =
        view.fileSize - skipped := by omega
    rw [if_pos left, sub_of_le after, bind_ok, index_of_le left.le inside, bind_ok,
      Nat.add_sub_cancel_left, add_of_lt (by omega), bind_ok, add_of_lt (by omega), bind_ok,
      index_of_le (by omega) inSource, bind_ok, readback_eq, bind_ok, sizes, sizes', same,
      wantedBytes_some, decide_eq_true rfl,
      rejectIf_of_not KcStagingError.readbackMismatch (by simp), bind_ok, sub_of_le left.le,
      bind_ok, checkedAdd_of_lt (by omega), ofOption_some]
    exact ⟨_, rfl, by omega⟩
  · rw [if_neg left, pure_eq]
    exact ⟨_, rfl, compared.trans (Nat.le_max_left _ _)⟩

/-- Where the arena shows the view, the pass goes on. -/
theorem passView_of
    (shown : Shows destination view.destinationOffset source view.fileOffset view.fileSize)
    (sound : ViewOk source destination.length segments view) (small : destination.length < 2 ^ 64)
    (word : source.length < 2 ^ 64) (inv : PassInv destination.length pass)
    (room : pass.headersChecked + pass.segmentViewsChecked + 1 < 2 ^ 64) :
    ∃ next, passView source destination pass view = .ok next ∧ PassInv destination.length next ∧
      next.headersChecked + next.segmentViewsChecked =
        pass.headersChecked + pass.segmentViewsChecked + 1 := by
  obtain ⟨inside, inSource, fits, _⟩ := sound
  have file_inside : view.destinationOffset + view.fileSize ≤ destination.length := by omega
  obtain ⟨compared, passed, bound⟩ := compareView_of shown file_inside inSource small word inv
  have covered : max pass.coveredEnd (view.destinationOffset + view.fileSize) ≤
      destination.length := Nat.max_le.mpr ⟨inv.covered, file_inside⟩
  have not_past : ¬ view.destinationOffset + view.memorySize > destination.length := by omega
  rw [passView, add_of_lt (by omega), bind_ok,
    rejectIf_of_not KcStagingError.readbackMismatch not_past, bind_ok, add_of_lt (by omega),
    bind_ok, passed, bind_ok]
  by_cases header : view.isHeader = true
  · rw [if_pos header, add_of_lt (by omega), bind_ok, pure_eq]
    exact ⟨_, rfl, ⟨bound, covered⟩, by dsimp only; omega⟩
  · rw [if_neg header, add_of_lt (by omega), bind_ok, pure_eq]
    exact ⟨_, rfl, ⟨bound, covered⟩, by dsimp only; omega⟩

/-- On the image the pass over the views succeeds, from any of them on. -/
theorem passViews_of {views : List MemberView} (laid : LaidOut source destination.length segments)
    (agree : ∀ i < destination.length,
      destination[i]? = some (byteOf (segments.map (piece source)) i))
    (sound : ∀ view ∈ views, ViewOk source destination.length segments view)
    (small : destination.length < 2 ^ 64) (word : source.length < 2 ^ 64)
    (inv : PassInv destination.length pass)
    (room : pass.headersChecked + pass.segmentViewsChecked + views.length < 2 ^ 64) :
    ∃ final, views.foldlM (passView source destination) pass = .ok final := by
  induction views generalizing pass with
  | nil => exact ⟨pass, rfl⟩
  | cons view rest ih =>
      obtain ⟨first, others⟩ := List.forall_mem_cons.mp sound
      obtain ⟨outer, mem, owned⟩ := first.owned
      rw [List.length_cons] at room
      obtain ⟨next, passed, next_inv, count⟩ := passView_of
        (shows_of_owned laid agree mem owned) first small word inv (by omega)
      obtain ⟨final, ran⟩ := ih others next_inv (by omega)
      refine ⟨final, ?_⟩
      rw [List.foldlM_cons, passed, bind_ok]
      exact ran

end Arena

end Nextcore.KcStaging
