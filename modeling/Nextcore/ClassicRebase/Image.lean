import Nextcore.ClassicRebase.Rebase
import Nextcore.KcStaging.Staged

/-!
The rebased image, and what verification accepts.

`rebasedImage` is the image of the staging with the words of the plan written over it. The loop
of the verification has three cursors; what lies ahead of them is one byte function
(`Cursors.byteAhead`), each round tests a range of it and leaves the rest (`verifyRound_spec`), so
the loop tests the whole image (`verifyFrom_decides`). Words may abut one another, the end of a
segment's file bytes or of its memory: a round only ever needs the next boundary to lie ahead.
-/

namespace Nextcore.ClassicRebase

open Checked Checked.Outcome
open KcStaging (StagingSegment LaidOut Target piece span_piece wantedBytes readback_eq
  BytewiseEqual eq_wantedBytes_iff)

/-! ### The image -/

/-- The bytes of a word, at their place in the arena. -/
def Word.piece (w : Word) : Piece := ⟨w.offset, w.after.take w.width⟩

/-- The image of the staging, with the words written over it. -/
def KcClassicRebasePlan.rebasedImage (plan : KcClassicRebasePlan) : Bytes :=
  applied (plan.words.map Word.piece) plan.staging.linkedImage

/-- The words of a plan lie in the arena, in order and apart. -/
structure WordsLaidOut (size : Nat) (words : List Word) : Prop where
  wide : ∀ w ∈ words, 0 < w.width ∧ w.width ≤ w.after.length
  inside : ∀ w ∈ words, w.offset + w.width ≤ size
  ascending : words.Pairwise fun a b => a.offset + a.width ≤ b.offset

section Words

variable {size : Nat} {words : List Word} {w : Word}

theorem WordsLaidOut.tail (laid : WordsLaidOut size (w :: words)) : WordsLaidOut size words where
  wide := fun v mem => laid.wide v (List.mem_cons_of_mem w mem)
  inside := fun v mem => laid.inside v (List.mem_cons_of_mem w mem)
  ascending := (List.pairwise_cons.mp laid.ascending).2

theorem span_wordPiece (wide : w.width ≤ w.after.length) : w.piece.span = ⟨w.offset, w.width⟩ := by
  rw [Piece.span, Word.piece, List.length_take, Nat.min_eq_left wide]

theorem WordsLaidOut.apart (laid : WordsLaidOut size words) :
    (words.map Word.piece).Pairwise fun p q => p.span.Apart q.span := by
  rw [List.pairwise_map]
  refine laid.ascending.imp_of_mem fun {a b} ha hb before => ?_
  rw [span_wordPiece (laid.wide a ha).2, span_wordPiece (laid.wide b hb).2]
  exact .inl before

theorem WordsLaidOut.piece_fits (laid : WordsLaidOut size words) :
    ∀ p ∈ words.map Word.piece, p.span.stop ≤ size := by
  intro p mem
  obtain ⟨v, v_mem, rfl⟩ := List.mem_map.mp mem
  rw [span_wordPiece (laid.wide v v_mem).2]
  exact laid.inside v v_mem

end Words

/-- What verification and application rely on. -/
structure KcClassicRebasePlan.Sound (plan : KcClassicRebasePlan) : Prop where
  staging : plan.staging.Sound
  fromSource : plan.staging.source = plan.source
  words : WordsLaidOut plan.staging.arenaSize plan.words

namespace KcClassicRebasePlan

variable {plan : KcClassicRebasePlan}

theorem length_rebasedImage (plan : KcClassicRebasePlan) :
    plan.rebasedImage.length = plan.staging.arenaSize := by
  rw [rebasedImage, length_applied, KcStaging.KcStagingPlan.length_linkedImage]

/-- The image has the byte of a word where one is, and that of the staging elsewhere. -/
theorem getElem?_rebasedImage (sound : plan.Sound) :
    ∀ i < plan.staging.arenaSize, plan.rebasedImage[i]? =
      some (byteOf (plan.words.map Word.piece ++
        plan.staging.segments.map (piece plan.source)) i) := by
  intro i inside
  have fits : ∀ p ∈ plan.words.map Word.piece, p.span.stop ≤ plan.staging.linkedImage.length := by
    rw [KcStaging.KcStagingPlan.length_linkedImage]
    exact sound.words.piece_fits
  obtain ⟨covered, clear⟩ := getElem?_applied (i := i) sound.words.apart fits
  by_cases hit : ∃ p ∈ plan.words.map Word.piece, i ∈ p.span.bytes
  · rw [byteOf_append_of_mem hit]
    exact covered hit
  · have outside : ∀ p ∈ plan.words.map Word.piece, i ∉ p.span.bytes :=
      fun p mem inside => hit ⟨p, mem, inside⟩
    rw [byteOf_append_of_not_mem outside, ← sound.fromSource,
      ← plan.staging.getElem?_linkedImage i inside]
    exact clear outside

end KcClassicRebasePlan

/-! ### Boundaries -/

/-- The segments that are kept at a cursor have the same bytes from there on. -/
theorem skipSegments_of {source : Bytes} {cursor size : Nat} {segments : List StagingSegment}
    (laid : LaidOut source size segments) (small : size < 2 ^ 64) :
    ∃ kept, skipSegments cursor segments = .ok kept ∧ LaidOut source size kept ∧
      (∀ s ∈ kept.head?, cursor < s.memory.stop) ∧
      ∀ i, cursor ≤ i →
        byteOf (kept.map (piece source)) i = byteOf (segments.map (piece source)) i := by
  induction segments with
  | nil =>
      refine ⟨[], rfl, laid, fun s none => ?_, fun _ _ => rfl⟩
      cases none
  | cons s rest ih =>
      have inside := laid.inside s List.mem_cons_self
      have fits := laid.fileFits s List.mem_cons_self
      simp only [StagingSegment.memory, Span.stop] at inside
      rw [skipSegments, add_of_lt (by omega), bind_ok]
      by_cases passed : cursor ≥ s.destinationOffset + s.memorySize
      · rw [if_pos passed]
        obtain ⟨kept, skipped, kept_laid, head, same⟩ := ih laid.tail
        refine ⟨kept, skipped, kept_laid, head, fun i after => ?_⟩
        rw [same i after, List.map_cons]
        refine (byteOf_cons_of_stop_le ?_ _).symm
        rw [span_piece (laid.inSource s List.mem_cons_self), Span.stop_mk]
        omega
      · rw [if_neg passed]
        refine ⟨s :: rest, rfl, laid, fun t head => ?_, fun _ _ => rfl⟩
        cases head
        exact Nat.lt_of_not_le passed

/-- The bytes at a cursor up to a boundary that lies ahead are zeros, or bytes of the source. -/
theorem expectation_of {source : Bytes} {cursor nextWord size : Nat}
    {segments : List StagingSegment}
    (laid : LaidOut source size segments) (word : source.length < 2 ^ 63) (short : size < 2 ^ 63)
    (head : ∀ s ∈ segments.head?, cursor < s.memory.stop) (ahead : cursor < nextWord)
    (reach : nextWord ≤ size) :
    ∃ stop sourceStart, expectation cursor nextWord segments = .ok (stop, sourceStart) ∧
      cursor < stop ∧ stop ≤ nextWord ∧
      ((sourceStart = none ∧
          ∀ i, cursor ≤ i → i < stop → byteOf (segments.map (piece source)) i = 0) ∨
        ∃ at', sourceStart = some at' ∧ at' + (stop - cursor) ≤ source.length ∧
          ∀ i, cursor ≤ i → i < stop →
            source[at' + (i - cursor)]? = some (byteOf (segments.map (piece source)) i)) := by
  cases segments with
  | nil => exact ⟨nextWord, none, rfl, ahead, Nat.le_refl _, .inl ⟨rfl, fun _ _ _ => rfl⟩⟩
  | cons s rest =>
      have inside := laid.inside s List.mem_cons_self
      have fits := laid.fileFits s List.mem_cons_self
      have inSource := laid.inSource s List.mem_cons_self
      have covers := head s rfl
      have span := span_piece inSource
      obtain ⟨before, _⟩ := List.pairwise_cons.mp laid.ascending
      simp only [StagingSegment.memory, Span.stop] at inside covers before
      -- Up to the end of its memory there is nothing but the first segment's file bytes.
      have zero {i : Nat} (out : i < s.destinationOffset ∨ s.destinationOffset + s.fileSize ≤ i)
          (below : i < s.destinationOffset + s.memorySize) :
          byteOf ((s :: rest).map (piece source)) i = 0 := by
        apply byteOf_of_not_mem
        intro p mem hit
        obtain ⟨t, t_mem, rfl⟩ := List.mem_map.mp mem
        rw [span_piece (laid.inSource t t_mem)] at hit
        obtain ⟨low, high⟩ := hit
        rw [Span.stop_mk] at high
        rcases List.mem_cons.mp t_mem with rfl | later
        · dsimp only at low
          omega
        · have apart := before t later
          dsimp only at low
          omega
      rw [expectation]
      by_cases hole : cursor < s.destinationOffset
      · rw [if_pos hole]
        refine ⟨_, none, rfl, by omega, by omega, .inl ⟨rfl, fun i after below => ?_⟩⟩
        exact zero (.inl (by omega)) (by omega)
      rw [if_neg hole, add_of_lt (by omega), bind_ok]
      by_cases file : cursor < s.destinationOffset + s.fileSize
      · rw [if_pos file, add_of_lt (by omega), bind_ok, sub_of_le (by omega), bind_ok]
        refine ⟨_, _, rfl, by omega, by omega, .inr ⟨_, rfl, by omega, fun i after below => ?_⟩⟩
        have covered : i ∈ (piece source s).span.bytes := by
          rw [span]
          simp only [Span.mem_bytes, Span.stop_mk]
          omega
        have value := getElem?_of_mem_span covered (rest.map (piece source))
        rw [List.map_cons, ← value, piece, getElem?_window, if_pos (by dsimp only; omega)]
        congr 1
        dsimp only
        omega
      · rw [if_neg file, add_of_lt (by omega), bind_ok]
        refine ⟨_, none, rfl, by omega, by omega, .inl ⟨rfl, fun i after below => ?_⟩⟩
        exact zero (.inr (by omega)) (by omega)

/-! ### Readback -/

section Rounds

variable [Target] {source bytes : Bytes}

/-- Both readbacks return, and compare the slice byte by byte on every target. -/
theorem readbacks_bytewise (start : Nat) (actual : Bytes) (expected : Option Bytes) :
    ∃ same, KcStaging.readback start actual expected = .ok same ∧
      readback start actual expected = .ok same ∧
      (same = true ↔ BytewiseEqual actual expected) := by
  have compared := readback_eq start actual expected
  refine ⟨_, compared, mapErr_eq_ok.mpr compared, ?_⟩
  rw [decide_eq_true_iff, eq_wantedBytes_iff]

theorem mustRead_decides {start stop : Nat} {expected : Option Bytes} (ordered : start ≤ stop)
    (fits : stop ≤ bytes.length)
    (sized : (wantedBytes expected (stop - start)).length = stop - start) :
    Decides (∀ i, start ≤ i → i < stop →
        bytes[i]? = (wantedBytes expected (stop - start))[i - start]?)
      .readbackMismatch (fun _ => True) (mustRead bytes start stop expected) := by
  have length : (window bytes start (stop - start)).length = stop - start :=
    length_window (by omega)
  refine .after_ok (index_of_le ordered fits) (.after_ok (mapErr_eq_ok.mpr (readback_eq ..)) ?_)
  rw [length]
  refine (decides_rejectIf _).congr ?_
  rw [decide_eq_false_iff_not, not_not]
  exact window_eq_iff ordered fits sized

/-! ### Rounds -/

/-- The byte that is wanted at a place that the cursors have not passed. -/
def Cursors.byteAhead (source : Bytes) (at' : Cursors) (i : Nat) : UInt8 :=
  byteOf (at'.words.map Word.piece ++ at'.segments.map (piece source)) i

/-- What is known of the cursors between rounds. -/
structure Cursors.Ok (source : Bytes) (size : Nat) (at' : Cursors) : Prop where
  segments : LaidOut source size at'.segments
  words : WordsLaidOut size at'.words
  ahead : ∀ w ∈ at'.words, at'.cursor ≤ w.offset
  reached : at'.cursor ≤ size

/-- A round from the cursors to the next ones tests the bytes between them. -/
structure Round (source bytes : Bytes) (at' next : Cursors) (x : Result Cursors) : Prop where
  ok : next.Ok source bytes.length
  forward : at'.cursor ≤ next.cursor
  rest : ∀ i, next.cursor ≤ i → next.byteAhead source i = at'.byteAhead source i
  tests : Decides (∀ i, at'.cursor ≤ i → i < next.cursor →
    bytes[i]? = some (at'.byteAhead source i)) .readbackMismatch (· = next) x

/-- A round at a word. -/
theorem wordRound_spec {at' : Cursors} {w : Word} {rest : List Word}
    (ok : at'.Ok source bytes.length) (words : at'.words = w :: rest)
    (here : w.offset = at'.cursor) (small : bytes.length < 2 ^ 64) :
    Round source bytes at' ⟨at'.cursor + w.width, at'.segments, rest⟩
      (wordRound bytes at' w rest) := by
  obtain ⟨laid, wordsLaid, ahead, reached⟩ := ok
  rw [words] at wordsLaid
  obtain ⟨_, wide⟩ := wordsLaid.wide w List.mem_cons_self
  have inside := wordsLaid.inside w List.mem_cons_self
  obtain ⟨before, _⟩ := List.pairwise_cons.mp wordsLaid.ascending
  have span := span_wordPiece wide
  have ahead_eq (i : Nat) : at'.byteAhead source i =
      byteOf (w.piece :: (rest.map Word.piece ++ at'.segments.map (piece source))) i := by
    rw [Cursors.byteAhead, words]
    rfl
  have taken : (wantedBytes (some (w.after.take w.width))
      (at'.cursor + w.width - at'.cursor)).length = at'.cursor + w.width - at'.cursor := by
    rw [KcStaging.wantedBytes_some, List.length_take]
    omega
  have fits : at'.cursor + w.width ≤ bytes.length := by omega
  refine ⟨⟨laid, wordsLaid.tail, ?_, fits⟩, Nat.le_add_right _ _, ?_, ?_⟩
  · intro v mem
    rw [← here]
    exact before v mem
  · intro i past
    rw [ahead_eq]
    refine (byteOf_cons_of_stop_le ?_ _).symm
    rw [span, here]
    exact past
  · refine .after_ok (add_of_lt (by omega)) (.after_ok (index_of_le (Nat.zero_le _) wide) ?_)
    have front : window w.after 0 (w.width - 0) = w.after.take w.width := by
      rw [window, List.drop_zero, Nat.sub_zero]
    rw [front]
    refine ((mustRead_decides (Nat.le_add_right _ _) fits taken).congr ?_).then_ok
      fun _ _ _ => ⟨_, rfl, rfl⟩
    refine forall_congr' fun i => forall_congr' fun after => forall_congr' fun below => ?_
    have covered : i ∈ w.piece.span.bytes := by
      rw [span, here]
      exact ⟨after, below⟩
    have value := getElem?_of_mem_span covered
      (rest.map Word.piece ++ at'.segments.map (piece source))
    rw [← ahead_eq, Word.piece, here] at value
    rw [← value]
    rfl

/-- A round between words. -/
theorem gapRound_spec {at' : Cursors} (ok : at'.Ok source bytes.length)
    (inside : at'.cursor < bytes.length) (between : ∀ w ∈ at'.words, at'.cursor < w.offset)
    (short : bytes.length < 2 ^ 63) (word : source.length < 2 ^ 63) :
    ∃ next, Round source bytes at' next (gapRound source bytes at') := by
  obtain ⟨laid, wordsLaid, ahead, reached⟩ := ok
  obtain ⟨kept, skipped, kept_laid, head, same⟩ :=
    @skipSegments_of source at'.cursor _ _ laid (Nat.lt_trans short (by decide))
  obtain ⟨nextWord, next_eq, next_ahead, next_reach, next_le⟩ : ∃ nextWord,
      at'.words.head?.elim bytes.length (·.offset) = nextWord ∧ at'.cursor < nextWord ∧
        nextWord ≤ bytes.length ∧ ∀ w ∈ at'.words, nextWord ≤ w.offset := by
    generalize at'.words = words at between wordsLaid
    cases words with
    | nil => exact ⟨_, rfl, inside, Nat.le_refl _, fun _ mem => by cases mem⟩
    | cons w rest =>
        have w_inside := wordsLaid.inside w List.mem_cons_self
        obtain ⟨before, _⟩ := List.pairwise_cons.mp wordsLaid.ascending
        refine ⟨_, rfl, between w List.mem_cons_self, ?_, List.forall_mem_cons.mpr ⟨?_, ?_⟩⟩
        · exact Nat.le_trans (Nat.le_add_right _ _) w_inside
        · exact Nat.le_refl _
        · intro v mem
          exact Nat.le_trans (Nat.le_add_right _ _) (before v mem)
  obtain ⟨stop, sourceStart, expected, forward, below_next, kind⟩ :=
    expectation_of kept_laid word short head next_ahead next_reach
  -- Before the next word, what lies ahead is what the segments have.
  have ahead_eq {i : Nat} (after : at'.cursor ≤ i) (below : i < stop) :
      at'.byteAhead source i = byteOf (kept.map (piece source)) i := by
    rw [Cursors.byteAhead, same i after]
    refine byteOf_append_of_not_mem (fun p mem hit => ?_) _
    obtain ⟨w, w_mem, rfl⟩ := List.mem_map.mp mem
    have past := next_le w w_mem
    have start : w.offset ≤ i := hit.1
    omega
  have fits : stop ≤ bytes.length := by omega
  refine ⟨⟨stop, kept, at'.words⟩, ⟨kept_laid, wordsLaid, ?_, fits⟩, forward.le, ?_, ?_⟩
  · intro w mem
    exact Nat.le_trans below_next (next_le w mem)
  · intro i past
    have after : at'.cursor ≤ i := Nat.le_trans forward.le past
    rw [Cursors.byteAhead, Cursors.byteAhead]
    by_cases hit : ∃ p ∈ at'.words.map Word.piece, i ∈ p.span.bytes
    · rw [byteOf_append_of_mem hit, byteOf_append_of_mem hit]
    · have outside : ∀ p ∈ at'.words.map Word.piece, i ∉ p.span.bytes :=
        fun p mem inside => hit ⟨p, mem, inside⟩
      rw [byteOf_append_of_not_mem outside, byteOf_append_of_not_mem outside]
      exact same i after
  · refine .after_ok skipped ?_
    dsimp only
    rw [next_eq]
    refine .after_ok expected (.after_ok (rejectIf_of_not _ (by dsimp only; omega)) ?_)
    rcases kind with ⟨rfl, zeros⟩ | ⟨from', rfl, room, shown⟩
    · refine .after_ok rfl (((mustRead_decides forward.le fits ?_).congr ?_).then_ok
        fun _ _ _ => ⟨_, rfl, rfl⟩)
      · exact List.length_replicate
      · refine forall_congr' fun i => forall_congr' fun after => forall_congr' fun below => ?_
        rw [KcStaging.wantedBytes_none, List.getElem?_replicate, if_pos (by omega),
          ahead_eq after below, zeros i after below]
    · have read : (expectedBytes source at'.cursor stop (some from') : Result (Option Bytes)) =
          .ok (some (window source from' (stop - at'.cursor))) := by
        have size_eq : from' + stop - at'.cursor - from' = stop - at'.cursor := by omega
        rw [expectedBytes, add_of_lt (by omega), bind_ok, sub_of_le (by omega), bind_ok,
          index_of_le (by omega) (by omega), bind_ok, pure_eq, size_eq]
      refine .after_ok read (((mustRead_decides forward.le fits ?_).congr ?_).then_ok
        fun _ _ _ => ⟨_, rfl, rfl⟩)
      · exact length_window room
      · refine forall_congr' fun i => forall_congr' fun after => forall_congr' fun below => ?_
        rw [KcStaging.wantedBytes_some, getElem?_window, if_pos (by omega), shown i after below,
          ahead_eq after below]

/-- Every round tests a range, and leaves the rest. -/
theorem verifyRound_spec {at' : Cursors} (ok : at'.Ok source bytes.length)
    (inside : at'.cursor < bytes.length) (short : bytes.length < 2 ^ 63)
    (word : source.length < 2 ^ 63) :
    ∃ next, Round source bytes at' next (verifyRound source bytes at') := by
  unfold verifyRound
  split
  · next w rest words =>
      have first := ok.ahead
      have laid := ok.words
      rw [words] at first laid
      split
      · next here => exact ⟨_, wordRound_spec ok words here (by omega)⟩
      · next elsewhere =>
          refine gapRound_spec ok inside ?_ short word
          rw [words]
          obtain ⟨before, _⟩ := List.pairwise_cons.mp laid.ascending
          have low := first w List.mem_cons_self
          refine List.forall_mem_cons.mpr ⟨by omega, fun v mem => ?_⟩
          have past := before v mem
          omega
  · next words =>
      refine gapRound_spec ok inside ?_ short word
      rw [words]
      exact fun _ mem => by cases mem

/-- The loop tests everything ahead of the cursors, and leaves no word behind. -/
theorem verifyFrom_decides {at' : Cursors} (ok : at'.Ok source bytes.length)
    (short : bytes.length < 2 ^ 63) (word : source.length < 2 ^ 63) :
    Decides (∀ i, at'.cursor ≤ i → i < bytes.length → bytes[i]? = some (at'.byteAhead source i))
      .readbackMismatch (· = []) (verifyFrom source bytes at') := by
  induction size : (bytes.length - at'.cursor) + at'.words.length using Nat.strongRecOn
    generalizing at' with
  | ind size ih =>
      subst size
      by_cases inside : at'.cursor < bytes.length
      · obtain ⟨next, round⟩ := verifyRound_spec ok inside short word
        have loop : verifyFrom source bytes at' =
            verifyRound source bytes at' >>= verifyFrom source bytes := by
          rw [verifyFrom, dif_pos inside]
          cases verifyRound source bytes at' <;> rfl
        have split : ((∀ i, at'.cursor ≤ i → i < next.cursor →
              bytes[i]? = some (at'.byteAhead source i)) ∧
            ∀ i, next.cursor ≤ i → i < bytes.length →
              bytes[i]? = some (next.byteAhead source i)) ↔
            ∀ i, at'.cursor ≤ i → i < bytes.length →
              bytes[i]? = some (at'.byteAhead source i) := by
          have reached := round.ok.reached
          constructor
          · rintro ⟨front, back⟩ i after below
            by_cases first : i < next.cursor
            · exact front i after first
            · rw [← round.rest i (Nat.le_of_not_lt first)]
              exact back i (Nat.le_of_not_lt first) below
          · intro agree
            refine ⟨fun i after below => agree i after (by omega), fun i after below => ?_⟩
            rw [round.rest i after]
            exact agree i (Nat.le_trans round.forward after) below
        rw [loop]
        by_cases front : ∀ i, at'.cursor ≤ i → i < next.cursor →
            bytes[i]? = some (at'.byteAhead source i)
        · obtain ⟨_, passed, rfl⟩ := round.tests.1 front
          have less := verifyRound_progress inside passed
          refine .congr split ⟨fun both => ?_, fun fails => ?_⟩
          · rw [passed, bind_ok]
            exact (ih _ less round.ok rfl).1 both.2
          · rw [passed, bind_ok]
            exact (ih _ less round.ok rfl).2 fun back => fails ⟨front, back⟩
        · refine .congr split ⟨fun both => absurd both.1 front, fun _ => ?_⟩
          rw [round.tests.2 front, bind_err]
      · have reached := ok.reached
        rw [verifyFrom, dif_neg inside]
        refine ⟨fun _ => ⟨_, rfl, ?_⟩, fun fails => absurd (fun i after below => ?_) fails⟩
        · -- A word takes room, and there is none left.
          refine List.eq_nil_iff_forall_not_mem.mpr fun w mem => ?_
          have wide := (ok.words.wide w mem).1
          have fits := ok.words.inside w mem
          have ahead := ok.ahead w mem
          omega
        · omega

end Rounds

/-- Verification tells the rebased image from every other arena of its size. -/
theorem KcClassicRebasePlan.verify_decides [Target] {plan : KcClassicRebasePlan}
    (sound : plan.Sound) (short : plan.staging.arenaSize < 2 ^ 63)
    (word : plan.source.length < 2 ^ 63) {bytes : Bytes}
    (length : bytes.length = plan.staging.arenaSize) :
    Decides (bytes = plan.rebasedImage) .readbackMismatch (· = plan.verification)
      (plan.verify bytes) := by
  have laid := sound.staging.laidOut
  rw [sound.fromSource, ← length] at laid
  have ok : Cursors.Ok plan.source bytes.length ⟨0, plan.staging.segments, plan.words⟩ :=
    ⟨laid, length ▸ sound.words, fun _ _ => Nat.zero_le _, Nat.zero_le _⟩
  refine .after_ok (rejectIf_of_not _ (not_not.mpr length)) ?_
  refine ((verifyFrom_decides ok (length ▸ short) word).congr ?_).then_ok fun _ left none => ?_
  · constructor
    · intro agree
      apply List.ext_getElem?
      intro i
      by_cases inside : i < plan.staging.arenaSize
      · rw [agree i (Nat.zero_le _) (length ▸ inside), getElem?_rebasedImage sound i inside]
        rfl
      · rw [List.getElem?_eq_none (by omega),
          List.getElem?_eq_none (by rw [length_rebasedImage]; omega)]
    · rintro rfl i _ inside
      rw [length] at inside
      exact getElem?_rebasedImage sound i inside
  · subst none
    exact ⟨_, rfl, rfl⟩

end Nextcore.ClassicRebase
