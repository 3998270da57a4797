import Nextcore.Handoff.Layout

/-!
What staging a handoff leaves, and what verification accepts.

The contents of a plan are the image of the staged collection, the boot arguments and the
device tree over zeros. Staging writes exactly them into any allocation of the right size
(`on_stageIntoObserved_of_length`). The verifier tests the collection with the collection's own
readback and the rest byte by byte (`verifyTail_decides`); together the two accept the
contents and nothing else (`handoff_staging_exact`).
-/

namespace Nextcore.Handoff

open Checked Checked.Outcome Checked.Exec
open KcStaging BootArgs

/-! ### Plans that can be staged -/

/-- What staging and verification rely on. -/
structure Arm64HandoffPlan.Stageable (plan : Arm64HandoffPlan) : Prop where
  sound : plan.staging.Sound
  front : plan.layout.kernelBytes = plan.staging.arenaSize
  args : plan.layout.bootArgsPhys = plan.layout.kernelPhys + plan.layout.kernelBytes
  argsSize : plan.bootArgs.bytes.length = arm64BootArgsSize
  tree : plan.layout.deviceTreePhys = plan.layout.bootArgsPhys + vmapplePageSize
  inside : plan.layout.deviceTreePhys + plan.deviceTree.length ≤
    plan.layout.kernelPhys + plan.layout.allocationBytes
  word : plan.layout.allocationBytes < 2 ^ 64

theorem Made.stageable [UnstableSort] {source : Bytes} {input : Arm64PlacementInput}
    {plan : Arm64HandoffPlan} (made : Made source input plan) : plan.Stageable := by
  obtain ⟨geometry, _, built⟩ := made.built
  obtain ⟨staging, staged, ok, rfl⟩ := build_eq_ok.mp built
  obtain ⟨_, first, last, planned⟩ := @planned_of_ok _ .arm64 _ _ staged
  have rounded := le_pageUp (treePhysOf input staging + input.deviceTree.length)
  have tree_eq :
    treePhysOf input staging = input.kernelPhys + staging.arenaSize + vmapplePageSize :=
    rfl
  have top_eq : stackTopOf input staging =
    pageUp (treePhysOf input staging + input.deviceTree.length) + armBootStackBytes := rfl
  have stop := ok.fits.stop
  refine ⟨planned.sound, rfl, rfl, length_encodingOf _, rfl, ?_, ?_⟩
  · change treePhysOf input staging + input.deviceTree.length ≤ input.kernelPhys +
      (stackTopOf input staging + reservedOf geometry - input.kernelPhys)
    omega
  · change stackTopOf input staging + reservedOf geometry - input.kernelPhys < 2 ^ 64
    omega

namespace Arm64HandoffPlan

variable {plan : Arm64HandoffPlan}

/-- Where the boot arguments lie in the allocation. -/
def argsAt (plan : Arm64HandoffPlan) : Nat := plan.layout.bootArgsPhys - plan.layout.kernelPhys

/-- Where the device tree lies in the allocation. -/
def treeAt (plan : Arm64HandoffPlan) : Nat := plan.layout.deviceTreePhys - plan.layout.kernelPhys

/-- What is written behind the collection. -/
def tailPieces (plan : Arm64HandoffPlan) : List Piece :=
  [⟨plan.argsAt, plan.bootArgs.bytes⟩, ⟨plan.treeAt, plan.deviceTree⟩]

/-- The collection at the front, and what is written behind it. -/
def pieces (plan : Arm64HandoffPlan) : List Piece :=
  ⟨0, plan.staging.linkedImage⟩ :: plan.tailPieces

/-- The allocation that the plan describes. -/
def contents (plan : Arm64HandoffPlan) : Bytes := image plan.layout.allocationBytes plan.pieces

/-- The offsets of the pieces, as a chain of distances. -/
theorem Stageable.offsets (ok : plan.Stageable) :
    plan.argsAt = plan.staging.arenaSize ∧ plan.treeAt = plan.staging.arenaSize + vmapplePageSize ∧
      plan.treeAt + plan.deviceTree.length ≤ plan.layout.allocationBytes := by
  have front := ok.front
  have args := ok.args
  have tree := ok.tree
  have inside := ok.inside
  simp only [argsAt, treeAt]
  omega

theorem Stageable.argsOffset_eq (ok : plan.Stageable) : plan.argsOffset = .ok plan.argsAt :=
  sub_of_le (by rw [ok.args]; omega)

theorem Stageable.treeOffset_eq (ok : plan.Stageable) : plan.treeOffset = .ok plan.treeAt :=
  sub_of_le (by rw [ok.tree, ok.args]; omega)

/-- The pieces lie one behind the other. -/
theorem Stageable.apart (ok : plan.Stageable) :
    plan.pieces.Pairwise fun p q => p.span.Apart q.span := by
  obtain ⟨args, tree, _⟩ := ok.offsets
  have argsSize := ok.argsSize
  have page : arm64BootArgsSize ≤ vmapplePageSize := by decide
  simp only [pieces, tailPieces, List.pairwise_cons, List.forall_mem_cons, List.not_mem_nil,
    false_implies, implies_true, List.Pairwise.nil, and_true, Piece.span, Span.Apart, Span.stop,
    KcStagingPlan.length_linkedImage]
  omega

theorem Stageable.fits (ok : plan.Stageable) :
    ∀ p ∈ plan.pieces, p.span.stop ≤ plan.layout.allocationBytes := by
  obtain ⟨args, tree, inside⟩ := ok.offsets
  have argsSize := ok.argsSize
  have page : arm64BootArgsSize ≤ vmapplePageSize := by decide
  simp only [pieces, tailPieces, List.forall_mem_cons, List.not_mem_nil, false_implies,
    implies_true, and_true, Piece.span, Span.stop, KcStagingPlan.length_linkedImage]
  omega

/-- Behind the collection, only the arguments and the tree count. -/
theorem Stageable.byteOf_tail (ok : plan.Stageable) {i : Nat}
    (behind : plan.layout.kernelBytes ≤ i) : byteOf plan.pieces i = byteOf plan.tailPieces i := by
  refine byteOf_cons_of_stop_le ?_ _
  rw [Piece.span, Span.stop_mk, KcStagingPlan.length_linkedImage, ← ok.front, Nat.zero_add]
  exact behind

/-! ### The tail -/

/-- The verifier expects the bytes of the pieces. -/
theorem expectedByte_eq (plan : Arm64HandoffPlan) (offset : Nat) :
    plan.expectedByte plan.argsAt plan.treeAt offset = .ok (byteOf plan.tailPieces offset) := by
  have within (start : Nat) (bytes : Bytes) : offset ∈ (Piece.mk start bytes).span.bytes ↔
      start ≤ offset ∧ offset - start < bytes.length := by
    simp only [Piece.span, Span.mem_bytes, Span.stop]
    omega
  rw [expectedByte, tailPieces]
  split
  next inArgs =>
    have shown := getElem?_of_mem_span ((within _ _).mpr inArgs) [⟨plan.treeAt, plan.deviceTree⟩]
    rw [byteAt, shown, expect_some]
  next outArgs =>
    rw [byteOf_cons_of_not_mem (mt (within _ _).mp outArgs)]
    split
    next inTree =>
      have shown := getElem?_of_mem_span ((within _ _).mpr inTree) []
      rw [byteAt, shown, expect_some]
    next outTree =>
      rw [byteOf_cons_of_not_mem (mt (within _ _).mp outTree)]
      rfl

/-- The loop over the tail tests every byte of it. -/
theorem tailMatches_decides (tail : Bytes) (offset : Nat) :
    Decides (∀ k < tail.length, tail[k]? = some (byteOf plan.tailPieces (offset + k)))
      .readbackMismatch (fun _ => True)
      (plan.tailMatches plan.argsAt plan.treeAt tail offset) := by
  induction tail generalizing offset with
  | nil => exact ⟨fun _ => ⟨(), rfl, trivial⟩, fun wrong => absurd (by simp) wrong⟩
  | cons byte rest ih =>
      rw [tailMatches, expectedByte_eq, bind_ok]
      refine ((decides_rejectIf _).bind fun _ _ _ => ih (offset + 1)).congr ?_
      rw [not_not]
      constructor
      · rintro ⟨same, others⟩ k below
        cases k with
        | zero => exact congrArg some same
        | succ k =>
            rw [List.getElem?_cons_succ, others k (Nat.lt_of_succ_lt_succ below), Nat.add_assoc,
              Nat.add_comm 1 k]
      · intro all
        refine ⟨Option.some.inj (all 0 (Nat.zero_lt_succ _)), fun k below => ?_⟩
        have shown := all (k + 1) (Nat.succ_lt_succ below)
        rwa [List.getElem?_cons_succ, Nat.add_comm k 1, ← Nat.add_assoc] at shown

/-- The check of the tail tests every byte behind the collection. -/
theorem verifyTail_decides (ok : plan.Stageable) (destination : Bytes) :
    Decides (∀ i < destination.length, plan.layout.kernelBytes ≤ i →
        destination[i]? = some (byteOf plan.tailPieces i))
      .readbackMismatch (fun _ => True) (plan.verifyTail destination) := by
  rw [verifyTail, ok.argsOffset_eq, bind_ok, ok.treeOffset_eq, bind_ok]
  refine (tailMatches_decides _ _).congr ?_
  simp only [List.length_drop, List.getElem?_drop]
  constructor
  · intro all i below behind
    have shown := all (i - plan.layout.kernelBytes) (by omega)
    rwa [Nat.add_sub_cancel' behind] at shown
  · intro all k below
    exact all _ (by omega) (Nat.le_add_right _ _)

/-! ### Staging -/

/-- The copies write the pieces of the tail. -/
theorem copyTail_eq (ok : plan.Stageable) {s : Allocation}
    (length : s.destination.length = plan.layout.allocationBytes) :
    plan.copyTail s = .ok { s with destination := applied plan.tailPieces s.destination } := by
  obtain ⟨argsAt, treeAt, inside⟩ := ok.offsets
  have word := ok.word
  have argsSize := ok.argsSize
  have page : arm64BootArgsSize ≤ vmapplePageSize := by decide
  rw [copyTail, ok.argsOffset_eq, bind_ok, ok.treeOffset_eq, bind_ok, add_of_lt (by omega), bind_ok,
    copyFrom_of_le (by omega), bind_ok, add_of_lt (by omega), bind_ok,
    copyFrom_of_le (by rw [length_overlay]; omega)]
  rfl

/-- The contents are what the two halves of the verifier look for. -/
theorem eq_contents_iff (ok : plan.Stageable) {destination : Bytes}
    (length : destination.length = plan.layout.allocationBytes) :
    destination = plan.contents ↔
      window destination 0 plan.layout.kernelBytes = plan.staging.linkedImage ∧
        ∀ i < destination.length, plan.layout.kernelBytes ≤ i →
          destination[i]? = some (byteOf plan.tailPieces i) := by
  constructor
  · rintro rfl
    have front := window_image (p := ⟨0, plan.staging.linkedImage⟩) ok.apart List.mem_cons_self
      (ok.fits _ List.mem_cons_self)
    rw [KcStagingPlan.length_linkedImage, ← ok.front] at front
    refine ⟨front, fun i below behind => ?_⟩
    rw [length] at below
    rw [contents, getElem?_image below, ok.byteOf_tail behind]
  · rintro ⟨front, tail⟩
    refine (eq_image_iff length).mpr fun i below => ?_
    by_cases behind : plan.layout.kernelBytes ≤ i
    · rw [ok.byteOf_tail behind]
      exact tail i (by omega) behind
    · have inFront : i ∈ (Piece.mk 0 plan.staging.linkedImage).span.bytes := by
        simp only [Piece.span, Span.mem_bytes, Span.stop_mk, KcStagingPlan.length_linkedImage,
          ← ok.front]
        omega
      have shown := getElem?_of_mem_span inFront plan.tailPieces
      rw [pieces, ← shown, ← front, Nat.sub_zero, getElem?_window,
        if_pos (Nat.lt_of_not_le behind), Nat.zero_add]

section Staging

variable [Target] {destination : Bytes}

/-- The phases that staging reports, in order. -/
def stagingPhases : List Arm64HandoffPhase :=
  [.destinationInitialized, .collectionInitialized, .collectionSegmentsCopied,
    .collectionArenaVerified, .collectionMemberViewsVerified, .collectionVerified, .tailVerified]

/-- The collection is staged to the front of any allocation. -/
theorem on_stageCollection (ok : plan.Stageable) {s : Allocation}
    (length : s.destination.length = plan.layout.allocationBytes) :
    ∃ verification, plan.stageCollection.on s =
      (.ok verification, ⟨overlay s.destination 0 plan.staging.linkedImage,
        s.phases ++ [.collectionInitialized, .collectionSegmentsCopied, .collectionArenaVerified,
          .collectionMemberViewsVerified]⟩) := by
  obtain ⟨_, _, inside⟩ := ok.offsets
  have front := ok.front
  have room : 0 + plan.layout.kernelBytes ≤ s.destination.length := by omega
  have sized : (window s.destination 0 plan.layout.kernelBytes).length = plan.staging.arenaSize :=
    (length_window room).trans front
  obtain ⟨verification, staged⟩ := KcStagingPlan.on_stageIntoObserved ok.sound sized []
  have indexed : (index s.destination 0 plan.layout.kernelBytes : Result Bytes) =
      .ok (window s.destination 0 plan.layout.kernelBytes) :=
    index_of_le (Nat.zero_le _) (by omega)
  refine ⟨verification, ?_⟩
  simp only [stageCollection, on_bind, on_look, on_write, indexed, staged]
  rfl

/-- Staging into any allocation of the right size leaves the contents of the plan. -/
theorem on_stageIntoObserved (ok : plan.Stageable)
    (length : destination.length = plan.layout.allocationBytes) (phases : List Arm64HandoffPhase) :
    ∃ verification, plan.stageIntoObserved.on ⟨destination, phases⟩ =
      (.ok verification, ⟨plan.contents, phases ++ stagingPhases⟩) := by
  have sized : rejectIf (destination.length ≠ plan.layout.allocationBytes)
      Arm64HandoffError.destinationSize = .ok () := rejectIf_of_not _ (not_not.mpr length)
  obtain ⟨verification, staged⟩ := @on_stageCollection plan _ ok
    ⟨List.replicate destination.length 0, phases ++ [.destinationInitialized]⟩
    (by rw [List.length_replicate, length])
  have copied := @copyTail_eq plan ok
    ⟨overlay (List.replicate destination.length 0) 0 plan.staging.linkedImage,
      phases ++ [.destinationInitialized] ++ [.collectionInitialized, .collectionSegmentsCopied,
        .collectionArenaVerified, .collectionMemberViewsVerified] ++ [.collectionVerified]⟩
    (by rw [length_overlay, List.length_replicate, length])
  have written : applied plan.tailPieces
      (overlay (List.replicate destination.length 0) 0 plan.staging.linkedImage) =
        plan.contents := by
    rw [contents, eq_image_iff (by rw [length_applied, length_overlay, List.length_replicate,
      length]), length]
    exact applied_zeros ok.apart ok.fits
  rw [written] at copied
  obtain ⟨_, verified, _⟩ := (verifyTail_decides ok plan.contents).1 fun i below behind => by
    rw [contents, getElem?_image (by simpa [contents] using below), ok.byteOf_tail behind]
  refine ⟨verification, ?_⟩
  simp only [stageIntoObserved, observe, on_bind, on_look, on_write, sized, staged,
    on_update_of_ok copied, verified, on_pure]
  simp only [stagingPhases, List.append_assoc, List.cons_append, List.nil_append]

/-- An allocation of another size is left as it was. -/
theorem on_stageIntoObserved_of_length_ne
    (length : destination.length ≠ plan.layout.allocationBytes) (phases : List Arm64HandoffPhase) :
    plan.stageIntoObserved.on ⟨destination, phases⟩ =
      (.err .destinationSize, ⟨destination, phases⟩) := by
  have rejected : rejectIf (destination.length ≠ plan.layout.allocationBytes)
      Arm64HandoffError.destinationSize = .err .destinationSize := rejectIf_of _ length
  simp only [stageIntoObserved, on_bind, on_look, rejected]

/-- The collection, the arguments and the tree at their places, and zeros elsewhere. -/
structure HandoffImage (plan : Arm64HandoffPlan) (bytes : Bytes) : Prop where
  length : bytes.length = plan.layout.allocationBytes
  collection : ∀ prior : Bytes, prior.length = plan.staging.arenaSize → ∃ verification,
    plan.staging.stageInto prior = (.ok verification, window bytes 0 plan.layout.kernelBytes)
  args : window bytes (plan.layout.bootArgsPhys - plan.layout.kernelPhys) arm64BootArgsSize =
    plan.bootArgs.bytes
  tree : window bytes (plan.layout.deviceTreePhys - plan.layout.kernelPhys)
    plan.deviceTree.length = plan.deviceTree
  zero : ∀ i < plan.layout.allocationBytes, plan.layout.kernelBytes ≤ i →
    i ∉ (Span.mk plan.argsAt arm64BootArgsSize).bytes →
      i ∉ (Span.mk plan.treeAt plan.deviceTree.length).bytes → bytes[i]? = some 0

/-- The contents are what the description of a handoff describes. -/
theorem handoffImage_contents (ok : plan.Stageable) : plan.HandoffImage plan.contents := by
  have shown {p : Piece} (mem : p ∈ plan.pieces) :
      window plan.contents p.start p.bytes.length = p.bytes :=
    window_image ok.apart mem (ok.fits p mem)
  refine ⟨length_image .., ?_, ?_, ?_, ?_⟩
  · intro prior length
    obtain ⟨verification, staged⟩ := KcStagingPlan.stageInto_eq ok.sound length
    have front := shown (p := ⟨0, plan.staging.linkedImage⟩) List.mem_cons_self
    rw [KcStagingPlan.length_linkedImage, ← ok.front] at front
    exact ⟨verification, by rw [front, staged]⟩
  · have args := shown (p := ⟨plan.argsAt, plan.bootArgs.bytes⟩) (by simp [pieces, tailPieces])
    rwa [ok.argsSize] at args
  · exact shown (p := ⟨plan.treeAt, plan.deviceTree⟩) (by simp [pieces, tailPieces])
  · intro i below behind outArgs outTree
    rw [← ok.argsSize] at outArgs
    rw [contents, getElem?_image below, ok.byteOf_tail behind, tailPieces]
    refine congrArg some ((byteOf_cons_of_not_mem outArgs _).trans ?_)
    exact byteOf_cons_of_not_mem outTree []

/-- Nothing else is. -/
theorem HandoffImage.eq_contents (ok : plan.Stageable) {bytes : Bytes}
    (holds : plan.HandoffImage bytes) : bytes = plan.contents := by
  have same := handoffImage_contents ok
  have windows {start size i : Nat} (inside : i ∈ (Span.mk start size).bytes)
      (agree : window bytes start size = window plan.contents start size) :
      bytes[i]? = plan.contents[i]? := by
    simp only [Span.mem_bytes, Span.stop_mk] at inside
    have shown := window_eq_window.mp agree (i - start) (by omega)
    rwa [Nat.add_sub_cancel' inside.1] at shown
  apply List.ext_getElem?
  intro i
  by_cases below : i < plan.layout.allocationBytes
  · by_cases inFront : i ∈ (Span.mk 0 plan.layout.kernelBytes).bytes
    · obtain ⟨_, staged⟩ := holds.collection _ (plan.staging.length_linkedImage)
      obtain ⟨_, staged'⟩ := same.collection _ (plan.staging.length_linkedImage)
      exact windows inFront ((Prod.ext_iff.mp staged).2.symm.trans (Prod.ext_iff.mp staged').2)
    by_cases inArgs : i ∈ (Span.mk plan.argsAt arm64BootArgsSize).bytes
    · exact windows inArgs (holds.args.trans same.args.symm)
    by_cases inTree : i ∈ (Span.mk plan.treeAt plan.deviceTree.length).bytes
    · exact windows inTree (holds.tree.trans same.tree.symm)
    · have behind : plan.layout.kernelBytes ≤ i := by
        simp only [Span.mem_bytes, Span.stop_mk] at inFront
        omega
      rw [holds.zero i below behind inArgs inTree, same.zero i below behind inArgs inTree]
  · have out := Nat.le_of_not_lt below
    rw [List.getElem?_eq_none (by rw [holds.length]; exact out),
      List.getElem?_eq_none (by rw [same.length]; exact out)]

theorem handoffImage_iff (ok : plan.Stageable) {bytes : Bytes} :
    plan.HandoffImage bytes ↔ bytes = plan.contents := by
  constructor
  · exact HandoffImage.eq_contents ok
  · rintro rfl
    exact handoffImage_contents ok

/-! ### Verification -/

/-- The verifier accepts the contents, and reports a mismatch in anything else. -/
theorem verify_of_length (ok : plan.Stageable)
    (length : destination.length = plan.layout.allocationBytes) :
    (destination = plan.contents → plan.verify destination = .ok ()) ∧
      (destination ≠ plan.contents →
        plan.verify destination = .err (.staging .readbackMismatch) ∨
          plan.verify destination = .err .readbackMismatch) := by
  obtain ⟨_, _, inside⟩ := ok.offsets
  have front := ok.front
  have room : 0 + plan.layout.kernelBytes ≤ destination.length := by omega
  have indexed : (index destination 0 plan.layout.kernelBytes : Result Bytes) =
      .ok (window destination 0 plan.layout.kernelBytes) :=
    index_of_le (Nat.zero_le _) (by omega)
  have collection := KcStagingPlan.verify_decides ok.sound ((length_window room).trans front)
  have tail := verifyTail_decides ok destination
  rw [verify, rejectIf_of_not _ (not_not.mpr length), bind_ok, indexed, bind_ok, Ne,
    eq_contents_iff ok length, not_and_or]
  constructor
  · rintro ⟨same, tailSame⟩
    obtain ⟨_, checked, _⟩ := collection.1 same
    obtain ⟨_, verified, _⟩ := tail.1 tailSame
    rw [checked, mapErr, bind_ok, verified]
  · rintro differ
    by_cases same : window destination 0 plan.layout.kernelBytes = plan.staging.linkedImage
    · obtain ⟨_, checked, _⟩ := collection.1 same
      have failed := tail.2 (differ.resolve_left (not_not.mpr same))
      exact .inr (by rw [checked, mapErr, bind_ok, failed])
    · exact .inl (by rw [collection.2 same, mapErr, bind_err])

/-- An allocation of another size is no handoff. -/
theorem verify_of_length_ne (length : destination.length ≠ plan.layout.allocationBytes) :
    plan.verify destination = .err .destinationSize := by
  rw [verify, rejectIf_of _ length, bind_err]

end Staging

end Arm64HandoffPlan

/-- Staging a plan leaves exactly its image, whatever was there; the verifier accepts exactly
this image; and an allocation of another size is refused and left as it was. -/
theorem handoff_staging_exact [UnstableSort] [Target] {source : Bytes}
    {input : Arm64PlacementInput} {plan : Arm64HandoffPlan} (made : Made source input plan) :
    plan.deviceTree = input.deviceTree ∧ plan.bootArgs.bytes.length = arm64BootArgsSize ∧
      (∀ a b, plan.HandoffImage a → plan.HandoffImage b → a = b) ∧
      (∀ destination : Bytes, destination.length = plan.layout.allocationBytes →
        (∃ verification, (plan.stageInto destination).1 = .ok verification) ∧
          plan.HandoffImage (plan.stageInto destination).2 ∧
          (plan.verify destination = .ok () ↔ plan.HandoffImage destination) ∧
          (¬ plan.HandoffImage destination →
            plan.verify destination = .err (.staging .readbackMismatch) ∨
              plan.verify destination = .err .readbackMismatch)) ∧
      ∀ (destination : Bytes) (phases : List Arm64HandoffPhase),
        destination.length ≠ plan.layout.allocationBytes →
          plan.stageInto destination = (.err .destinationSize, destination) ∧
            plan.stageIntoObserved.on ⟨destination, phases⟩ =
              (.err .destinationSize, ⟨destination, phases⟩) ∧
            plan.verify destination = .err .destinationSize := by
  have ok := made.stageable
  have holds (bytes : Bytes) : plan.HandoffImage bytes ↔ bytes = plan.contents :=
    Arm64HandoffPlan.handoffImage_iff ok
  refine ⟨?_, ok.argsSize, ?_, ?_, ?_⟩
  · obtain ⟨geometry, _, built⟩ := made.built
    obtain ⟨staging, _, _, rfl⟩ := build_eq_ok.mp built
    rfl
  · intro a b first second
    rw [(holds a).mp first, (holds b).mp second]
  · intro destination length
    obtain ⟨verification, staged⟩ := plan.on_stageIntoObserved ok length []
    obtain ⟨accepts, refuses⟩ := plan.verify_of_length ok length
    rw [Arm64HandoffPlan.stageInto, staged, holds, holds]
    refine ⟨⟨verification, rfl⟩, rfl, ⟨fun passed => ?_, accepts⟩, refuses⟩
    by_contra differ
    rcases refuses differ with failed | failed <;> rw [failed] at passed <;> cases passed
  · intro destination phases length
    have refused := plan.on_stageIntoObserved_of_length_ne length
    refine ⟨?_, refused phases, plan.verify_of_length_ne length⟩
    rw [Arm64HandoffPlan.stageInto, refused]

theorem handoff_staging_exact_sample :
    ∃ plan, @Made UnstableSort.insertion sampleArm sampleInput plan ∧
      ∃ verification, (@Arm64HandoffPlan.stageInto Target.aligned plan
        (List.replicate plan.layout.allocationBytes 165)).1 = .ok verification := by
  obtain ⟨plan, made, _⟩ := exists_samplePlan
  obtain ⟨_, _, _, staged, _⟩ :=
    @handoff_staging_exact UnstableSort.insertion Target.aligned _ _ _ (.inr ⟨_, made⟩)
  exact ⟨plan, .inr ⟨_, made⟩, (staged _ List.length_replicate).1⟩

end Nextcore.Handoff
