import Nextcore.BootArgs.Accepted
import Nextcore.FlatDt.Grammar
import Nextcore.Handoff.Plan
import Nextcore.KcStaging.Staged

/-!
The layout of a handoff.

The constructors of a plan compute one layout and check it (`build_eq_ok`). What they accept
lies in order and apart, in the RAM of the input, in the memory of the device tree and on the
linear map (`handoff_arranged`).
-/

namespace Nextcore.Handoff

open Checked Checked.Outcome
open KcStaging BootArgs KernelCollection

/-! ### What the constructors compute -/

/-- The page-rounded end of a range. -/
def pageUp (value : Nat) : Nat := roundUp vmapplePageSize value

theorem alignUp_yields (value : Nat) :
    Yields (value + (vmapplePageSize - 1) < 2 ^ 64) (fun aligned => aligned = pageUp value)
      (alignUp value) := by
  refine Yields.congr (p := _ ∧ True) (iff_of_eq (and_true _))
    ((yields_checkedAdd _ _ _).bind_eq fun _ => yields_ok ?_)
  exact andNot_eq (p := vmapplePageSize) ⟨14, rfl⟩ _

section Computed

variable (input : Arm64PlacementInput) (staging : KcStagingPlan)
  (geometry : Option Arm64FramebufferGeometry)

/-- Where the device tree lies. -/
def treePhysOf : Nat := input.kernelPhys + staging.arenaSize + vmapplePageSize

/-- Where the stack ends. -/
def stackTopOf : Nat :=
  pageUp (treePhysOf input staging + input.deviceTree.length) + armBootStackBytes

/-- The framebuffer for a geometry. -/
def framebufferOf (stackTop : Nat) (geometry : Arm64FramebufferGeometry) :
    Arm64FramebufferLayout :=
  ⟨stackTop, geometry.rowBytes * geometry.height, pageUp (geometry.rowBytes * geometry.height),
    geometry⟩

/-- The bytes reserved behind the stack. -/
def reservedOf : Nat :=
  (geometry.map fun g => pageUp (g.rowBytes * g.height)).getD 0

/-- The video words. -/
def videoOf : Arm64BootVideo :=
  match geometry with
  | none => input.video
  | some g => ⟨stackTopOf input staging, 1, g.rowBytes, g.width, g.height, 32⟩

/-- The layout of a plan. -/
def layoutOf : Arm64HandoffLayout where
  kernelPhys := input.kernelPhys
  kernelBytes := staging.arenaSize
  collectionHeaderPhys := input.kernelPhys + staging.collectionHeaderOffset
  entryPhys := input.kernelPhys + staging.outerEntryOffset
  bootArgsPhys := input.kernelPhys + staging.arenaSize
  deviceTreePhys := treePhysOf input staging
  stackTopPhys := stackTopOf input staging
  occupiedEnd := stackTopOf input staging + reservedOf geometry
  allocationBytes := stackTopOf input staging + reservedOf geometry - input.kernelPhys

/-- The input of the encoder for a plan. -/
def argsInputOf : Arm64BootArgsInput :=
  bootArgsInput input (layoutOf input staging geometry) (videoOf input staging geometry)

/-- The plan that the constructors return. -/
def planOf : Arm64HandoffPlan where
  staging := staging
  layout := layoutOf input staging geometry
  bootArgs := encodingOf (argsInputOf input staging geometry)
  deviceTree := input.deviceTree
  framebuffer := geometry.map (framebufferOf (stackTopOf input staging))

/-- No addition of the layout leaves its word, and the allocation is one that can be made. -/
structure Fits : Prop where
  tree : treePhysOf input staging + input.deviceTree.length + (vmapplePageSize - 1) < 2 ^ 64
  stack : stackTopOf input staging < 2 ^ 64
  pixels : ∀ g ∈ geometry, g.rowBytes * g.height + (vmapplePageSize - 1) < 2 ^ 64
  stop : stackTopOf input staging + reservedOf geometry < 2 ^ 64
  allocation : stackTopOf input staging + reservedOf geometry - input.kernelPhys ≤ 2 ^ 63 - 1
  header : input.kernelPhys + staging.collectionHeaderOffset < 2 ^ 64
  entry : input.kernelPhys + staging.outerEntryOffset < 2 ^ 64

/-- The placement agrees with the linked addresses of the collection. -/
structure Corresponds : Prop where
  kernelPage : input.kernelPhys % vmapplePageSize = 0
  kernelAbove : input.physicalBase ≤ input.kernelPhys
  word : input.virtualBase + (input.kernelPhys - input.physicalBase) < 2 ^ 64
  linked : input.virtualBase + (input.kernelPhys - input.physicalBase) =
    staging.minimumVirtualAddress
  block : input.virtualBase % armBootstrapBlockBytes = input.physicalBase % armBootstrapBlockBytes

/-- What the constructors ask of a staged collection. -/
structure BuildOk : Prop where
  someTree : input.deviceTree ≠ []
  smallTree : input.deviceTree.length ≤ maxDeviceTreeBytes
  corresponds : Corresponds input staging
  fits : Fits input staging geometry
  args : ArgsOk (argsInputOf input staging geometry)

end Computed

section Yields

variable {input : Arm64PlacementInput} {staging : KcStagingPlan}
  {geometry : Option Arm64FramebufferGeometry}

theorem checkPlacement_yields (input : Arm64PlacementInput) (staging : KcStagingPlan) :
    Yields (Corresponds input staging) (fun _ => True) (checkPlacement input staging) := by
  constructor
  · intro ok
    refine ⟨(), ?_, trivial⟩
    simp only [checkPlacement]
    rw [rejectIf_of_not _ (not_or.mpr ⟨not_not.mpr ok.kernelPage, Nat.not_lt.mpr ok.kernelAbove⟩),
      bind_ok, checkedSub_eq_some.mpr ⟨ok.kernelAbove, rfl⟩, ofOption_some, bind_ok, addAddress,
      checkedAdd_of_lt ok.word, ofOption_some, bind_ok]
    exact rejectIf_of_not _ (not_or.mpr ⟨not_not.mpr ok.linked, not_not.mpr ok.block⟩)
  · intro u passed
    simp only [checkPlacement, addAddress, bind_eq_ok, rejectIf_eq_ok, ofOption_eq_ok,
      checkedSub_eq_some, checkedAdd_eq_some, not_or, not_not, Nat.not_lt] at passed
    obtain ⟨_, ⟨kernelPage, kernelAbove⟩, _, ⟨_, rfl⟩, _, ⟨word, rfl⟩, linked, block⟩ := passed
    exact ⟨kernelPage, kernelAbove, word, linked, block⟩

/-- The framebuffer behind the stack. -/
theorem optionalFramebuffer_yields (stackTop : Nat) (geometry : Option Arm64FramebufferGeometry) :
    Yields (∀ g ∈ geometry, g.rowBytes * g.height + (vmapplePageSize - 1) < 2 ^ 64)
      (fun framebuffer => framebuffer = geometry.map (framebufferOf stackTop))
      (optionalFramebuffer stackTop geometry) := by
  cases geometry with
  | none => exact Yields.congr (p := True) (by simp) (yields_ok rfl)
  | some g =>
      simp only [optionalFramebuffer, framebufferLayout, bind_assoc]
      refine Yields.congr ?_ ((yields_checkedMul _ _ _).bind_eq fun _ =>
        (alignUp_yields _).bind_eq (q := True) fun _ => yields_ok rfl)
      simp only [Option.mem_some_iff, forall_eq', and_true]
      exact and_iff_right_of_imp fun fits => by omega

/-- The end of what is occupied, with the video words. -/
theorem occupiedEnd_yields (input : Arm64PlacementInput) (staging : KcStagingPlan)
    (geometry : Option Arm64FramebufferGeometry) (stack : stackTopOf input staging < 2 ^ 64) :
    Yields (stackTopOf input staging + reservedOf geometry < 2 ^ 64)
      (fun out => out = (videoOf input staging geometry,
        stackTopOf input staging + reservedOf geometry))
      (occupiedEnd (stackTopOf input staging) input.video
        (geometry.map (framebufferOf (stackTopOf input staging)))) := by
  cases geometry with
  | none =>
      refine Yields.congr (p := True) ?_ (yields_ok ?_)
      · simpa [reservedOf] using stack
      · simp [videoOf, reservedOf]
  | some g =>
      exact Yields.congr (p := _ ∧ True) (iff_of_eq (and_true _))
        ((yields_checkedAdd _ _ _).bind_eq fun _ => yields_ok rfl)

/-- The layout is computed exactly when it fits. -/
theorem placeAll_yields (input : Arm64PlacementInput) (staging : KcStagingPlan)
    (geometry : Option Arm64FramebufferGeometry) :
    Yields (Fits input staging geometry)
      (fun out => out = (layoutOf input staging geometry,
        geometry.map (framebufferOf (stackTopOf input staging)), videoOf input staging geometry))
      (placeAll input staging geometry) := by
  refine Yields.congr ?_ ((yields_checkedAdd _ _ _).bind_eq fun _ =>
    (yields_checkedAdd _ _ _).bind_eq fun _ => (yields_checkedAdd _ _ _).bind_eq fun _ =>
    (alignUp_yields _).bind_eq fun _ => (yields_checkedAdd _ _ _).bind_eq fun stack =>
    (optionalFramebuffer_yields _ geometry).bind_eq fun _ =>
    (occupiedEnd_yields input staging geometry stack).bind_eq fun _ =>
    (yields_checkedSub _ _ _).bind_eq fun _ => (yields_tryWord _ _).bind_eq fun _ =>
    Yields.guard fun _ => (yields_checkedAdd _ _ _).bind_eq fun _ =>
    (yields_checkedAdd _ _ _).bind_eq (q := True) fun _ => yields_ok rfl)
  have above : input.kernelPhys ≤ stackTopOf input staging := by
    have rounded := le_roundUp (show 0 < vmapplePageSize by decide)
      (treePhysOf input staging + input.deviceTree.length)
    simp only [stackTopOf, pageUp, treePhysOf] at rounded ⊢
    omega
  have page : vmapplePageSize = 16384 := rfl
  constructor
  · rintro ⟨_, _, _, tree, stack, pixels, stop, _, _, allocation, header, entry, _⟩
    exact ⟨tree, stack, pixels, stop, Nat.not_lt.mp allocation, header, entry⟩
  · intro fits
    have tree := fits.tree
    have stop := fits.stop
    have allocation := fits.allocation
    simp only [treePhysOf] at tree
    exact ⟨by omega, by omega, by omega, tree, fits.stack, fits.pixels, stop, by omega, by omega,
      Nat.not_lt.mpr allocation, fits.header, fits.entry, trivial⟩

/-- A plan is the one that is computed for the staged collection, when its checks pass. -/
theorem build_eq_ok [UnstableSort] {source : Bytes} {input : Arm64PlacementInput}
    {geometry : Option Arm64FramebufferGeometry} {plan : Arm64HandoffPlan} :
    Arm64HandoffPlan.build source input geometry = .ok plan ↔
      ∃ staging, KcStagingPlan.newArm64 source = .ok staging ∧ BuildOk input staging geometry ∧
        plan = planOf input staging geometry := by
  constructor
  · intro made
    simp only [Arm64HandoffPlan.build, bind_eq_ok, mapErr_eq_ok, rejectIf_eq_ok, not_or, not_lt,
      pure_eq, ok.injEq, exists_const] at made
    obtain ⟨⟨someTree, smallTree⟩, staging, staged, _, placed, out, laid, args, encoded, rfl⟩ :=
      made
    obtain ⟨corresponds, _⟩ := (checkPlacement_yields input staging).post_of_ok placed
    obtain ⟨fits, rfl⟩ := (placeAll_yields input staging geometry).post_of_ok laid
    obtain ⟨ok, rfl⟩ := (encode_yields _).post_of_ok encoded
    exact ⟨staging, staged, ⟨someTree, smallTree, corresponds, fits, ok⟩, rfl⟩
  · rintro ⟨staging, staged, ok, rfl⟩
    obtain ⟨_, placed, _⟩ := (checkPlacement_yields input staging).1 ok.corresponds
    rw [Arm64HandoffPlan.build, rejectIf_of_not _ (not_or.mpr ⟨ok.someTree,
      Nat.not_lt.mpr ok.smallTree⟩), bind_ok, staged, mapErr, bind_ok, placed, bind_ok,
      (placeAll_yields input staging geometry).eq_ok ok.fits, bind_ok]
    have encoded : encodeArm64BootArgs (bootArgsInput input (layoutOf input staging geometry)
        (videoOf input staging geometry)) = .ok _ := (encode_yields _).eq_ok ok.args
    dsimp only
    rw [encoded]
    rfl

end Yields

/-! ### The arrangement -/

/-- A plan that one of the constructors made. -/
def Made [UnstableSort] (source : Bytes) (input : Arm64PlacementInput) (plan : Arm64HandoffPlan) :
    Prop :=
  Arm64HandoffPlan.new source input = .ok plan ∨
    ∃ geometry, Arm64HandoffPlan.newWithFramebuffer source input geometry = .ok plan

/-- The parts of a plan, in the order in which they lie. -/
def Arm64HandoffPlan.parts (plan : Arm64HandoffPlan) : List Span :=
  [⟨plan.layout.kernelPhys, plan.layout.kernelBytes⟩,
    ⟨plan.layout.bootArgsPhys, vmapplePageSize⟩,
    ⟨plan.layout.deviceTreePhys, plan.deviceTree.length⟩,
    ⟨plan.layout.stackTopPhys - armBootStackBytes, armBootStackBytes⟩] ++
  (plan.framebuffer.map fun framebuffer =>
    ⟨framebuffer.basePhys, framebuffer.reservedBytes⟩).toList

/-- A virtual address that the linear map of the input gives to a physical one, with the same
place in its block. -/
structure OnLinearMap (input : Arm64PlacementInput) (va pa : Nat) : Prop where
  virtualAbove : input.virtualBase ≤ va
  physicalAbove : input.physicalBase ≤ pa
  displacement : va - input.virtualBase = pa - input.physicalBase
  block : va % armBootstrapBlockBytes = pa % armBootstrapBlockBytes
  virtualWord : va < 2 ^ 64
  physicalWord : pa < 2 ^ 64

/-- What the layout of a plan must be. -/
structure Arranged (input : Arm64PlacementInput) (plan : Arm64HandoffPlan) : Prop where
  ordered : plan.parts.Pairwise fun a b => a.stop ≤ b.start
  covered : ∀ part ∈ plan.parts, 0 < part.size ∧ plan.layout.kernelPhys ≤ part.start ∧
    part.stop ≤ plan.layout.occupiedEnd
  starts : ∀ part ∈ plan.parts, vmapplePageSize ∣ part.start
  kernelBytes : vmapplePageSize ∣ plan.layout.kernelBytes
  occupiedEnd : vmapplePageSize ∣ plan.layout.occupiedEnd
  allocationBytes : vmapplePageSize ∣ plan.layout.allocationBytes
  allocation : plan.layout.allocationBytes = plan.layout.occupiedEnd - plan.layout.kernelPhys
  inRam : input.physicalBase ≤ plan.layout.kernelPhys ∧
    input.physicalBase < plan.layout.occupiedEnd ∧
    plan.layout.occupiedEnd < input.physicalBase + input.memorySize
  inDram : ∃ dram, dramRange plan.deviceTree = .ok dram ∧ dram.start ≤ input.physicalBase ∧
    input.physicalBase + input.memorySize ≤ dram.stop
  entry : ∃ va, entryAddress plan.staging.inspection.collection.entry = .ok va ∧
    OnLinearMap input va plan.layout.entryPhys
  header : OnLinearMap input plan.staging.inspection.collection.headerAddress
    plan.layout.collectionHeaderPhys
  tree : fromLeBytes (window plan.bootArgs.bytes 96 8) = plan.bootArgs.deviceTreeVirtualAddress ∧
    OnLinearMap input plan.bootArgs.deviceTreeVirtualAddress plan.layout.deviceTreePhys
  words : input.physicalBase + input.memorySize < 2 ^ 64 ∧
    input.virtualBase + input.memorySize < 2 ^ 64 ∧ plan.layout.occupiedEnd < 2 ^ 64

/-- A geometry has pixels. -/
def HasPixels (geometry : Option Arm64FramebufferGeometry) : Prop :=
  ∀ g ∈ geometry, 0 < g.rowBytes * g.height

/-- A plan that was made was built, for a geometry with pixels if for any. -/
theorem Made.built [UnstableSort] {source : Bytes} {input : Arm64PlacementInput}
    {plan : Arm64HandoffPlan} (made : Made source input plan) :
    ∃ geometry, HasPixels geometry ∧
      Arm64HandoffPlan.build source input geometry = .ok plan := by
  rcases made with made | ⟨geometry, made⟩
  · exact ⟨none, by simp [HasPixels], made⟩
  · simp only [Arm64HandoffPlan.newWithFramebuffer, checkGeometry, bind_assoc, seq_eq_ok,
      rejectIf_eq_ok, not_or, Nat.not_lt] at made
    obtain ⟨_, _, ⟨width, height, row, _⟩, made⟩ := made
    refine ⟨some geometry, ?_, made⟩
    simp only [HasPixels, Option.mem_some_iff, forall_eq']
    exact Nat.mul_pos (by omega) (Nat.pos_of_ne_zero height)

section Arrangement

variable {input : Arm64PlacementInput} {staging : KcStagingPlan}
  {geometry : Option Arm64FramebufferGeometry}

theorem dvd_pageUp (value : Nat) : vmapplePageSize ∣ pageUp value := dvd_roundUp _ _

theorem le_pageUp (value : Nat) : value ≤ pageUp value := le_roundUp (by decide) value

/-- Where a kernel address of the collection lies on the linear map. -/
theorem onLinearMap_of_offset (ok : Corresponds input staging) {offset : Nat}
    (word : staging.minimumVirtualAddress + offset < 2 ^ 64)
    (physicalWord : input.kernelPhys + offset < 2 ^ 64) :
    OnLinearMap input (staging.minimumVirtualAddress + offset) (input.kernelPhys + offset) := by
  have above := ok.kernelAbove
  have linked := ok.linked
  have block := ok.block
  simp only [armBootstrapBlockBytes] at block
  refine ⟨by omega, by omega, by omega, ?_, word, physicalWord⟩
  simp only [armBootstrapBlockBytes]
  omega

/-- The parts of a plan follow each other. -/
theorem parts_planOf : (planOf input staging geometry).parts =
    [⟨input.kernelPhys, staging.arenaSize⟩,
      ⟨input.kernelPhys + staging.arenaSize, vmapplePageSize⟩,
      ⟨treePhysOf input staging, input.deviceTree.length⟩,
      ⟨pageUp (treePhysOf input staging + input.deviceTree.length), armBootStackBytes⟩] ++
    (geometry.map fun g => ⟨stackTopOf input staging, pageUp (g.rowBytes * g.height)⟩).toList := by
  simp only [Arm64HandoffPlan.parts, planOf, layoutOf, Option.map_map]
  rw [stackTopOf, Nat.add_sub_cancel]
  rfl

theorem parts_ordered :
    (planOf input staging geometry).parts.Pairwise fun a b => a.stop ≤ b.start := by
  have tree := le_pageUp (treePhysOf input staging + input.deviceTree.length)
  rw [parts_planOf]
  cases geometry with
  | none =>
      simp only [Option.map_none, Option.toList_none, List.append_nil, List.pairwise_cons,
        List.forall_mem_cons, List.not_mem_nil, false_implies, implies_true, List.Pairwise.nil,
        and_true, Span.stop, treePhysOf] at tree ⊢
      omega
  | some g =>
      simp only [Option.map_some, Option.toList_some, List.cons_append, List.nil_append,
        List.pairwise_cons, List.forall_mem_cons, List.not_mem_nil, false_implies, implies_true,
        List.Pairwise.nil, and_true, Span.stop, treePhysOf, stackTopOf] at tree ⊢
      omega

/-- The parts start at pages, take room, and lie in what is occupied. -/
theorem part_planOf (kernelPage : vmapplePageSize ∣ input.kernelPhys)
    (arenaPage : vmapplePageSize ∣ staging.arenaSize) (arena : 0 < staging.arenaSize)
    (tree : 0 < input.deviceTree.length) (pixels : HasPixels geometry) :
    ∀ part ∈ (planOf input staging geometry).parts, vmapplePageSize ∣ part.start ∧
      0 < part.size ∧ input.kernelPhys ≤ part.start ∧
      part.stop ≤ stackTopOf input staging + reservedOf geometry := by
  have argsPage := Nat.dvd_add kernelPage arenaPage
  have treePage : vmapplePageSize ∣ treePhysOf input staging :=
    Nat.dvd_add argsPage (Nat.dvd_refl _)
  have stackPage := dvd_pageUp (treePhysOf input staging + input.deviceTree.length)
  have topPage : vmapplePageSize ∣ stackTopOf input staging :=
    Nat.dvd_add stackPage (by decide)
  have rounded := le_pageUp (treePhysOf input staging + input.deviceTree.length)
  have page : vmapplePageSize = 16384 := rfl
  have stack : armBootStackBytes = 65536 := rfl
  have tree_eq :
    treePhysOf input staging = input.kernelPhys + staging.arenaSize + vmapplePageSize :=
    rfl
  have top_eq : stackTopOf input staging =
    pageUp (treePhysOf input staging + input.deviceTree.length) + armBootStackBytes := rfl
  have front : ∀ part ∈ [(⟨input.kernelPhys, staging.arenaSize⟩ : Span),
      ⟨input.kernelPhys + staging.arenaSize, vmapplePageSize⟩,
      ⟨treePhysOf input staging, input.deviceTree.length⟩,
      ⟨pageUp (treePhysOf input staging + input.deviceTree.length), armBootStackBytes⟩],
      vmapplePageSize ∣ part.start ∧ 0 < part.size ∧ input.kernelPhys ≤ part.start ∧
        part.stop ≤ stackTopOf input staging := by
    simp only [List.forall_mem_cons, List.not_mem_nil, false_implies, implies_true, and_true,
      kernelPage, argsPage, treePage, stackPage, true_and, Span.stop]
    omega
  intro part mem
  rw [parts_planOf, List.mem_append] at mem
  rcases mem with fixed | extra
  · obtain ⟨start, size, above, below⟩ := front part fixed
    exact ⟨start, size, above, below.trans (Nat.le_add_right _ _)⟩
  · cases geometry with
    | none => cases extra
    | some g =>
        obtain rfl := List.mem_singleton.mp extra
        have drawn : 0 < g.rowBytes * g.height := pixels g rfl
        have reserved := le_pageUp (g.rowBytes * g.height)
        exact ⟨topPage, by dsimp only; omega, by dsimp only; omega, Nat.le_refl _⟩

end Arrangement

/-- Every plan is arranged: its parts lie one behind the other at pages, in RAM and in the
memory of the device tree, and its addresses are on the linear map. -/
theorem handoff_arranged [UnstableSort] {source : Bytes} {input : Arm64PlacementInput}
    {plan : Arm64HandoffPlan} (made : Made source input plan) : Arranged input plan := by
  obtain ⟨geometry, pixels, built⟩ := made.built
  obtain ⟨staging, staged, ok, rfl⟩ := build_eq_ok.mp built
  obtain ⟨_, first, last, planned⟩ := @planned_of_ok _ .arm64 _ _ staged
  have positive : 0 < pageSizeOf .arm64 := by decide
  have span := planned.pageSpan positive
  obtain ⟨entry, entry_below⟩ := planned.entry_inside positive
  obtain ⟨header, header_below⟩ := planned.header_inside positive
  have args := ok.args
  have kernelPage : vmapplePageSize ∣ input.kernelPhys :=
    Nat.dvd_of_mod_eq_zero ok.corresponds.kernelPage
  have arenaPage : vmapplePageSize ∣ staging.arenaSize := span.size_dvd
  have arena : 0 < staging.arenaSize := args.kernelSize
  have parts := part_planOf kernelPage arenaPage arena args.treeSize pixels
  have stopPage : vmapplePageSize ∣ stackTopOf input staging + reservedOf geometry :=
    Nat.dvd_of_mod_eq_zero args.topPage
  have topAbove : input.physicalBase < stackTopOf input staging + reservedOf geometry :=
    args.topAbove
  have topBelow : stackTopOf input staging + reservedOf geometry <
    input.physicalBase + input.memorySize := args.topBelow
  have ramWord : input.physicalBase + input.memorySize < 2 ^ 64 := args.ramWord
  have virtualWord : input.virtualBase + input.memorySize < 2 ^ 64 := args.virtualWord
  have treeBelow : treePhysOf input staging + input.deviceTree.length ≤
    stackTopOf input staging + reservedOf geometry := args.treeBelow
  have kernelAbove := ok.corresponds.kernelAbove
  have linked := ok.corresponds.linked
  have tree_eq :
    treePhysOf input staging = input.kernelPhys + (staging.arenaSize + vmapplePageSize) :=
    Nat.add_assoc ..
  refine ⟨parts_ordered, fun part mem => (parts part mem).2, fun part mem => (parts part mem).1,
    arenaPage, stopPage, Nat.dvd_sub stopPage kernelPage, rfl, ⟨kernelAbove, topAbove, topBelow⟩,
    ?_, ⟨_, entry, onLinearMap_of_offset ok.corresponds (by omega) ok.fits.entry⟩, ?_, ?_,
    ramWord, virtualWord, ok.fits.stop⟩
  · obtain ⟨dram, described⟩ := args.dram
    exact ⟨dram, described.described, described.below, described.above⟩
  · rw [show (planOf input staging geometry).staging.inspection.collection.headerAddress = _
      from header]
    exact onLinearMap_of_offset ok.corresponds (by omega) ok.fits.header
  · have pointer : (encodingOf (argsInputOf input staging geometry)).deviceTreeVirtualAddress =
        staging.minimumVirtualAddress + (staging.arenaSize + vmapplePageSize) := by
      have : input.virtualBase + (treePhysOf input staging - input.physicalBase) =
          staging.minimumVirtualAddress + (staging.arenaSize + vmapplePageSize) := by
        omega
      exact this
    have word : staging.minimumVirtualAddress + (staging.arenaSize + vmapplePageSize) < 2 ^ 64 := by
      omega
    refine ⟨word_encodingOf args, ?_⟩
    have mapped := onLinearMap_of_offset ok.corresponds word (by omega)
    rwa [← pointer, ← tree_eq] at mapped

/-! ### A small collection -/

/-- The header of a thin arm64 image. -/
def sampleArmHeader (fileType count commandBytes : Nat) : Bytes :=
  toLeBytes 4 0xfeedfacf ++ toLeBytes 4 0x0100000c ++ toLeBytes 4 0 ++ toLeBytes 4 fileType ++
    toLeBytes 4 count ++ toLeBytes 4 commandBytes ++ toLeBytes 4 0 ++ toLeBytes 4 0

/-- A collection of one segment and one member, which views the end of that segment. -/
def sampleArm : Bytes :=
  sampleArmHeader 12 3 400 ++ sampleSegment 0xfffffe0000000000 1000 0 536 ++
    (toLeBytes 4 5 ++ toLeBytes 4 288 ++ toLeBytes 4 6 ++ toLeBytes 4 68 ++
      List.replicate 256 0 ++ toLeBytes 8 0xfffffe0000000004 ++ List.replicate 8 0) ++
    (toLeBytes 4 0x80000035 ++ toLeBytes 4 40 ++ toLeBytes 8 0xfffffe00000001b0 ++
      toLeBytes 8 432 ++ toLeBytes 4 32 ++ toLeBytes 4 0 ++ [109, 0, 0, 0, 0, 0, 0, 0]) ++
    sampleArmHeader 2 1 72 ++ sampleSegment 0xfffffe00000001b0 300 432 104

/-- A device tree that describes 512 MiB of memory. -/
def sampleTree : Bytes :=
  FlatDt.WireNode.serialize ⟨[⟨asBytes "name", [0]⟩],
    [⟨[⟨asBytes "name", asBytes "chosen" ++ [0]⟩, ⟨asBytes "dram-base", toLeBytes 8 0x40000000⟩,
      ⟨asBytes "dram-size", toLeBytes 8 0x20000000⟩], []⟩]⟩

def sampleInput : Arm64PlacementInput where
  physicalBase := 0x40000000
  virtualBase := 0xfffffe0000000000
  memorySize := 0x20000000
  actualMemorySize := 0x20000000
  kernelPhys := 0x40000000
  deviceTree := sampleTree
  commandLine := "-v"
  machineType := 0
  bootFlags := 0
  video := .zero

theorem exists_samplePlan :
    ∃ plan, @Arm64HandoffPlan.newWithFramebuffer UnstableSort.insertion sampleArm sampleInput
      ⟨17, 257, 80⟩ = .ok plan ∧ plan.layout.kernelPhys = 0x40000000 ∧
        plan.layout.occupiedEnd < 0x60000000 := by
  obtain ⟨plan, made, bounds⟩ := isOkAnd_iff.mp
    (show (@Arm64HandoffPlan.newWithFramebuffer UnstableSort.insertion sampleArm sampleInput
      ⟨17, 257, 80⟩).isOkAnd (fun plan => plan.layout.kernelPhys = 0x40000000 ∧
        plan.layout.occupiedEnd < 0x60000000) = true by decide +kernel)
  exact ⟨plan, made, of_decide_eq_true bounds⟩

theorem handoff_arranged_sample :
    ∃ plan, @Made UnstableSort.insertion sampleArm sampleInput plan ∧
      Arranged sampleInput plan := by
  obtain ⟨plan, made, _⟩ := exists_samplePlan
  exact ⟨plan, .inr ⟨_, made⟩, @handoff_arranged UnstableSort.insertion _ _ _ (.inr ⟨_, made⟩)⟩

end Nextcore.Handoff
