import Nextcore.Handoff.Layout

/-!
What a framebuffer adds to a plan.

The checks behind the placement of the framebuffer read the end of what is occupied. Without a
framebuffer that end is lower and still covers the rest of the handoff, so they keep passing
(`BuildOk.plain`); the plan that is then made has the same layout below the stack's top, and the
same arguments but for the words of the top and of the video (`framebuffer_extends`).
-/

namespace Nextcore.Handoff

open Checked Checked.Outcome
open KcStaging BootArgs

section Plain

variable {input : Arm64PlacementInput} {staging : KcStagingPlan}
  {geometry : Arm64FramebufferGeometry}

theorem stackTop_page : stackTopOf input staging % vmapplePageSize = 0 :=
  Nat.mod_eq_zero_of_dvd (Nat.dvd_add (dvd_pageUp _) (by decide))

theorem tree_below_stackTop :
    treePhysOf input staging + input.deviceTree.length ≤ stackTopOf input staging :=
  (le_pageUp _).trans (Nat.le_add_right _ _)

@[simp] theorem reservedOf_none : reservedOf none = 0 := rfl

/-- What fits with a framebuffer fits without one. -/
theorem Fits.plain (fits : Fits input staging (some geometry)) : Fits input staging none where
  tree := fits.tree
  stack := fits.stack
  pixels := fun _ mem => absurd mem (Option.not_mem_none _)
  stop := by simpa using fits.stack
  allocation := by
    have allocation := fits.allocation
    rw [reservedOf_none]
    omega
  header := fits.header
  entry := fits.entry

/-- The encoder's input without the framebuffer is that with it, with the stack's top as the top
and the caller's video. -/
theorem argsInputOf_plain : argsInputOf input staging none =
    { argsInputOf input staging (some geometry) with
      topOfKernelData := stackTopOf input staging, video := input.video } := by
  simp only [argsInputOf, bootArgsInput, layoutOf, videoOf, reservedOf_none, Nat.add_zero]

/-- A placement that is accepted with a framebuffer is accepted without one. -/
theorem BuildOk.plain (ok : BuildOk input staging (some geometry)) :
    BuildOk input staging none where
  someTree := ok.someTree
  smallTree := ok.smallTree
  corresponds := ok.corresponds
  fits := ok.fits.plain
  args := by
    have tree := @tree_below_stackTop input staging
    -- The page of the arguments lies in front of the tree.
    have args : (argsInputOf input staging (some geometry)).bootArgsPhys + arm64BootArgsSize ≤
        treePhysOf input staging := Nat.add_le_add_left (by decide) _
    rw [@argsInputOf_plain _ _ geometry]
    exact ok.args.lower _ stackTop_page (Nat.le_add_right _ _) (by omega) tree

end Plain

/-! ### The two plans -/

/-- Two plans that differ in a framebuffer for the geometry. -/
structure ExtendedBy (plain drawn : Arm64HandoffPlan) (geometry : Arm64FramebufferGeometry)
    (framebuffer : Arm64FramebufferLayout) : Prop where
  staging : drawn.staging = plain.staging
  deviceTree : drawn.deviceTree = plain.deviceTree
  plainFramebuffer : plain.framebuffer = none
  drawnFramebuffer : drawn.framebuffer = some framebuffer
  pixels : framebuffer.geometry = geometry
  basePhys : framebuffer.basePhys = plain.layout.stackTopPhys
  byteLen : framebuffer.byteLen = geometry.rowBytes * geometry.height
  reservedPage : vmapplePageSize ∣ framebuffer.reservedBytes
  reservedRoom : geometry.rowBytes * geometry.height ≤ framebuffer.reservedBytes
  layout : drawn.layout = { plain.layout with
    occupiedEnd := plain.layout.occupiedEnd + framebuffer.reservedBytes
    allocationBytes := plain.layout.allocationBytes + framebuffer.reservedBytes }
  argsPhys : drawn.bootArgs.physicalAddress = plain.bootArgs.physicalAddress
  treeVirtual : drawn.bootArgs.deviceTreeVirtualAddress = plain.bootArgs.deviceTreeVirtualAddress
  argsSize : drawn.bootArgs.bytes.length = plain.bootArgs.bytes.length
  argsSame : ∀ i, ¬ (32 ≤ i ∧ i < 88) → drawn.bootArgs.bytes[i]? = plain.bootArgs.bytes[i]?
  plainWords : ∀ field ∈ [(32, plain.layout.occupiedEnd), (40, 0), (48, 0), (56, 0), (64, 0),
    (72, 0), (80, 0)], window plain.bootArgs.bytes field.1 8 = toLeBytes 8 field.2
  drawnWords : ∀ field ∈ [(32, drawn.layout.occupiedEnd), (40, framebuffer.basePhys), (48, 1),
    (56, geometry.rowBytes), (64, geometry.width), (72, geometry.height), (80, 32)],
    window drawn.bootArgs.bytes field.1 8 = toLeBytes 8 field.2

theorem window_topAndVideo {input : Arm64BootArgsInput} (ok : ArgsOk input) :
    ∀ field ∈ topAndVideo input,
      window (encodingOf input).bytes field.1 8 = toLeBytes 8 field.2 := by
  intro field mem
  simpa only [encodingOf] using window_wordField ok.shortLine (topAndVideo_subset mem)

/-- The plans for one placement, with and without a framebuffer. -/
theorem extendedBy_planOf {input : Arm64PlacementInput} {staging : KcStagingPlan}
    {geometry : Arm64FramebufferGeometry} (video : input.video = .zero)
    (ok : BuildOk input staging (some geometry)) :
    ExtendedBy (planOf input staging none) (planOf input staging (some geometry)) geometry
      (framebufferOf (stackTopOf input staging) geometry) := by
  have args := @argsInputOf_plain input staging geometry
  have above : input.kernelPhys ≤ stackTopOf input staging := by
    have tree := @tree_below_stackTop input staging
    simp only [treePhysOf] at tree
    omega
  refine
    { staging := rfl
      deviceTree := rfl
      plainFramebuffer := rfl
      drawnFramebuffer := rfl
      pixels := rfl
      basePhys := rfl
      byteLen := rfl
      reservedPage := dvd_pageUp _
      reservedRoom := le_pageUp _
      layout := ?_
      argsPhys := by simp only [planOf, encodingOf, args]
      treeVirtual := by simp only [planOf, encodingOf, args]
      argsSize := by simp only [planOf, length_encodingOf]
      argsSame := ?_
      plainWords := ?_
      drawnWords := ?_ }
  · have grown : stackTopOf input staging + reservedOf (some geometry) - input.kernelPhys =
        stackTopOf input staging - input.kernelPhys + reservedOf (some geometry) := by omega
    simp only [planOf, layoutOf, reservedOf_none, Nat.add_zero, grown]
    rfl
  · intro i outside
    simp only [planOf, encodingOf, args]
    exact (argsBlock_congr _ _ outside).symm
  · have words := window_topAndVideo ok.plain.args
    simpa only [planOf, topAndVideo, argsInputOf, bootArgsInput, videoOf, video,
      Arm64BootVideo.zero] using words
  · have words := window_topAndVideo ok.args
    simpa only [planOf, topAndVideo, argsInputOf, bootArgsInput, videoOf, framebufferOf] using words

/-- A plan with a framebuffer extends the plan that is made without one. -/
theorem framebuffer_extends [UnstableSort] {source : Bytes} {input : Arm64PlacementInput}
    {geometry : Arm64FramebufferGeometry} {drawn : Arm64HandoffPlan}
    (made : Arm64HandoffPlan.newWithFramebuffer source input geometry = .ok drawn) :
    ∃ plain framebuffer, Arm64HandoffPlan.new source input = .ok plain ∧
      ExtendedBy plain drawn geometry framebuffer := by
  simp only [Arm64HandoffPlan.newWithFramebuffer, seq_eq_ok, rejectIf_eq_ok, not_not] at made
  obtain ⟨video, _, built⟩ := made
  obtain ⟨staging, staged, ok, rfl⟩ := build_eq_ok.mp built
  exact ⟨_, _, build_eq_ok.mpr ⟨staging, staged, ok.plain, rfl⟩, extendedBy_planOf video ok⟩

theorem framebuffer_extends_sample :
    ∃ drawn plain framebuffer,
      @Arm64HandoffPlan.newWithFramebuffer UnstableSort.insertion sampleArm sampleInput
        ⟨17, 257, 80⟩ = .ok drawn ∧
      @Arm64HandoffPlan.new UnstableSort.insertion sampleArm sampleInput = .ok plain ∧
        ExtendedBy plain drawn ⟨17, 257, 80⟩ framebuffer := by
  obtain ⟨drawn, made, _⟩ := exists_samplePlan
  obtain ⟨plain, framebuffer, planned, extended⟩ :=
    @framebuffer_extends UnstableSort.insertion _ _ _ _ made
  exact ⟨drawn, plain, framebuffer, made, planned, extended⟩

end Nextcore.Handoff
