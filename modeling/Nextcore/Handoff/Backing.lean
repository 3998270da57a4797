import Nextcore.Handoff.Staged

/-!
The backing of a handoff (`xnu_arm64_backing.rs`).

The checker is given a layout, the guest RAM and the page tables, and derives the distances of
the layout again. Layouts that a plan has pass that check (`Made.validLayout`), so the windows
alone decide (`new_yields`). The part of RAM that is then lent out is the allocation of the
plan, and staging into it changes nothing else (`backing_accepts_plan`).
-/

namespace Nextcore.Handoff

open Checked Checked.Outcome
open KcStaging BootArgs

def backingPage : Nat := 16 * 1024
def paLimit : Nat := 2 ^ 48

inductive Arm64BackingError where
  | invalidLayout
  | invalidRange
  | insufficientRam
  | overlappingGuestRanges
  | overlappingHostRanges
  deriving DecidableEq, Repr

/-- Borrowed bytes and the address they lie at. An allocated object ends at a word. -/
structure HostSlice where
  address : Nat
  bytes : Bytes
  fits : address + bytes.length < 2 ^ 64

/-- Where a slice lies in the memory of the host. -/
def HostSlice.span (slice : HostSlice) : Span := ⟨slice.address, slice.bytes.length⟩

structure Arm64HandoffBacking where
  ram : HostSlice
  ramBase : Nat
  tables : HostSlice
  tableBase : Nat
  handoffOffset : Nat
  handoffBytes : Nat

namespace Arm64HandoffBacking

/-! ### The checker -/

/-- What the checker asks of a layout, before it looks at the windows. -/
def checkLayout (layout : Arm64HandoffLayout) : Outcome Arm64BackingError Unit :=
  rejectIf (layout.kernelBytes = 0 ∨ layout.kernelPhys % backingPage ≠ 0 ∨
    layout.kernelBytes % backingPage ≠ 0 ∨ layout.allocationBytes % backingPage ≠ 0 ∨
    layout.occupiedEnd % backingPage ≠ 0 ∨ layout.allocationBytes ≤ layout.kernelBytes ∨
    checkedAdd layout.kernelPhys layout.kernelBytes ≠ some layout.bootArgsPhys ∨
    checkedAdd layout.bootArgsPhys backingPage ≠ some layout.deviceTreePhys ∨
    layout.stackTopPhys % backingPage ≠ 0 ∨
    (checkedAdd layout.deviceTreePhys (backingPage + armBootStackBytes)).all
      (layout.stackTopPhys < ·) = true ∨
    layout.stackTopPhys > layout.occupiedEnd ∨
    checkedAdd layout.kernelPhys layout.allocationBytes ≠ some layout.occupiedEnd) .invalidLayout

/-- The windows, each for itself. -/
def checkWindows (ramLen ramBase tableLen tableBase : Nat) : Outcome Arm64BackingError Unit :=
  rejectIf (ramBase % backingPage ≠ 0 ∨ tableBase % backingPage ≠ 0 ∨ ramLen < backingPage ∨
    tableLen < backingPage ∨ ramLen % backingPage ≠ 0 ∨ tableLen % backingPage ≠ 0 ∨
    paLimit ≤ ramBase ∨ paLimit ≤ tableBase ∨ ramLen > paLimit - ramBase ∨
    tableLen > paLimit - tableBase) .invalidRange

/-- Two ranges with the given starts and ends overlap. -/
def overlapIf (start stop start' stop' : Nat) (error : Arm64BackingError) :
    Outcome Arm64BackingError Unit :=
  rejectIf (start < stop' ∧ start' < stop) error

/-- The offset of the handoff in RAM. -/
def offsetOf (layout : Arm64HandoffLayout) (ramLen ramBase : Nat) :
    Outcome Arm64BackingError Nat := do
  let offset ← ofOption .insufficientRam (checkedSub layout.kernelPhys ramBase)
  let offset ← tryWord offset .insufficientRam
  rejectIf (offset % backingPage ≠ 0 ∨
    (checkedAdd offset layout.allocationBytes).all (ramLen < ·) = true) .insufficientRam
  pure offset

/-- What follows the check of the layout in `new`. -/
def place (layout : Arm64HandoffLayout) (ram : HostSlice) (ramBase : Nat) (tables : HostSlice)
    (tableBase : Nat) : Outcome Arm64BackingError Arm64HandoffBacking := do
  let ramLen ← tryWord ram.bytes.length .invalidRange
  let tableLen ← tryWord tables.bytes.length .invalidRange
  checkWindows ramLen ramBase tableLen tableBase
  let tableStop ← add tableBase tableLen
  let ramStop ← add ramBase ramLen
  overlapIf ramBase ramStop tableBase tableStop .overlappingGuestRanges
  let offset ← offsetOf layout ram.bytes.length ramBase
  let ramEnd ← ofOption .invalidRange (checkedAdd ram.address ram.bytes.length)
  let tableEnd ← ofOption .invalidRange (checkedAdd tables.address tables.bytes.length)
  overlapIf ram.address ramEnd tables.address tableEnd .overlappingHostRanges
  pure ⟨ram, ramBase, tables, tableBase, offset, layout.allocationBytes⟩

def new (layout : Arm64HandoffLayout) (ram : HostSlice) (ramBase : Nat) (tables : HostSlice)
    (tableBase : Nat) : Outcome Arm64BackingError Arm64HandoffBacking := do
  checkLayout layout
  place layout ram ramBase tables tableBase

/-- `handoff_mut`: the part of RAM that is lent out. -/
def handoffMut (backing : Arm64HandoffBacking) : Outcome Arm64BackingError Bytes := do
  let stop ← add backing.handoffOffset backing.handoffBytes
  index backing.ram.bytes backing.handoffOffset stop

/-- The backing, once the borrower has left these bytes in what was lent out. -/
def afterLoan (backing : Arm64HandoffBacking) (bytes : Bytes) : Arm64HandoffBacking :=
  { backing with ram := ⟨backing.ram.address, overlay backing.ram.bytes backing.handoffOffset bytes,
      by rw [length_overlay]; exact backing.ram.fits⟩ }

/-! ### What the checker accepts -/

/-- A layout that passes the check. -/
structure ValidLayout (layout : Arm64HandoffLayout) : Prop where
  kernelSize : 0 < layout.kernelBytes
  kernelPage : backingPage ∣ layout.kernelPhys
  kernelBytes : backingPage ∣ layout.kernelBytes
  allocationBytes : backingPage ∣ layout.allocationBytes
  occupiedEnd : backingPage ∣ layout.occupiedEnd
  behindKernel : layout.kernelBytes < layout.allocationBytes
  args : layout.kernelPhys + layout.kernelBytes = layout.bootArgsPhys
  tree : layout.bootArgsPhys + backingPage = layout.deviceTreePhys
  stackPage : backingPage ∣ layout.stackTopPhys
  stack : layout.deviceTreePhys + (backingPage + armBootStackBytes) ≤ layout.stackTopPhys
  stackTop : layout.stackTopPhys ≤ layout.occupiedEnd
  allocation : layout.kernelPhys + layout.allocationBytes = layout.occupiedEnd
  word : layout.occupiedEnd < 2 ^ 64

/-- A window that is aligned and not empty, below the limit of physical addresses. -/
structure WindowOk (base len : Nat) : Prop where
  page : backingPage ∣ base
  nonempty : 0 < len
  size : backingPage ∣ len
  below : base + len ≤ paLimit

/-- Windows that hold the handoff: apart for the guest and for the host, and with the occupied
memory in the RAM. -/
structure Suitable (layout : Arm64HandoffLayout) (ram : HostSlice) (ramBase : Nat)
    (tables : HostSlice) (tableBase : Nat) : Prop where
  ramWindow : WindowOk ramBase ram.bytes.length
  tableWindow : WindowOk tableBase tables.bytes.length
  guestApart : (Span.mk ramBase ram.bytes.length).Apart ⟨tableBase, tables.bytes.length⟩
  hostApart : ram.span.Apart tables.span
  above : ramBase ≤ layout.kernelPhys
  below : layout.occupiedEnd ≤ ramBase + ram.bytes.length

section Accepted

variable {layout : Arm64HandoffLayout} {ram tables : HostSlice} {ramBase tableBase : Nat}

theorem checkLayout_yields (layout : Arm64HandoffLayout) :
    Yields (ValidLayout layout) (fun _ => True) (checkLayout layout) := by
  refine Yields.congr ?_ (yields_rejectIf _)
  simp only [not_or, not_not, Nat.not_le, Nat.not_lt, ne_eq, all_checkedAdd, decide_eq_true_eq,
    not_forall, exists_prop, checkedAdd_eq_some]
  constructor
  · rintro ⟨size, kernelPage, kernelBytes, allocationBytes, occupiedEnd, behindKernel,
      ⟨_, args⟩, ⟨_, tree⟩, stackPage, ⟨_, stack⟩, stackTop, word, allocation⟩
    exact ⟨Nat.pos_of_ne_zero size, Nat.dvd_of_mod_eq_zero kernelPage,
      Nat.dvd_of_mod_eq_zero kernelBytes, Nat.dvd_of_mod_eq_zero allocationBytes,
      Nat.dvd_of_mod_eq_zero occupiedEnd, behindKernel, args, tree,
      Nat.dvd_of_mod_eq_zero stackPage, stack, stackTop, allocation, by omega⟩
  · intro valid
    have behindKernel := valid.behindKernel
    have args := valid.args
    have tree := valid.tree
    have stack := valid.stack
    have stackTop := valid.stackTop
    have allocation := valid.allocation
    have word := valid.word
    exact ⟨Nat.pos_iff_ne_zero.mp valid.kernelSize, Nat.mod_eq_zero_of_dvd valid.kernelPage,
      Nat.mod_eq_zero_of_dvd valid.kernelBytes, Nat.mod_eq_zero_of_dvd valid.allocationBytes,
      Nat.mod_eq_zero_of_dvd valid.occupiedEnd, behindKernel, ⟨by omega, args⟩,
      ⟨by omega, tree⟩, Nat.mod_eq_zero_of_dvd valid.stackPage, ⟨by omega, stack⟩, stackTop,
      by omega, allocation⟩

/-- Whatever comes after the check of the layout, the layout is not to blame. -/
theorem place_ne_invalidLayout :
    place layout ram ramBase tables tableBase ≠ .err .invalidLayout := by
  have ramWord : ram.bytes.length < 2 ^ 64 := Nat.lt_of_le_of_lt (Nat.le_add_left ..) ram.fits
  have tableWord : tables.bytes.length < 2 ^ 64 :=
    Nat.lt_of_le_of_lt (Nat.le_add_left ..) tables.fits
  have offset : offsetOf layout ram.bytes.length ramBase ≠ .err .invalidLayout :=
    bind_ne_err (by simp) fun distance _ => bind_ne_err (by unfold tryWord; split <;> simp)
      fun _ _ => bind_ne_err (by simp) fun _ _ => by simp
  rw [place, tryWord_of_lt ramWord, bind_ok, tryWord_of_lt tableWord, bind_ok]
  exact bind_ne_err (by simp [checkWindows]) fun _ _ => bind_ne_err expect_ne_err fun _ _ =>
    bind_ne_err expect_ne_err fun _ _ => bind_ne_err (by simp [overlapIf]) fun _ _ =>
    bind_ne_err offset fun _ _ => bind_ne_err (by simp) fun _ _ => bind_ne_err (by simp)
    fun _ _ => bind_ne_err (by simp [overlapIf]) fun _ _ => by simp

theorem checkWindows_yields (ramLen ramBase tableLen tableBase : Nat) :
    Yields (WindowOk ramBase ramLen ∧ WindowOk tableBase tableLen) (fun _ => True)
      (checkWindows ramLen ramBase tableLen tableBase) := by
  have window (base len : Nat) : WindowOk base len ↔ base % backingPage = 0 ∧ backingPage ≤ len ∧
      len % backingPage = 0 ∧ base < paLimit ∧ len ≤ paLimit - base := by
    constructor
    · intro ok
      have below := ok.below
      have nonempty := ok.nonempty
      exact ⟨Nat.mod_eq_zero_of_dvd ok.page, Nat.le_of_dvd nonempty ok.size,
        Nat.mod_eq_zero_of_dvd ok.size, by omega, by omega⟩
    · rintro ⟨page, room, size, start, below⟩
      exact ⟨Nat.dvd_of_mod_eq_zero page, Nat.lt_of_lt_of_le (by decide) room,
        Nat.dvd_of_mod_eq_zero size, by omega⟩
  refine Yields.congr ?_ (yields_rejectIf _)
  simp only [window, not_or, not_not, Nat.not_le, Nat.not_lt, ne_eq, gt_iff_lt]
  constructor
  · rintro ⟨ramPage, tablePage, ramSome, tableSome, ramSize, tableSize, ramStart, tableStart,
      ramBelow, tableBelow⟩
    exact ⟨⟨ramPage, ramSome, ramSize, ramStart, ramBelow⟩, tablePage, tableSome, tableSize,
      tableStart, tableBelow⟩
  · rintro ⟨⟨ramPage, ramSome, ramSize, ramStart, ramBelow⟩, tablePage, tableSome, tableSize,
      tableStart, tableBelow⟩
    exact ⟨ramPage, tablePage, ramSome, tableSome, ramSize, tableSize, ramStart, tableStart,
      ramBelow, tableBelow⟩

theorem overlapIf_yields (a b : Span) (error : Arm64BackingError) :
    Yields (a.Apart b) (fun _ => True) (overlapIf a.start a.stop b.start b.stop error) := by
  refine Yields.congr ?_ (yields_rejectIf _)
  simp only [Span.Apart]
  omega

/-- The windows decide whether a valid layout is backed. -/
theorem place_yields (valid : ValidLayout layout) :
    Yields (Suitable layout ram ramBase tables tableBase)
      (fun backing => backing = ⟨ram, ramBase, tables, tableBase, layout.kernelPhys - ramBase,
        layout.allocationBytes⟩)
      (place layout ram ramBase tables tableBase) := by
  simp only [place, offsetOf, bind_assoc, pure_eq, bind_ok]
  refine Yields.congr ?_ ((yields_tryWord _ _).bind_eq fun _ =>
    (yields_tryWord _ _).bind_eq fun _ =>
    (checkWindows_yields ..).bind fun windows _ _ =>
      .after_ok (add_of_lt ?_) (.after_ok (add_of_lt ?_)
      ((overlapIf_yields ⟨ramBase, ram.bytes.length⟩ ⟨tableBase, tables.bytes.length⟩ _).bind
        fun _ _ _ => (yields_checkedSub _ _ _).bind_eq fun _ =>
        (yields_tryWord _ _).bind_eq fun _ => Yields.guard fun _ =>
        (yields_checkedAdd _ _ _).bind_eq fun _ => (yields_checkedAdd _ _ _).bind_eq fun _ =>
        (overlapIf_yields ram.span tables.span _).bind (q := True) fun _ _ _ => yields_ok rfl)))
  · have args := valid.args
    have behindKernel := valid.behindKernel
    have allocation := valid.allocation
    have word := valid.word
    simp only [not_or, not_not, ne_eq, all_checkedAdd, decide_eq_true_eq, not_forall, exists_prop,
      Nat.not_lt, and_true]
    constructor
    · rintro ⟨_, _, ⟨ramWindow, tableWindow⟩, guestApart, above, _, ⟨_, _, below⟩, _, _,
        hostApart⟩
      exact ⟨ramWindow, tableWindow, guestApart, hostApart, above, by omega⟩
    · rintro ⟨ramWindow, tableWindow, guestApart, hostApart, above, below⟩
      have ramFits := ram.fits
      have tableFits := tables.fits
      exact ⟨by omega, by omega, ⟨ramWindow, tableWindow⟩, guestApart, above, by omega,
        ⟨Nat.mod_eq_zero_of_dvd (Nat.dvd_sub valid.kernelPage ramWindow.page), by omega, by omega⟩,
        ramFits, tableFits, hostApart⟩
  · have below := windows.2.below
    simp only [paLimit] at below
    omega
  · have below := windows.1.below
    simp only [paLimit] at below
    omega

theorem new_yields (layout : Arm64HandoffLayout) :
    Yields (ValidLayout layout ∧ Suitable layout ram ramBase tables tableBase)
      (fun backing => backing = ⟨ram, ramBase, tables, tableBase, layout.kernelPhys - ramBase,
        layout.allocationBytes⟩)
      (new layout ram ramBase tables tableBase) :=
  (checkLayout_yields layout).bind fun valid _ _ => place_yields valid

theorem new_ne_invalidLayout (valid : ValidLayout layout) :
    new layout ram ramBase tables tableBase ≠ .err .invalidLayout := by
  obtain ⟨_, passed, _⟩ := (checkLayout_yields layout).1 valid
  rw [new, passed, bind_ok]
  exact place_ne_invalidLayout

end Accepted

end Arm64HandoffBacking

open Arm64HandoffBacking

/-- The layout of a plan has the distances that the checker derives. -/
theorem Made.validLayout [UnstableSort] {source : Bytes} {input : Arm64PlacementInput}
    {plan : Arm64HandoffPlan} (made : Made source input plan) : ValidLayout plan.layout := by
  obtain ⟨geometry, _, built⟩ := made.built
  obtain ⟨staging, staged, ok, rfl⟩ := build_eq_ok.mp built
  obtain ⟨_, first, last, planned⟩ := @planned_of_ok _ .arm64 _ _ staged
  have span := planned.pageSpan (show 0 < pageSizeOf .arm64 by decide)
  have kernelPage : backingPage ∣ input.kernelPhys :=
    Nat.dvd_of_mod_eq_zero ok.corresponds.kernelPage
  have arenaPage : backingPage ∣ staging.arenaSize := span.size_dvd
  have stopPage : backingPage ∣ stackTopOf input staging + reservedOf geometry :=
    Nat.dvd_of_mod_eq_zero ok.args.topPage
  have tree_eq :
    treePhysOf input staging = input.kernelPhys + staging.arenaSize + vmapplePageSize :=
    rfl
  have treePage : backingPage ∣ treePhysOf input staging :=
    Nat.dvd_add (Nat.dvd_add kernelPage arenaPage) (Nat.dvd_refl _)
  have stackPage : backingPage ∣ pageUp (treePhysOf input staging + input.deviceTree.length) :=
    dvd_pageUp _
  -- The tree takes room, so its end is rounded up by at least a page.
  have behindTree : treePhysOf input staging + backingPage ≤
      pageUp (treePhysOf input staging + input.deviceTree.length) := by
    have rounded := le_pageUp (treePhysOf input staging + input.deviceTree.length)
    have room := List.length_pos_of_ne_nil ok.someTree
    have treeRem := Nat.mod_eq_zero_of_dvd treePage
    have stackRem := Nat.mod_eq_zero_of_dvd stackPage
    simp only [backingPage] at treeRem stackRem ⊢
    omega
  have top_eq : stackTopOf input staging =
    pageUp (treePhysOf input staging + input.deviceTree.length) + armBootStackBytes := rfl
  have page : backingPage = 16384 := rfl
  refine ⟨ok.args.kernelSize, kernelPage, arenaPage, Nat.dvd_sub stopPage kernelPage, stopPage, ?_,
    rfl, rfl, Nat.dvd_add stackPage (by decide), ?_, Nat.le_add_right _ _, ?_, ok.fits.stop⟩
  · change staging.arenaSize < stackTopOf input staging + reservedOf geometry - input.kernelPhys
    omega
  · change treePhysOf input staging + (backingPage + armBootStackBytes) ≤ stackTopOf input staging
    omega
  · change input.kernelPhys + (stackTopOf input staging + reservedOf geometry - input.kernelPhys) =
      stackTopOf input staging + reservedOf geometry
    omega

/-- A planned layout is never to blame, and windows that hold the handoff are taken. What is then
lent out is the allocation of the plan, and staging into it changes nothing else in RAM. -/
theorem backing_accepts_plan [UnstableSort] [Target] {source : Bytes}
    {input : Arm64PlacementInput} {plan : Arm64HandoffPlan} (made : Made source input plan)
    (ram : HostSlice) (ramBase : Nat) (tables : HostSlice) (tableBase : Nat) :
    Arm64HandoffBacking.new plan.layout ram ramBase tables tableBase ≠ .err .invalidLayout ∧
      (Suitable plan.layout ram ramBase tables tableBase →
        ∃ backing, Arm64HandoffBacking.new plan.layout ram ramBase tables tableBase = .ok backing ∧
          backing.ram = ram ∧
          ∃ lent, backing.handoffMut = .ok lent ∧
            lent = window ram.bytes (plan.layout.kernelPhys - ramBase)
              plan.layout.allocationBytes ∧
            lent.length = plan.layout.allocationBytes ∧
            (∃ verification, (plan.stageInto lent).1 = .ok verification) ∧
            plan.HandoffImage (plan.stageInto lent).2 ∧
            Patched ram.bytes (backing.afterLoan (plan.stageInto lent).2).ram.bytes
              (plan.layout.kernelPhys - ramBase) (plan.stageInto lent).2) := by
  have valid := made.validLayout
  have ok := made.stageable
  refine ⟨new_ne_invalidLayout valid, fun suitable => ?_⟩
  have taken := (new_yields plan.layout).eq_ok ⟨valid, suitable⟩
  have above := suitable.above
  have below := suitable.below
  have allocation := valid.allocation
  have ramFits := ram.fits
  have inside : plan.layout.kernelPhys - ramBase + plan.layout.allocationBytes ≤
      ram.bytes.length := by
    omega
  have length := length_window inside
  obtain ⟨verification, staged⟩ := plan.on_stageIntoObserved ok length []
  have image := Arm64HandoffPlan.handoffImage_contents ok
  refine ⟨_, taken, rfl, _, ?_, rfl, length, ?_⟩
  · simp only [handoffMut]
    rw [add_of_lt (by omega), bind_ok, index_of_le (Nat.le_add_right _ _) inside,
      Nat.add_sub_cancel_left]
  · rw [Arm64HandoffPlan.stageInto, staged]
    exact ⟨⟨verification, rfl⟩, image, patched_overlay (by rw [image.length]; exact inside)⟩

theorem backing_accepts_plan_sample :
    ∃ plan, @Made UnstableSort.insertion sampleArm sampleInput plan ∧
      ∃ ram tables backing, Arm64HandoffBacking.new plan.layout ram
        plan.layout.kernelPhys tables 0 =
        .ok backing := by
  obtain ⟨plan, made, start, stop⟩ := exists_samplePlan
  have valid := @Made.validLayout UnstableSort.insertion _ _ _ (.inr ⟨_, made⟩)
  have allocation := valid.allocation
  have behindKernel := valid.behindKernel
  have page : backingPage = 16384 := rfl
  have limit : paLimit = 2 ^ 48 := rfl
  let ram : HostSlice := ⟨2 ^ 32, List.replicate plan.layout.allocationBytes 165, by
    rw [List.length_replicate]; omega⟩
  let tables : HostSlice := ⟨backingPage, List.replicate backingPage 0, by
    rw [List.length_replicate]; decide⟩
  have ramLength : ram.bytes.length = plan.layout.allocationBytes := List.length_replicate
  have tableLength : tables.bytes.length = backingPage := List.length_replicate
  have suitable : Suitable plan.layout ram plan.layout.kernelPhys tables 0 := by
    refine ⟨?_, ?_, ?_, ?_, Nat.le_refl _, ?_⟩
    · rw [ramLength]
      exact ⟨valid.kernelPage, by omega, valid.allocationBytes, by omega⟩
    · rw [tableLength]
      exact ⟨by decide, by decide, by decide, by decide⟩
    · simp only [Span.Apart, Span.stop, tableLength]
      omega
    · simp only [HostSlice.span, Span.Apart, Span.stop, tableLength]
      exact .inr (show backingPage + backingPage ≤ 2 ^ 32 by decide)
    · rw [ramLength]
      exact valid.allocation.ge
  obtain ⟨backing, taken, _⟩ := (@backing_accepts_plan UnstableSort.insertion Target.aligned _ _ _
    (.inr ⟨_, made⟩) ram plan.layout.kernelPhys tables 0).2 suitable
  exact ⟨plan, .inr ⟨_, made⟩, ram, tables, backing, taken⟩

end Nextcore.Handoff
