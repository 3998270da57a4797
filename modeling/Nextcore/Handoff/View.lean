import Nextcore.Handoff.Backing
import Nextcore.Lib.Translation
import Nextcore.Stage1.Capacity

/-!
What the guest sees of a staged handoff.

The collection is staged at the displacement of its linked addresses, and the stage-1 tables map
the same displacement. So behind the walk of the tables every file byte is at its linked address
(`Linked.collection`, `Linked.member`), and the pointers in the boot arguments lead to what they
name (`SeesHandoff`).
-/

namespace Nextcore.Handoff

open Checked Checked.Outcome
open KcStaging BootArgs KernelCollection
open Stage1 (Arm64Stage1Tables Translates Stage1Alias)

/-! ### Behind the tables -/

/-- The bytes that the guest reads: RAM behind the walk of the tables. -/
def guest (t : Arm64Stage1Tables) (ramBase : Nat) (ram : Bytes) : Nat → Option UInt8 :=
  through t.walk (based ramBase ram)

/-- The file bytes of a range are in the file, and stored at an address. -/
structure StoresFile (memory : Nat → Option UInt8) (address : Nat) (source : Bytes)
    (offset size : Nat) : Prop where
  inside : offset + size ≤ source.length
  stored : Stored memory address (window source offset size)

/-! ### The linked collection -/

/-- The memory has the image of the collection at its linked addresses. -/
structure Linked (memory : Nat → Option UInt8) (source : Bytes) (staging : KcStagingPlan) :
    Prop where
  /-- The file bytes of the outer segments, and zeros elsewhere. -/
  collection : ∀ s ∈ staging.inspection.collection.segments, s.file.size ≠ 0 →
    StoresFile memory s.address source s.file.offset s.file.size
  elsewhere : ∀ va, staging.minimumVirtualAddress ≤ va →
    va < staging.minimumVirtualAddress + staging.arenaSize →
      (∀ s ∈ staging.inspection.collection.segments,
        ¬ (s.address ≤ va ∧ va < s.address + s.file.size)) → memory va = some 0
  /-- The headers and the file bytes of the members, at their own addresses. -/
  header : ∀ member ∈ staging.inspection.members,
    StoresFile memory member.image.headerAddress source member.image.headerFileOffset
      (32 + member.image.commandBytes)
  member : ∀ member ∈ staging.inspection.members, ∀ s ∈ member.image.segments,
    s.file.size ≠ 0 → StoresFile memory s.address source s.file.offset s.file.size

section Collection

variable {source : Bytes} {page first last : Nat} {staging : KcStagingPlan}
  {memory : Nat → Option UInt8}

/-- What the image shows of the source is stored at the linked address. -/
theorem storesFile_of_shows
    (image : Stored memory staging.minimumVirtualAddress staging.linkedImage)
    {address offset size : Nat} (above : staging.minimumVirtualAddress ≤ address)
    (inside : offset + size ≤ source.length)
    (shows' : Shows staging.linkedImage (address - staging.minimumVirtualAddress) source offset
      size) : StoresFile memory address source offset size := by
  have seen := image.part (address - staging.minimumVirtualAddress) size
  rw [Nat.add_sub_cancel' above] at seen
  have same : window staging.linkedImage (address - staging.minimumVirtualAddress + 0) size =
      window source (offset + 0) size := shows'.window_eq (Nat.zero_add size).le
  rw [Nat.add_zero, Nat.add_zero] at same
  refine ⟨inside, ?_⟩
  rw [← same]
  exact seen

theorem linked_of_image (planned : Planned source page first last staging) (positive : 0 < page)
    (image : Stored memory staging.minimumVirtualAddress staging.linkedImage) :
    Linked memory source staging := by
  have covers := (planned.pageSpan positive).covers
  have outer := planned.accepted.collection
  have view_stored {member : FilesetMember} (member_mem : member ∈ staging.inspection.members)
      {view : MemberView} (mem : view ∈ viewsOf staging.minimumVirtualAddress member)
      {address : Nat} (above : staging.minimumVirtualAddress ≤ address)
      (place : view.destinationOffset = address - staging.minimumVirtualAddress) :
      StoresFile memory address source view.fileOffset view.fileSize := by
    have viewed := planned.mem_memberViews.mpr ⟨member, member_mem, mem⟩
    have inside := (planned.sound.viewOk view viewed).inSource
    rw [planned.layout.fromSource] at inside
    exact storesFile_of_shows image above inside (place ▸ planned.shows_view viewed)
  refine ⟨?_, ?_, ?_, ?_⟩
  · intro s mem some'
    have ok := outer.each s mem
    have fits := ok.fileFits
    have covered := covers s mem (by omega)
    exact storesFile_of_shows image covered.1 ok.inside (planned.shows_segment mem)
  · intro va above below outside
    have zero := @Planned.zero_elsewhere _ _ _ _ _ planned (va - staging.minimumVirtualAddress)
      (by omega) (by
      intro s mem k inside same
      have fits := (outer.each s mem).fileFits
      have covered := covers s mem (by omega)
      exact outside s mem ⟨by omega, by omega⟩)
    have seen := image (va - staging.minimumVirtualAddress) (by
      rw [KcStagingPlan.length_linkedImage]
      omega)
    rwa [Nat.add_sub_cancel' above, zero] at seen
  · intro member mem
    have above := (planned.member_above positive mem).1
    exact view_stored mem List.mem_cons_self above rfl
  · intro member mem s s_mem some'
    have fits := ((planned.accepted.members member mem).1.each s s_mem).fileFits
    have takes : s ∈ nonempty member.image.segments := mem_nonempty.mpr ⟨s_mem, by omega⟩
    have above := (planned.member_above positive mem).2 s takes
    exact view_stored mem (List.mem_cons_of_mem _ (List.mem_map_of_mem takes)) above rfl

end Collection

/-! ### The handoff -/

/-- Tables that were made translate the ranges that they were made for. -/
theorem translates_of_new {physicalBase virtualBase memorySize : Nat} {t : Arm64Stage1Tables}
    (made : Arm64Stage1Tables.new physicalBase virtualBase memorySize = .ok t) :
    Translates t physicalBase virtualBase memorySize [] := by
  obtain ⟨⟨ok, _⟩, built⟩ := (Stage1.new_yields _ _ _).post_of_ok made
  refine Stage1.translates_of_built ok (by simp) ?_
  rwa [Stage1.aliasRequests, List.flatMap_nil, List.append_nil]

theorem translates_of_newWithAliases {physicalBase virtualBase memorySize : Nat}
    {aliases : List Stage1Alias} {t : Arm64Stage1Tables}
    (made : Arm64Stage1Tables.newWithAliases physicalBase virtualBase memorySize aliases = .ok t) :
    Translates t physicalBase virtualBase memorySize aliases := by
  obtain ⟨⟨_, ok, oks, _, _⟩, built⟩ := (Stage1.newWithAliases_yields _ _ _ _).post_of_ok made
  exact Stage1.translates_of_built ok oks built

/-- What the guest sees of a handoff whose arguments are at a virtual address. -/
structure SeesHandoff (t : Arm64Stage1Tables) (memory : Nat → Option UInt8) (source : Bytes)
    (plan : Arm64HandoffPlan) (argsVa : Nat) : Prop where
  linked : Linked memory source plan.staging
  /-- The linked entry and the physical one are the same byte. -/
  entry : ∃ va, entryAddress plan.staging.inspection.collection.entry = .ok va ∧
    t.walk va = some plan.layout.entryPhys ∧
      t.walk plan.layout.entryPhys = some plan.layout.entryPhys
  argsAddress : t.virtualAddress plan.layout.bootArgsPhys = .ok argsVa
  args : Stored memory argsVa plan.bootArgs.bytes
  /-- The pointer that is read in the arguments leads to the device tree. -/
  tree : ∃ pointer, (load memory (argsVa + 96) 8).map fromLeBytes = some pointer ∧
    Stored memory pointer plan.deviceTree
  /-- The stack has a virtual address, and is cleared there. -/
  stack : ∃ va, t.virtualAddress (plan.layout.stackTopPhys - armBootStackBytes) = .ok va ∧
    Stored memory va (List.replicate armBootStackBytes 0)
  /-- The base that is read in the video words leads to the cleared framebuffer. -/
  framebuffer : ∀ framebuffer ∈ plan.framebuffer, ∃ base,
    (load memory (argsVa + 40) 8).map fromLeBytes = some base ∧
      Stored memory base (List.replicate framebuffer.reservedBytes 0)

/-- The allocation lies in RAM, at the displacement of the linked addresses. -/
structure Placed (input : Arm64PlacementInput) (plan : Arm64HandoffPlan) : Prop where
  above : input.physicalBase ≤ plan.layout.kernelPhys
  below : plan.layout.kernelPhys + plan.layout.allocationBytes ≤
    input.physicalBase + input.memorySize
  linked : plan.staging.minimumVirtualAddress =
    input.virtualBase + (plan.layout.kernelPhys - input.physicalBase)

theorem placed_planOf {input : Arm64PlacementInput} {staging : KcStagingPlan}
    {geometry : Option Arm64FramebufferGeometry} (ok : BuildOk input staging geometry) :
    Placed input (planOf input staging geometry) := by
  have topBelow : stackTopOf input staging + reservedOf geometry <
    input.physicalBase + input.memorySize := ok.args.topBelow
  have tree := le_pageUp (treePhysOf input staging + input.deviceTree.length)
  have tree_eq :
    treePhysOf input staging = input.kernelPhys + staging.arenaSize + vmapplePageSize :=
    rfl
  have top_eq : stackTopOf input staging =
    pageUp (treePhysOf input staging + input.deviceTree.length) + armBootStackBytes := rfl
  refine ⟨ok.corresponds.kernelAbove, ?_, ok.corresponds.linked.symm⟩
  change input.kernelPhys + (stackTopOf input staging + reservedOf geometry - input.kernelPhys) ≤ _
  omega

section Placement

variable {input : Arm64PlacementInput} {plan : Arm64HandoffPlan} {t : Arm64Stage1Tables}
  {aliases : List Stage1Alias} {ramBase : Nat} {ram : Bytes}

/-- An address of the allocation has the linked address at the same displacement. -/
theorem Placed.virtualAddress (placed : Placed input plan)
    (translates : Translates t input.physicalBase input.virtualBase input.memorySize aliases)
    {offset : Nat} (inside : offset < plan.layout.allocationBytes) :
    t.walk (plan.staging.minimumVirtualAddress + offset) =
        some (plan.layout.kernelPhys + offset) ∧
      t.walk (plan.layout.kernelPhys + offset) = some (plan.layout.kernelPhys + offset) ∧
      t.virtualAddress (plan.layout.kernelPhys + offset) =
        .ok (plan.staging.minimumVirtualAddress + offset) := by
  obtain ⟨above, below, linked⟩ := placed
  have walk : t.walk (plan.staging.minimumVirtualAddress + offset) =
      some (plan.layout.kernelPhys + offset) :=
    (translates.walk _ _).mpr (.inr (.inl ⟨by omega, by omega, by omega⟩))
  refine ⟨walk, (translates.walk _ _).mpr (.inl ⟨by omega, by omega, by omega⟩), ?_⟩
  exact translates.inverse' _ _ (by omega) (by omega) walk

/-- What RAM has at the allocation is seen at the linked addresses and at the physical ones. -/
theorem Placed.seen (placed : Placed input plan)
    (translates : Translates t input.physicalBase input.virtualBase input.memorySize aliases)
    {cells : Bytes} (size : cells.length = plan.layout.allocationBytes)
    (stored : Stored (based ramBase ram) plan.layout.kernelPhys cells) :
    Stored (guest t ramBase ram) plan.staging.minimumVirtualAddress cells ∧
      Stored (guest t ramBase ram) plan.layout.kernelPhys cells := by
  have maps (k : Nat) (below : k < cells.length) :=
    placed.virtualAddress translates (size ▸ below)
  exact ⟨Maps.stored (fun k below => (maps k below).1) stored (Nat.le_refl _),
    Maps.stored (fun k below => (maps k below).2.1) stored (Nat.le_refl _)⟩

end Placement

/-- A word of what is stored is what a load of it returns. -/
theorem load_word {memory : Nat → Option UInt8} {start offset : Nat} {cells : Bytes}
    (stored : Stored memory start cells) (inside : offset + 8 ≤ cells.length) :
    (load memory (start + offset) 8).map fromLeBytes = some (wordAt 8 cells offset) := by
  have loaded := stored_iff_load.mp (stored.part offset 8)
  have length : ((cells.drop offset).take 8).length = 8 := length_window inside
  rw [length] at loaded
  rw [loaded]
  rfl

section Planned

variable {input : Arm64PlacementInput} {staging : KcStagingPlan}
  {geometry : Option Arm64FramebufferGeometry}

/-- The pointer of a plan to its device tree. -/
theorem word_treePointer (ok : BuildOk input staging geometry) :
    wordAt 8 (planOf input staging geometry).bootArgs.bytes 96 =
      staging.minimumVirtualAddress + (planOf input staging geometry).treeAt := by
  have linked := ok.corresponds.linked
  have above := ok.corresponds.kernelAbove
  refine (word_encodingOf ok.args).trans ?_
  change input.virtualBase + (treePhysOf input staging - input.physicalBase) =
    staging.minimumVirtualAddress + (treePhysOf input staging - input.kernelPhys)
  rw [treePhysOf]
  omega

/-- The video words of a plan with a framebuffer have its base. -/
theorem word_videoBase {g : Arm64FramebufferGeometry} (ok : BuildOk input staging (some g)) :
    wordAt 8 (planOf input staging (some g)).bootArgs.bytes 40 = stackTopOf input staging := by
  have mem {dtVirtual : Nat} : (40, stackTopOf input staging) ∈
      wordFields (argsInputOf input staging (some g)) dtVirtual :=
    List.mem_cons_of_mem _ (List.mem_cons_of_mem _ (List.mem_cons_of_mem _
      (List.mem_cons_of_mem _ List.mem_cons_self)))
  simpa only [wordAt, planOf, encodingOf] using
    word_argsBlock ok.args.shortLine mem ok.fits.stack

/-- The stack and the framebuffer lie behind the tree, in the allocation. -/
theorem behind_tree (input : Arm64PlacementInput) (staging : KcStagingPlan)
    (geometry : Option Arm64FramebufferGeometry) :
    ∃ offset, (planOf input staging geometry).treeAt + input.deviceTree.length ≤ offset ∧
      stackTopOf input staging - armBootStackBytes = input.kernelPhys + offset ∧
      stackTopOf input staging = input.kernelPhys + (offset + armBootStackBytes) ∧
      (planOf input staging geometry).layout.allocationBytes =
        offset + armBootStackBytes + reservedOf geometry := by
  have rounded := le_pageUp (treePhysOf input staging + input.deviceTree.length)
  have tree_eq :
    treePhysOf input staging = input.kernelPhys + staging.arenaSize + vmapplePageSize :=
    rfl
  have top_eq : stackTopOf input staging =
    pageUp (treePhysOf input staging + input.deviceTree.length) + armBootStackBytes := rfl
  refine ⟨pageUp (treePhysOf input staging + input.deviceTree.length) - input.kernelPhys, ?_,
    ?_, ?_, ?_⟩
  · change treePhysOf input staging - input.kernelPhys + input.deviceTree.length ≤ _
    omega
  · omega
  · omega
  · change stackTopOf input staging + reservedOf geometry - input.kernelPhys = _
    omega

end Planned

/-- Behind the device tree, the allocation is cleared. -/
theorem zeros_stored {plan : Arm64HandoffPlan} [Target] (stageable : plan.Stageable)
    {memory : Nat → Option UInt8} {start : Nat} (stored : Stored memory start plan.contents)
    {offset count : Nat} (behind : plan.treeAt + plan.deviceTree.length ≤ offset)
    (inside : offset + count ≤ plan.layout.allocationBytes) :
    Stored memory (start + offset) (List.replicate count 0) := by
  obtain ⟨argsAt, treeAt, _⟩ := stageable.offsets
  have image := Arm64HandoffPlan.handoffImage_contents stageable
  have front := stageable.front
  have page : arm64BootArgsSize ≤ vmapplePageSize := by decide
  refine stored.sub (by rwa [List.length_replicate, image.length]) fun k below => ?_
  rw [List.length_replicate] at below
  rw [List.getElem?_replicate_of_lt below]
  refine image.zero _ (by omega) (by omega) ?_ ?_
  · rw [Span.mem_bytes, Span.stop_mk]
    dsimp only
    omega
  · rw [Span.mem_bytes, Span.stop_mk]
    dsimp only
    omega

/-- Where the contents of a plan are stored, its collection, its arguments and its tree are. -/
theorem contents_stored {plan : Arm64HandoffPlan} [Target] (stageable : plan.Stageable)
    {memory : Nat → Option UInt8} {start : Nat} (stored : Stored memory start plan.contents) :
    Stored memory start plan.staging.linkedImage ∧
      Stored memory (start + plan.argsAt) plan.bootArgs.bytes ∧
        Stored memory (start + plan.treeAt) plan.deviceTree := by
  have image := Arm64HandoffPlan.handoffImage_contents stageable
  have front := ((plan.eq_contents_iff stageable image.length).mp rfl).1
  have collection := stored.part 0 plan.layout.kernelBytes
  have args := stored.part plan.argsAt arm64BootArgsSize
  have tree := stored.part plan.treeAt plan.deviceTree.length
  rw [show (plan.contents.drop _).take _ = _ from front, Nat.add_zero] at collection
  rw [show (plan.contents.drop plan.argsAt).take arm64BootArgsSize = _ from image.args] at args
  rw [show (plan.contents.drop plan.treeAt).take _ = _ from image.tree] at tree
  exact ⟨collection, args, tree⟩

/-- The tables of the placement show a handoff that lies in RAM at its place, wherever RAM
begins. -/
theorem seesHandoff_of_stored [UnstableSort] [Target] {source : Bytes}
    {input : Arm64PlacementInput} {plan : Arm64HandoffPlan} (made : Made source input plan)
    {t : Arm64Stage1Tables} {aliases : List Stage1Alias} {ramBase : Nat} {ram : Bytes}
    (translates : Translates t input.physicalBase input.virtualBase input.memorySize aliases)
    (stored : Stored (based ramBase ram) plan.layout.kernelPhys plan.contents) :
    SeesHandoff t (guest t ramBase ram) source plan
      (plan.staging.minimumVirtualAddress + plan.argsAt) := by
  have stageable := made.stageable
  obtain ⟨argsAt, treeAt, inside⟩ := stageable.offsets
  have size := (Arm64HandoffPlan.handoffImage_contents stageable).length
  have argsSize := stageable.argsSize
  obtain ⟨geometry, _, built⟩ := made.built
  obtain ⟨staging, staged, ok, rfl⟩ := build_eq_ok.mp built
  obtain ⟨_, first, last, planned⟩ := @planned_of_ok _ .arm64 _ _ staged
  have positive : 0 < pageSizeOf .arm64 := by decide
  have placed := placed_planOf ok
  obtain ⟨linked, physical⟩ := placed.seen translates size stored
  obtain ⟨collection, args, tree⟩ := contents_stored stageable linked
  -- Every offset of the collection, and that of the arguments, is in the allocation.
  have room {offset : Nat} (below : offset ≤ staging.arenaSize) :
      offset < (planOf input staging geometry).layout.allocationBytes := by
    have page : 0 < vmapplePageSize := by decide
    rw [treeAt] at inside
    exact Nat.lt_of_lt_of_le (Nat.lt_of_le_of_lt below (Nat.lt_add_of_pos_right page))
      ((Nat.le_add_right _ _).trans inside)
  refine ⟨linked_of_image planned positive collection, ?_, ?_, args, ?_, ?_, ?_⟩
  · obtain ⟨entry, below⟩ := planned.entry_inside positive
    obtain ⟨virtual, physical, _⟩ := placed.virtualAddress translates (room (Nat.le_of_lt below))
    exact ⟨_, entry, virtual, physical⟩
  · rw [argsAt]
    exact (placed.virtualAddress translates (room (Nat.le_refl _))).2.2
  · refine ⟨_, load_word args (by rw [argsSize]; decide), ?_⟩
    rw [word_treePointer ok]
    exact tree
  · obtain ⟨offset, behind, stack, top, size⟩ := behind_tree input staging geometry
    have stored := zeros_stored stageable linked behind (size ▸ Nat.le_add_right _ _)
    refine ⟨_, ?_, stored⟩
    rw [show (planOf input staging geometry).layout.stackTopPhys - armBootStackBytes = _ from stack]
    exact (placed.virtualAddress translates (by
      rw [size]
      exact Nat.lt_of_lt_of_le (Nat.lt_add_of_pos_right (by decide)) (Nat.le_add_right _ _))).2.2
  · intro framebuffer mem
    obtain ⟨g, rfl, rfl⟩ := Option.map_eq_some_iff.mp mem
    obtain ⟨offset, behind, stack, top, size⟩ := behind_tree input staging (some g)
    refine ⟨_, load_word args (by rw [argsSize]; decide), ?_⟩
    rw [word_videoBase ok, top]
    exact zeros_stored stageable physical (behind.trans (Nat.le_add_right _ _)) size.ge

/-! ### The staged RAM -/

/-- The RAM that a backing has once the plan was staged into what it lends out. -/
def stagedRam [Target] (plan : Arm64HandoffPlan) (backing : Arm64HandoffBacking) :
    Outcome Arm64BackingError Bytes := do
  let lent ← backing.handoffMut
  pure (backing.afterLoan (plan.stageInto lent).2).ram.bytes

/-- A backing of the plan's layout is staged, and then has the contents of the plan at their
place. -/
theorem stagedRam_of_taken [UnstableSort] [Target] {source : Bytes}
    {input : Arm64PlacementInput} {plan : Arm64HandoffPlan} (made : Made source input plan)
    {ram tables : HostSlice} {ramBase tableBase : Nat} {backing : Arm64HandoffBacking}
    (taken : Arm64HandoffBacking.new plan.layout ram ramBase tables tableBase = .ok backing) :
    ∃ staged, stagedRam plan backing = .ok staged ∧ staged.length = ram.bytes.length ∧
      Stored (based ramBase staged) plan.layout.kernelPhys plan.contents := by
  obtain ⟨⟨valid, suitable⟩, rfl⟩ := (Arm64HandoffBacking.new_yields _).post_of_ok taken
  have stageable := made.stageable
  have size := (Arm64HandoffPlan.handoffImage_contents stageable).length
  have above := suitable.above
  have below := suitable.below
  have allocation := valid.allocation
  have ramFits := ram.fits
  have inside : plan.layout.kernelPhys - ramBase + plan.layout.allocationBytes ≤
      ram.bytes.length := by
    omega
  obtain ⟨verification, staged⟩ :=
    plan.on_stageIntoObserved stageable (length_window inside) []
  have lent : Arm64HandoffBacking.handoffMut ⟨ram, ramBase, tables, tableBase,
      plan.layout.kernelPhys - ramBase, plan.layout.allocationBytes⟩ =
        .ok (window ram.bytes (plan.layout.kernelPhys - ramBase) plan.layout.allocationBytes) := by
    have word : plan.layout.kernelPhys - ramBase + plan.layout.allocationBytes < 2 ^ 64 := by
      omega
    rw [Arm64HandoffBacking.handoffMut, add_of_lt word, bind_ok,
      index_of_le (Nat.le_add_right _ _) inside, Nat.add_sub_cancel_left]
  refine ⟨overlay ram.bytes (plan.layout.kernelPhys - ramBase) plan.contents, ?_,
    length_overlay .., ?_⟩
  · rw [stagedRam, lent, bind_ok, Arm64HandoffPlan.stageInto, staged]
    rfl
  · have stored := stored_based ramBase
      (overlay ram.bytes (plan.layout.kernelPhys - ramBase) plan.contents)
      (plan.layout.kernelPhys - ramBase) plan.contents.length
    rw [Nat.add_sub_cancel' above] at stored
    have written : window (overlay ram.bytes (plan.layout.kernelPhys - ramBase) plan.contents)
        (plan.layout.kernelPhys - ramBase) plan.contents.length = plan.contents :=
      window_overlay_self (by rwa [size])
    rwa [show List.take _ (List.drop _ _) = _ from written] at stored

/-- Behind the tables of its placement, a staged handoff is where it is linked: the guest finds
every file byte of the collection at its linked address, what the arguments point to, and the
cleared stack at the virtual address of its place. -/
theorem guest_sees_handoff [UnstableSort] [Target] {source : Bytes}
    {input : Arm64PlacementInput} {plan : Arm64HandoffPlan} (made : Made source input plan)
    {ram tables : HostSlice} {ramBase tableBase : Nat} {backing : Arm64HandoffBacking}
    (taken : Arm64HandoffBacking.new plan.layout ram ramBase tables tableBase = .ok backing)
    {t : Arm64Stage1Tables}
    (built : Arm64Stage1Tables.new input.physicalBase input.virtualBase input.memorySize = .ok t) :
    ∃ staged args, stagedRam plan backing = .ok staged ∧
      SeesHandoff t (guest t ramBase staged) source plan args := by
  obtain ⟨staged, done, _, stored⟩ := stagedRam_of_taken made taken
  exact ⟨staged, _, done, seesHandoff_of_stored made (translates_of_new built) stored⟩

/-- The whole memory of the sample placement, with a page for tables behind it. -/
theorem exists_sampleBacking :
    ∃ plan ram tables backing, @Made UnstableSort.insertion sampleArm sampleInput plan ∧
      Arm64HandoffBacking.new plan.layout ram 0x40000000 tables 0x60000000 = .ok backing ∧
        ram.bytes.length = 0x20000000 ∧ plan.layout.occupiedEnd = 0x40024000 := by
  obtain ⟨plan, made, bounds⟩ := isOkAnd_iff.mp
    (show (@Arm64HandoffPlan.newWithFramebuffer UnstableSort.insertion sampleArm sampleInput
      ⟨17, 257, 80⟩).isOkAnd (fun plan => plan.layout.kernelPhys = 0x40000000 ∧
        plan.layout.occupiedEnd = 0x40024000) = true by decide +kernel)
  obtain ⟨start, stop⟩ := of_decide_eq_true bounds
  have made' : @Made UnstableSort.insertion sampleArm sampleInput plan := .inr ⟨_, made⟩
  have valid := @Made.validLayout UnstableSort.insertion _ _ _ made'
  let ram : HostSlice := ⟨2 ^ 32, List.replicate 0x20000000 165, by
    rw [List.length_replicate]; decide⟩
  let tables : HostSlice := ⟨backingPage, List.replicate backingPage 0, by
    rw [List.length_replicate]; decide⟩
  have ramLength : ram.bytes.length = 0x20000000 := List.length_replicate
  have tableLength : tables.bytes.length = backingPage := List.length_replicate
  have suitable : Arm64HandoffBacking.Suitable plan.layout ram 0x40000000 tables 0x60000000 := by
    refine ⟨?_, ?_, ?_, ?_, start.ge, ?_⟩
    · rw [ramLength]
      exact ⟨by decide, by decide, by decide, by decide⟩
    · rw [tableLength]
      exact ⟨by decide, by decide, by decide, by decide⟩
    · simp only [Span.Apart, Span.stop, ramLength, tableLength]
      decide
    · simp only [HostSlice.span, Span.Apart, Span.stop, ramLength, tableLength]
      decide
    · rw [ramLength, stop]
      decide
  obtain ⟨backing, taken, _⟩ :=
    (@Arm64HandoffBacking.new_yields ram tables 0x40000000 0x60000000 plan.layout).1
      ⟨valid, suitable⟩
  exact ⟨plan, ram, tables, backing, made', taken, ramLength, stop⟩

theorem sampleRam_ok : Stage1.RamOk 0x40000000 0xfffffe0000000000 0x20000000 := by
  constructor <;> decide

theorem guest_sees_handoff_sample :
    ∃ plan, @Made UnstableSort.insertion sampleArm sampleInput plan ∧
      ∃ t ram args, @SeesHandoff t (guest t 0x40000000 ram) sampleArm plan args := by
  obtain ⟨plan, ram, tables, backing, made, taken, _, _⟩ := exists_sampleBacking
  obtain ⟨t, built⟩ := Stage1.new_total sampleRam_ok
  obtain ⟨staged, args, _, sees⟩ :=
    @guest_sees_handoff UnstableSort.insertion Target.aligned _ _ _ made _ _ _ _ _ taken _ built
  exact ⟨plan, made, t, staged, args, sees⟩

end Nextcore.Handoff
