import Nextcore.Handoff.View
import Nextcore.StartupImage.Staged

/-!
What the guest sees of the startup companions.

The companions are staged behind what the handoff occupies, so they leave it as it is, and each
is mapped once more at its linked addresses. The alias tables can be made whenever the linked
spans lie in the high half and apart (`companion_aliases_accepted`); behind them the guest finds
the handoff and both companions where they are linked (`guest_sees_companions`).
-/

namespace Nextcore.Handoff

open Checked Checked.Outcome Checked.Exec
open KcStaging BootArgs
open Stage1 (Arm64Stage1Tables Translates Stage1Alias RamOk AliasOk)
open StartupImage (ImagePlacement StartupPlacement declaredSegments stageStartupImages)

/-! ### Aliases of a placement -/

/-- The alias that maps a companion at its linked addresses. -/
def aliasOf (placement : ImagePlacement) : Stage1Alias :=
  ⟨placement.virtualBase, placement.physicalBase, placement.bytes⟩

/-- The aliases of a placement. -/
def aliasesOf (placement : StartupPlacement) : List Stage1Alias :=
  [aliasOf placement.sptm, aliasOf placement.txm]

/-- Tables with aliases can be made for whatever is accepted. -/
theorem newWithAliases_total {physicalBase virtualBase memorySize : Nat}
    {aliases : List Stage1Alias} (few : aliases.length ≤ 2)
    (ok : RamOk physicalBase virtualBase memorySize)
    (oks : ∀ a ∈ aliases, AliasOk physicalBase virtualBase memorySize a)
    (clear : aliases.Pairwise fun b a => Stage1.Clear a b) :
    ∃ t, Arm64Stage1Tables.newWithAliases physicalBase virtualBase memorySize aliases = .ok t := by
  have mappable := Stage1.mappable_of_accepted few ok oks clear
  obtain ⟨t, made, _⟩ := (Stage1.newWithAliases_yields _ _ _ _).1 ⟨few, ok, oks, clear, mappable⟩
  exact ⟨t, made⟩

section Parsed

open StartupImage

variable [UnstableSort] {source : Bytes} {image : Image}

/-- The linked span of an image starts at a page, and ends in its word. -/
theorem planImage_span {commandBytes : Nat} {scan : Scan}
    (done : planImage source commandBytes scan = .ok image) :
    StartupImage.pageSize ∣ image.virtualBase ∧ image.virtualBase + image.span < 2 ^ 64 := by
  rw [planImage] at done
  iterate 2 obtain ⟨_, _, done⟩ := bind_eq_ok.mp done
  obtain ⟨first, _, done⟩ := bind_eq_ok.mp done
  iterate 7 obtain ⟨_, _, done⟩ := bind_eq_ok.mp done
  obtain ⟨virtualEnd, rounded, done⟩ := bind_eq_ok.mp done
  obtain ⟨word, rfl⟩ := alignUp_eq_ok.mp rounded
  obtain ⟨span, spans, done⟩ := bind_eq_ok.mp done
  have page : andNot first.vmaddr (StartupImage.pageSize - 1) =
      roundDown StartupImage.pageSize first.vmaddr := andNot_two_pow _ 14
  rw [ofOption_eq_ok, checkedSub_eq_some, page] at spans
  obtain ⟨below, rfl⟩ := spans
  iterate 2 obtain ⟨_, _, done⟩ := bind_eq_ok.mp done
  cases done
  dsimp only
  rw [page, Nat.add_sub_cancel' below]
  refine ⟨dvd_roundDown _ _, ?_⟩
  exact Nat.lt_of_le_of_lt (roundDown_le _ _) word

theorem parseImage_span (done : parseImage source = .ok image) :
    StartupImage.pageSize ∣ image.virtualBase ∧ image.virtualBase + image.span < 2 ^ 64 := by
  rw [parseImage] at done
  iterate 21 obtain ⟨_, _, done⟩ := bind_eq_ok.mp done
  exact planImage_span done

end Parsed

/-! ### Where the companions lie -/

/-- A companion is in RAM, with a linked span that an alias can have. -/
structure CompanionAt (ramBase : Nat) (ram source : Bytes) (placement : ImagePlacement) :
    Prop where
  image : ∃ linked, StartupImage.Shows source placement linked ∧
    Stored (based ramBase ram) placement.physicalBase linked
  virtual_page : Stage1.pageSize ∣ placement.virtualBase
  physical_page : Stage1.pageSize ∣ placement.physicalBase
  size_page : Stage1.pageSize ∣ placement.bytes
  positive : 0 < placement.bytes
  small : placement.bytes ≤ Stage1.maxAliasBytes
  word : placement.virtualBase + placement.bytes < 2 ^ 64

/-- What the staging of the companions leaves in RAM. -/
structure Accompanied (sptm txm : Bytes) (ramBase occupiedEnd : Nat) (before after : Bytes)
    (placement : StartupPlacement) : Prop where
  sptm : CompanionAt ramBase after sptm placement.sptm
  txm : CompanionAt ramBase after txm placement.txm
  behind : occupiedEnd ≤ placement.sptm.physicalBase
  behind_base : ramBase ≤ placement.sptm.physicalBase
  follows : placement.sptm.physicalBase + placement.sptm.bytes ≤ placement.txm.physicalBase
  inside : placement.txm.physicalBase + placement.txm.bytes ≤ ramBase + before.length
  kept : ∀ i, ramBase + i < occupiedEnd → after[i]? = before[i]?

section Staging

open StartupImage

variable [UnstableSort]

theorem companionAt_of_parsed {source ram : Bytes} {image : Image} {placement : ImagePlacement}
    {ramBase : Nat} (parsed : parseImage source = .ok image)
    (page : StartupImage.pageSize ∣ placement.physicalBase)
    (above : ramBase ≤ placement.physicalBase)
    (placed : placement = ⟨placement.physicalBase, image.virtualBase, image.span,
      image.copiedBytes⟩)
    (shown : window ram (placement.physicalBase - ramBase) image.span = image.linked) :
    CompanionAt ramBase ram source placement := by
  have ok := parseImage_eq_ok parsed
  obtain ⟨virtual_page, word⟩ := parseImage_span parsed
  have stored := stored_based ramBase ram (placement.physicalBase - ramBase) image.span
  rw [Nat.add_sub_cancel' above, show List.take _ (List.drop _ _) = _ from shown] at stored
  rw [placed] at page stored ⊢
  exact ⟨⟨image.linked, ok.shows rfl rfl rfl, stored⟩, virtual_page, page, ok.span_page,
    ok.positive, ok.small, word⟩

theorem accompanied_of_done {sptm txm before after : Bytes} {ramBase occupiedEnd : Nat}
    {placement : StartupPlacement}
    (done : (stageStartupImages sptm txm ramBase occupiedEnd).on before = (.ok placement, after)) :
    Accompanied sptm txm ramBase occupiedEnd before after placement := by
  obtain ⟨sptmImage, parsed, rest⟩ := on_look_bind_eq_ok.mp done
  obtain ⟨txmImage, parsed', rest⟩ := on_look_bind_eq_ok.mp rest
  obtain ⟨places, decided, _⟩ := on_look_bind_eq_ok.mp rest
  rw [on_stageStartupImages parsed parsed' decided] at done
  cases done
  have placed := place_eq_ok decided
  have behind := placed.behind
  have follows := placed.follows
  have stop := placed.stop
  have inside := placed.inside
  have sptm_offset := placed.sptm_offset
  have txm_offset := placed.txm_offset
  have sptm_length := length_linked sptmImage
  have txm_length := length_linked txmImage
  have sptm_bytes : places.result.sptm.bytes = sptmImage.span := by rw [placed.sptm_eq]
  have txm_bytes : places.result.txm.bytes = txmImage.span := by rw [placed.txm_eq]
  have sptm_shown : window (overlay (overlay before places.sptmOffset sptmImage.linked)
      places.txmOffset txmImage.linked) places.sptmOffset sptmImage.span = sptmImage.linked := by
    rw [window_overlay_of_apart (.inl (by omega)), ← sptm_length]
    exact window_overlay_self (by omega)
  have txm_shown : window (overlay (overlay before places.sptmOffset sptmImage.linked)
      places.txmOffset txmImage.linked) places.txmOffset txmImage.span = txmImage.linked := by
    rw [← txm_length]
    exact window_overlay_self (by rw [length_overlay]; omega)
  refine ⟨?_, ?_, ?_, ?_, ?_, ?_, ?_⟩
  · exact companionAt_of_parsed parsed placed.sptm_page (by omega) placed.sptm_eq
      (by rwa [← sptm_offset])
  · exact companionAt_of_parsed parsed' placed.txm_page (by omega) placed.txm_eq
      (by rwa [← txm_offset])
  · omega
  · omega
  · omega
  · omega
  · intro i below
    rw [getElem?_overlay, if_neg (by omega), getElem?_overlay, if_neg (by omega)]

end Staging

/-! ### The view -/

/-- The guest finds the file bytes of a companion at its linked addresses, and zeros elsewhere in
its span. -/
structure SeesCompanion (memory : Nat → Option UInt8) (source : Bytes)
    (placement : ImagePlacement) : Prop where
  segment : ∀ s ∈ declaredSegments source,
    StoresFile memory s.vmaddr source s.fileoff s.filesize
  elsewhere : ∀ va, placement.virtualBase ≤ va → va < placement.virtualBase + placement.bytes →
    (∀ s ∈ declaredSegments source, ¬ (s.vmaddr ≤ va ∧ va < s.vmaddr + s.filesize)) →
      memory va = some 0

theorem seesCompanion_of_shows {memory : Nat → Option UInt8} {source linked : Bytes}
    {placement : ImagePlacement} (shown : StartupImage.Shows source placement linked)
    (stored : Stored memory placement.virtualBase linked) :
    SeesCompanion memory source placement := by
  have length := shown.length
  constructor
  · intro s mem
    obtain ⟨low, high, inside, same⟩ := shown.segment s mem
    have size := length_window inside
    have part : Stored memory (placement.virtualBase + (s.vmaddr - placement.virtualBase))
        (window source s.fileoff s.filesize) := by
      refine stored.sub (by omega) fun k below => ?_
      rw [getElem?_window, if_pos (size ▸ below)]
      exact same k (size ▸ below)
    rw [Nat.add_sub_cancel' low] at part
    exact ⟨inside, part⟩
  · intro va above below outside
    have zero := shown.zero (va - placement.virtualBase) (by omega) fun s mem within => by
      have low := (shown.segment s mem).1
      exact outside s mem ⟨by omega, by omega⟩
    have seen := stored (va - placement.virtualBase) (by omega)
    rwa [Nat.add_sub_cancel' above, zero] at seen

/-- A companion in RAM is seen where its alias maps it. -/
theorem seesCompanion_of_alias {t : Arm64Stage1Tables}
    {physicalBase virtualBase memorySize ramBase : Nat} {aliases : List Stage1Alias}
    {ram source : Bytes} {image : ImagePlacement}
    (translates : Translates t physicalBase virtualBase memorySize aliases)
    (mem : aliasOf image ∈ aliases) (at' : CompanionAt ramBase ram source image) :
    SeesCompanion (guest t ramBase ram) source image := by
  obtain ⟨linked, shown, stored⟩ := at'.image
  have maps : Maps t.walk image.virtualBase image.physicalBase image.bytes := by
    intro k below
    refine (translates.walk _ _).mpr (.inr (.inr ⟨_, mem, ?_⟩))
    exact ⟨Nat.le_add_right _ _, Nat.add_lt_add_left below _, by
      rw [aliasOf, Nat.add_sub_cancel_left]⟩
  exact seesCompanion_of_shows shown (maps.stored stored shown.length.le)

/-! ### Two small companions -/

/-- A companion of one segment at a linked address. -/
def companionAt (address : Nat) : Bytes :=
  packWords [(4, 0xfeedfacf), (4, 0x0100000c), (4, 2), (4, 2), (4, 1), (4, 72),
    (4, 0x200001), (4, 0), (4, 0x19), (4, 72), (8, 0), (8, 0), (8, address), (8, 0x200), (8, 0),
    (8, 104), (4, 5), (4, 5), (4, 0), (4, 0)]

/-- Where they are placed in the sample memory. -/
def samplePlacement : StartupPlacement where
  sptm := ⟨0x40024000, 0xfffffff010000000, 0x4000, 104⟩
  txm := ⟨0x40028000, 0xfffffff020000000, 0x4000, 104⟩
  occupiedEnd := 0x4002c000

/-- They are staged in any memory of the sample's size. -/
theorem samplePlacement_staged {memory : Bytes} (size : memory.length = 0x20000000) :
    ∃ after, (@stageStartupImages UnstableSort.insertion (companionAt 0xfffffff010000000)
      (companionAt 0xfffffff020000000) 0x40000000 0x40024000).on memory =
        (.ok samplePlacement, after) := by
  have sptm : @StartupImage.parseImage UnstableSort.insertion (companionAt 0xfffffff010000000) =
      .ok ⟨companionAt 0xfffffff010000000, [⟨0xfffffff010000000, 0x200, 0, 104⟩],
        0xfffffff010000000, 0x4000, 104⟩ := by
    decide +kernel
  have txm : @StartupImage.parseImage UnstableSort.insertion (companionAt 0xfffffff020000000) =
      .ok ⟨companionAt 0xfffffff020000000, [⟨0xfffffff020000000, 0x200, 0, 104⟩],
        0xfffffff020000000, 0x4000, 104⟩ := by
    decide +kernel
  have placed : StartupImage.place ⟨companionAt 0xfffffff010000000,
      [⟨0xfffffff010000000, 0x200, 0, 104⟩], 0xfffffff010000000, 0x4000, 104⟩
      ⟨companionAt 0xfffffff020000000, [⟨0xfffffff020000000, 0x200, 0, 104⟩], 0xfffffff020000000,
        0x4000, 104⟩ 0x40000000 0x40024000 memory.length =
        .ok ⟨samplePlacement, 0x24000, 0x28000, 0x28000, 0x2c000⟩ := by
    rw [size]
    rfl
  exact ⟨_, @StartupImage.on_stageStartupImages UnstableSort.insertion _ _ _ _ _ _ _ _ sptm txm
    placed⟩

/-- They can be mapped at their linked addresses. -/
theorem exists_sampleTables :
    ∃ t, Arm64Stage1Tables.newWithAliases 0x40000000 0xfffffe0000000000 0x20000000
      (aliasesOf samplePlacement) = .ok t := by
  have oks : ∀ a ∈ aliasesOf samplePlacement,
      AliasOk 0x40000000 0xfffffe0000000000 0x20000000 a := by
    simp only [aliasesOf, List.forall_mem_cons, List.not_mem_nil, false_implies, implies_true,
      and_true]
    exact ⟨by constructor <;> decide, by constructor <;> decide⟩
  have clear : (aliasesOf samplePlacement).Pairwise fun b a => Stage1.Clear a b := by
    simp only [aliasesOf, List.pairwise_pair, Stage1.Clear, Stage1.rangesOverlap, aliasOf,
      samplePlacement]
    decide
  have few : (aliasesOf samplePlacement).length ≤ 2 := Nat.le_refl 2
  exact newWithAliases_total few sampleRam_ok oks clear

/-! ### Both views -/

section View

variable {sptm txm before after : Bytes} {ramBase virtualBase memorySize : Nat}
  {placement : StartupPlacement}

/-- The alias of a companion in RAM is accepted for its linked addresses alone. -/
theorem aliasOk_iff {source : Bytes} {image : ImagePlacement}
    (at' : CompanionAt ramBase after source image) (above : ramBase ≤ image.physicalBase)
    (below : image.physicalBase + image.bytes ≤ ramBase + memorySize) :
    AliasOk ramBase virtualBase memorySize (aliasOf image) ↔
      Stage1.highStart ≤ image.virtualBase ∧
        Span.Apart ⟨image.virtualBase, image.bytes⟩ ⟨virtualBase, memorySize⟩ := by
  constructor
  · intro ok
    have apart := ok.apart
    simp only [aliasOf, Stage1.rangesOverlap] at apart
    refine ⟨ok.high, ?_⟩
    simp only [Span.Apart, Span.stop]
    omega
  · rintro ⟨high, apart⟩
    simp only [Span.Apart, Span.stop] at apart
    refine ⟨at'.virtual_page, at'.physical_page, at'.size_page, at'.positive, at'.small, high,
      at'.word, above, below, ?_⟩
    simp only [aliasOf, Stage1.rangesOverlap]
    omega

/-- Companions that were staged in RAM can be mapped at their linked addresses exactly when RAM
can be mapped and these lie in the high half, apart from the linear map and from each other. -/
theorem companion_aliases_accepted [UnstableSort] {occupiedEnd : Nat}
    (done : (stageStartupImages sptm txm ramBase occupiedEnd).on before = (.ok placement, after)) :
    (∃ t, Arm64Stage1Tables.newWithAliases ramBase virtualBase before.length
      (aliasesOf placement) = .ok t) ↔
      RamOk ramBase virtualBase before.length ∧
        Stage1.highStart ≤ placement.sptm.virtualBase ∧
        Stage1.highStart ≤ placement.txm.virtualBase ∧
        Span.Apart ⟨placement.sptm.virtualBase, placement.sptm.bytes⟩
          ⟨virtualBase, before.length⟩ ∧
        Span.Apart ⟨placement.txm.virtualBase, placement.txm.bytes⟩
          ⟨virtualBase, before.length⟩ ∧
        Span.Apart ⟨placement.txm.virtualBase, placement.txm.bytes⟩
          ⟨placement.sptm.virtualBase, placement.sptm.bytes⟩ := by
  have lies := accompanied_of_done done
  have behind := lies.behind_base
  have follows := lies.follows
  have inside := lies.inside
  have sptm : AliasOk ramBase virtualBase before.length _ ↔ _ :=
    aliasOk_iff lies.sptm behind (by omega)
  have txm : AliasOk ramBase virtualBase before.length _ ↔ _ :=
    aliasOk_iff lies.txm (by omega) inside
  have clear : (aliasesOf placement).Pairwise (fun b a => Stage1.Clear a b) ↔
      Span.Apart ⟨placement.txm.virtualBase, placement.txm.bytes⟩
        ⟨placement.sptm.virtualBase, placement.sptm.bytes⟩ := by
    simp only [aliasesOf, aliasOf, List.pairwise_pair, Stage1.Clear, Stage1.rangesOverlap,
      Span.Apart, Span.stop]
    omega
  have each : (∀ a ∈ aliasesOf placement, AliasOk ramBase virtualBase before.length a) ↔
      AliasOk ramBase virtualBase before.length (aliasOf placement.sptm) ∧
        AliasOk ramBase virtualBase before.length (aliasOf placement.txm) := by
    simp [aliasesOf]
  constructor
  · rintro ⟨t, made⟩
    obtain ⟨⟨_, ok, oks, cleared, _⟩, _⟩ :=
      (Stage1.newWithAliases_yields _ _ _ _).post_of_ok made
    obtain ⟨first, second⟩ := each.mp oks
    obtain ⟨high, apart⟩ := sptm.mp first
    obtain ⟨high', apart'⟩ := txm.mp second
    exact ⟨ok, high, high', apart, apart', clear.mp cleared⟩
  · rintro ⟨ok, high, high', apart, apart', apart''⟩
    have oks := each.mpr ⟨sptm.mpr ⟨high, apart⟩, txm.mpr ⟨high', apart'⟩⟩
    have cleared := clear.mpr apart''
    exact newWithAliases_total (Nat.le_refl 2) ok oks cleared

theorem companion_aliases_accepted_sample :
    ∃ t, Arm64Stage1Tables.newWithAliases 0x40000000 0xfffffe0000000000 0x20000000
      (aliasesOf samplePlacement) = .ok t := by
  have size : (List.replicate 0x20000000 (0 : UInt8)).length = 0x20000000 := List.length_replicate
  obtain ⟨after, done⟩ := samplePlacement_staged size
  have accepted := @companion_aliases_accepted _ _ _ _ 0x40000000 0xfffffe0000000000 samplePlacement
    UnstableSort.insertion _ done
  rw [size] at accepted
  exact accepted.mpr ⟨sampleRam_ok, by decide, by decide, by decide, by decide, by decide⟩

/-- Behind the alias tables of a placement, a handoff with companions behind it is where it is
linked, and so are the companions. -/
theorem guest_sees_companions [UnstableSort] [Target] {source : Bytes}
    {input : Arm64PlacementInput} {plan : Arm64HandoffPlan} (made : Made source input plan)
    {ram tables : HostSlice} {tableBase : Nat} {backing : Arm64HandoffBacking} {staged : Bytes}
    (taken : Arm64HandoffBacking.new plan.layout ram ramBase tables tableBase = .ok backing)
    (handoff : stagedRam plan backing = .ok staged)
    (companions : (stageStartupImages sptm txm ramBase plan.layout.occupiedEnd).on staged =
      (.ok placement, after))
    {t : Arm64Stage1Tables}
    (built : Arm64Stage1Tables.newWithAliases input.physicalBase input.virtualBase
      input.memorySize (aliasesOf placement) = .ok t) :
    (∃ args, SeesHandoff t (guest t ramBase after) source plan args) ∧
      SeesCompanion (guest t ramBase after) sptm placement.sptm ∧
      SeesCompanion (guest t ramBase after) txm placement.txm := by
  obtain ⟨_, same, _, stored⟩ := stagedRam_of_taken made taken
  obtain rfl := ok.inj (handoff.symm.trans same)
  have translates := translates_of_newWithAliases built
  have lies := accompanied_of_done companions
  have allocation := made.validLayout.allocation
  have size := (Arm64HandoffPlan.handoffImage_contents made.stageable).length
  refine ⟨⟨_, seesHandoff_of_stored made translates ?_⟩, ?_, ?_⟩
  · refine stored.congr fun a _ below => ?_
    rw [based, based]
    split
    · rfl
    · exact lies.kept _ (by omega)
  · exact seesCompanion_of_alias translates List.mem_cons_self lies.sptm
  · exact seesCompanion_of_alias translates (List.mem_cons_of_mem _ List.mem_cons_self) lies.txm

theorem guest_sees_companions_sample :
    ∃ plan, @Made UnstableSort.insertion sampleArm sampleInput plan ∧
      ∃ t ram, (∃ args, SeesHandoff t (guest t 0x40000000 ram) sampleArm plan args) ∧
        SeesCompanion (guest t 0x40000000 ram) (companionAt 0xfffffff010000000)
          samplePlacement.sptm := by
  obtain ⟨plan, ram, tables, backing, made, taken, size, stop⟩ := exists_sampleBacking
  obtain ⟨staged, handoff, length, _⟩ :=
    @stagedRam_of_taken UnstableSort.insertion Target.aligned _ _ _ made _ _ _ _ _ taken
  obtain ⟨after, done⟩ := samplePlacement_staged (length.trans size)
  rw [← stop] at done
  obtain ⟨t, built⟩ := exists_sampleTables
  obtain ⟨seen, sptm, _⟩ :=
    @guest_sees_companions _ _ _ _ _ UnstableSort.insertion Target.aligned _ _
    _ made _ _ _ _ _ taken handoff done _ built
  exact ⟨plan, made, t, after, seen, sptm⟩

end View

end Nextcore.Handoff
