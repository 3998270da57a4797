import Nextcore.ClassicRebase.Applied

/-!
Plans for one source at different slides.

A word without its slide is a `Slot`. All that the slide decides of a record is whether the slot
has room for it (`planWord_slot`), and so it is of the loop over the records (`planRecords_slots`).
A source that has a plan at one slide therefore has one at another exactly where every word has
room, and what the two make of the arena is the same but for the slide in the words
(`slides_agree`).
-/

namespace Nextcore.ClassicRebase

open Checked Checked.Outcome KernelCollection
open KcStaging (KcStagingPlan Target)
open FixupAudit (AuditRecord)

/-- A word without the slide: its place in the arena, and its value in the source. -/
structure Slot where
  offset : Nat
  width : Nat
  old : Nat

/-- The word at a slide. -/
def Slot.word (slide : Nat) (s : Slot) : Word := ⟨s.offset, s.width, toLeBytes 8 (s.old + slide)⟩

/-- The word has room for a slide. -/
def Slot.Admits (slide : Nat) (s : Slot) : Prop := s.old + slide < 256 ^ s.width

/-- The two tests of the plan for a value and a slide. -/
theorem Slot.admits_iff {slide : Nat} {s : Slot} (pointer : s.width = 4 ∨ s.width = 8) :
    s.Admits slide ↔ s.old + slide < 2 ^ 64 ∧ (s.width = 4 → s.old + slide ≤ 2 ^ 32 - 1) := by
  rcases pointer with four | eight
  · rw [Slot.Admits, four]
    constructor
    · intro room
      exact ⟨by omega, fun _ => by omega⟩
    · rintro ⟨_, short⟩
      have bound := short rfl
      omega
  · rw [Slot.Admits, eight]
    constructor
    · intro room
      exact ⟨room, fun other => absurd other (by decide)⟩
    · exact And.left

/-- A place that the plan can write to. -/
structure Slot.Placed (s : Slot) : Prop where
  pointer : s.width = 4 ∨ s.width = 8
  inside : s.offset + s.width < 2 ^ 64

/-- The progress with the word of a slot. -/
def Progress.put (slide : Nat) (progress : Progress) (s : Slot) : Progress :=
  let v := progress.verification
  { words := progress.words ++ [s.word slide]
    verification :=
      { v with
        changedBytes := v.changedBytes + differences ((toLeBytes 8 s.old).take s.width)
          ((s.word slide).after.take s.width)
        classicWords := v.classicWords + 1
        writeBytesVerified := v.writeBytesVerified + s.width
        width4Words := v.width4Words + (if s.width = 4 then 1 else 0)
        width8Words := v.width8Words + (if s.width = 4 then 0 else 1) } }

/-- A loop that is the same at every slide, but for the slots that have no room for it. -/
def Fills (slots : List Slot) (loop : Nat → Progress → Result Progress) : Prop :=
  ∀ slide a b, loop slide a = .ok b ↔
    (∀ s ∈ slots, s.Admits slide) ∧ b = slots.foldl (Progress.put slide) a

section Loops

variable {source : Bytes} {slide : Nat} {staging : KcStagingPlan} {kernel : ImageMetadata}
  {progress progress' : Progress}

/-- A record that has a word at one slide has a slot. -/
theorem planWord_slot {width : Nat} {writeAddress writeFileOffset stored : Option Nat}
    (pointer : width = 4 ∨ width = 8)
    (planned : planWord source slide staging kernel width writeAddress writeFileOffset stored
      progress = .ok progress') :
    ∃ s : Slot, s.Placed ∧ Fills [s] fun slide a =>
      planWord source slide staging kernel width writeAddress writeFileOffset stored a := by
  simp only [planWord, bind_eq_ok, ofOption_eq_ok, rejectIf_eq_ok, checkedAdd_eq_some,
    checkedSub_eq_some, tryWord_eq_ok, getRange_eq_some, forEach_eq_ok, not_not, not_and,
    Nat.not_lt, pure_eq, ok.injEq] at planned
  obtain ⟨address, rfl, file, rfl, mapped, found, _, inKernel, _, headers, old, rfl, _, _, _, _, _,
    ⟨above, rfl⟩, _, ⟨narrow, rfl⟩, _, ⟨stop, rfl⟩, _, inside, _, ⟨small, rfl⟩, _, ⟨sum, rfl⟩, _,
    ⟨fits, rfl⟩, _, same, _⟩ := planned
  refine ⟨⟨address - staging.minimumVirtualAddress, width, old⟩, ⟨pointer, stop⟩,
    fun slide a b => ?_⟩
  rw [List.forall_mem_singleton, List.foldl_cons, List.foldl_nil]
  rw [Slot.admits_iff (s := ⟨address - staging.minimumVirtualAddress, width, old⟩) pointer]
  simp only [planWord, bind_eq_ok, ofOption_eq_ok, rejectIf_eq_ok, checkedAdd_eq_some,
    checkedSub_eq_some, tryWord_eq_ok, getRange_eq_some, forEach_eq_ok, not_not, not_and,
    Nat.not_lt, pure_eq, ok.injEq]
  constructor
  · rintro ⟨_, ⟨⟩, _, ⟨⟩, _, _, _, _, _, _, _, ⟨⟩, _, ⟨word, rfl⟩, _, short, _, ⟨_, rfl⟩, _,
      ⟨_, rfl⟩, _, ⟨_, rfl⟩, _, _, _, ⟨_, rfl⟩, _, ⟨_, rfl⟩, _, ⟨_, rfl⟩, _, _, rfl⟩
    refine ⟨⟨word, short⟩, ?_⟩
    rw [Progress.put, same]
    rfl
  · rintro ⟨⟨word, short⟩, rfl⟩
    refine ⟨address, rfl, file, rfl, mapped, found, (), inKernel, (), headers, old, rfl, _,
      ⟨word, rfl⟩, (), short, _, ⟨above, rfl⟩, _, ⟨narrow, rfl⟩, _, ⟨stop, rfl⟩, (), inside, _,
      ⟨small, rfl⟩, _, ⟨sum, rfl⟩, _, ⟨fits, rfl⟩, (), same, ?_⟩
    rw [Progress.put, same]
    rfl

theorem planRecord_slot {r : AuditRecord}
    (planned : planRecord source slide staging kernel progress r = .ok progress') :
    ∃ slots : List Slot, (∀ s ∈ slots, s.Placed) ∧ Fills slots fun slide a =>
      planRecord source slide staging kernel a r := by
  unfold planRecord at planned ⊢
  cases detail : r.detail with
  | chain11 =>
      refine ⟨[], List.forall_mem_nil _, fun slide a b => ?_⟩
      simp only [List.foldl_nil, List.not_mem_nil, false_implies, implies_true, true_and,
        pure_eq, ok.injEq]
      exact eq_comm
  | classic table displacement ordinal kind exponent pcRelative external stored =>
      rw [detail] at planned
      obtain ⟨profile, made⟩ := seq_eq_ok.mp planned
      have accepted := rejectIf_eq_ok.mp profile
      push Not at accepted
      obtain ⟨_, _, _, _, _, _, size, width, _⟩ := accepted
      have pointer := pointer_of_exponent size width
      obtain ⟨s, placed, fills⟩ := planWord_slot pointer made
      refine ⟨[s], List.forall_mem_singleton.mpr placed, fun slide a b => ?_⟩
      rw [← fills slide a b]
      dsimp only
      rw [seq_eq_ok, and_iff_right profile]

/-- The loop over the records of a plan does the same at every slide. -/
theorem planRecords_slots {records : List AuditRecord}
    (planned : records.foldlM (planRecord source slide staging kernel) progress = .ok progress') :
    ∃ slots : List Slot, (∀ s ∈ slots, s.Placed) ∧ Fills slots fun slide a =>
      records.foldlM (planRecord source slide staging kernel) a := by
  induction records generalizing progress with
  | nil =>
      refine ⟨[], List.forall_mem_nil _, fun slide a b => ?_⟩
      simp only [List.foldlM_nil, List.foldl_nil, List.not_mem_nil, false_implies, implies_true,
        true_and, pure_eq, ok.injEq]
      exact eq_comm
  | cons r rest ih =>
      rw [List.foldlM_cons] at planned
      obtain ⟨mid, now, later⟩ := bind_eq_ok.mp planned
      obtain ⟨first, first_placed, first_fills⟩ := planRecord_slot now
      obtain ⟨others, others_placed, others_fills⟩ := ih later
      refine ⟨first ++ others, List.forall_mem_append.mpr ⟨first_placed, others_placed⟩,
        fun slide a b => ?_⟩
      simp only [List.foldlM_cons, bind_eq_ok, first_fills slide, others_fills slide,
        List.forall_mem_append, List.foldl_append]
      constructor
      · rintro ⟨_, ⟨room, rfl⟩, room', rfl⟩
        exact ⟨⟨room, room'⟩, rfl⟩
      · rintro ⟨⟨room, room'⟩, rfl⟩
        exact ⟨_, ⟨room, rfl⟩, room', rfl⟩

/-! What the slots of a loop add to the progress. -/

theorem words_foldl_put (slots : List Slot) (a : Progress) :
    (slots.foldl (Progress.put slide) a).words = a.words ++ slots.map (Slot.word slide) := by
  induction slots generalizing a with
  | nil => exact (List.append_nil _).symm
  | cons s rest ih =>
      rw [List.foldl_cons, ih, Progress.put, List.map_cons, List.append_assoc]
      rfl

theorem arenaBytes_foldl_put (slots : List Slot) (a : Progress) :
    (slots.foldl (Progress.put slide) a).verification.arenaBytes = a.verification.arenaBytes := by
  induction slots generalizing a with
  | nil => rfl
  | cons s rest ih =>
      rw [List.foldl_cons, ih]
      rfl

theorem written_foldl_put (slots : List Slot) (a : Progress) :
    (slots.foldl (Progress.put slide) a).verification.writeBytesVerified =
      a.verification.writeBytesVerified + (slots.map (·.width)).sum := by
  induction slots generalizing a with
  | nil => rfl
  | cons s rest ih =>
      rw [List.foldl_cons, ih, List.map_cons, List.sum_cons, ← Nat.add_assoc]
      rfl

end Loops

/-! ### Words and slots -/

/-- What a word is without the slide. -/
def Word.stored (slide : Nat) (w : Word) : Nat := fromLeBytes w.after - slide

/-- The word at another slide. -/
def Word.reslid (slide slide' : Nat) (w : Word) : Word :=
  { w with after := toLeBytes 8 (w.stored slide + slide') }

section Slots

variable {slide slide' : Nat} {s : Slot} {slots : List Slot}

theorem Slot.Placed.stored_word (placed : s.Placed) (room : s.Admits slide) :
    (s.word slide).stored slide = s.old := by
  have narrow : s.width ≤ 8 := by
    have pointer := placed.pointer
    omega
  have small : s.old + slide < 256 ^ 8 :=
    Nat.lt_of_lt_of_le room (Nat.pow_le_pow_right (by decide) narrow)
  rw [Word.stored, Slot.word, fromLeBytes_toLeBytes small, Nat.add_sub_cancel]

theorem Slot.Placed.reslid_word (placed : s.Placed) (room : s.Admits slide) :
    (s.word slide).reslid slide slide' = s.word slide' := by
  rw [Word.reslid, placed.stored_word room]
  rfl

/-- The bytes of a word at a slide. -/
theorem Slot.Placed.take_reslid (placed : s.Placed) (slide slide' : Nat) :
    ((s.word slide).reslid slide slide').after.take (s.word slide).width =
      toLeBytes (s.word slide).width ((s.word slide).stored slide + slide') := by
  have narrow : (s.word slide).width ≤ 8 := by
    have pointer := placed.pointer
    simp only [Slot.word]
    omega
  exact take_toLeBytes narrow

/-- The place of a word. -/
def Word.span (w : Word) : Span := ⟨w.offset, w.width⟩

/-- The test of neighbours passes where the slots are apart. -/
theorem windows_of_apart [UnstableSort] (placed : ∀ s ∈ slots, s.Placed)
    (apart : (slots.map (Slot.word slide)).Pairwise fun a b => Span.Apart a.span b.span) :
    forWindows (fun a b : Word => do
      let stop ← add a.offset a.width
      rejectIf (stop > b.offset) ClassicRebaseError.auditIssues)
      (UnstableSort.sortByKey (·.offset) (slots.map (Slot.word slide))) = .ok () := by
  have nonempty : ∀ w ∈ slots.map (Slot.word slide), 0 < w.span.size := by
    intro w mem
    obtain ⟨s, s_mem, rfl⟩ := List.mem_map.mp mem
    have pointer := (placed s s_mem).pointer
    simp only [Word.span, Slot.word]
    omega
  have ascending := UnstableSort.ascending_of_apart nonempty apart
  rw [forWindows_eq_ok]
  refine (ascending.imp_of_mem fun {a b} a_mem _ before => ?_).isChain
  obtain ⟨s, s_mem, rfl⟩ := List.mem_map.mp (UnstableSort.mem_sortByKey.mp a_mem)
  simp only [Word.span, Span.stop] at before
  have stop : (add (s.word slide).offset (s.word slide).width : Result Nat) = .ok _ :=
    add_of_lt (placed s s_mem).inside
  rw [stop, bind_ok]
  exact rejectIf_eq_ok.mpr (Nat.not_lt.mpr before)

end Slots

/-! ### Plans -/

section Plans

variable [UnstableSort] {source : Bytes} {slide : Nat} {plan : KcClassicRebasePlan}

/-- The slots of a plan: they decide which other slides have one, and what its words are. -/
structure Slotted (source : Bytes) (staging : KcStagingPlan) (slots : List Slot) : Prop where
  placed : ∀ s ∈ slots, s.Placed
  fits : ∀ slide plan, KcClassicRebasePlan.new source slide = .ok plan →
    (∀ s ∈ slots, s.Admits slide) ∧ plan.staging = staging ∧
      plan.words.Perm (slots.map (Slot.word slide)) ∧
      plan.words.Pairwise fun a b => a.offset + a.width ≤ b.offset
  serves : ∀ slide, (∀ s ∈ slots, s.Admits slide) →
    ∃ plan, KcClassicRebasePlan.new source slide = .ok plan

theorem exists_slots (made : KcClassicRebasePlan.new source slide = .ok plan) :
    ∃ slots, Slotted source plan.staging slots := by
  obtain ⟨staging, kernel, audit, _, nonTarget, inputs, planned, windows, rest, rfl⟩ :=
    new_eq_ok.mp made
  obtain ⟨slots, placed, fills⟩ := planRecords_slots planned
  obtain ⟨_, rfl⟩ := (fills _ _ _).mp planned
  refine ⟨slots, placed, ?_, fun slide' room => ?_⟩
  · intro slide' plan' made'
    obtain ⟨_, _, _, _, _, inputs', planned', windows', _, rfl⟩ := new_eq_ok.mp made'
    obtain ⟨rfl, rfl, rfl⟩ := inputs.unique inputs'
    obtain ⟨room, rfl⟩ := (fills _ _ _).mp planned'
    refine ⟨room, rfl, ?_, ascending_of_windows windows'⟩
    dsimp only
    rw [words_foldl_put]
    exact UnstableSort.perm ..
  · rw [words_foldl_put, Progress.start, List.nil_append] at windows
    rw [arenaBytes_foldl_put, written_foldl_put] at rest
    have apart : (slots.map (Slot.word slide')).Pairwise fun a b => Span.Apart a.span b.span := by
      have ascending := ascending_of_windows windows
      have before : (slots.map (Slot.word slide)).Pairwise fun a b => Span.Apart a.span b.span :=
        ((UnstableSort.perm ..).pairwise_iff Span.Apart.symm).mp (ascending.imp .inl)
      rw [List.pairwise_map] at before ⊢
      exact before
    refine ⟨_, new_eq_ok.mpr ⟨staging, kernel, audit, _, nonTarget, inputs,
      (fills slide' _ _).mpr ⟨room, rfl⟩, ?_, ?_, rfl⟩⟩
    · rw [words_foldl_put, Progress.start, List.nil_append]
      exact windows_of_apart placed apart
    · rw [arenaBytes_foldl_put, written_foldl_put]
      exact rest

/-- The words of two plans for one source are the same but for the slide. -/
theorem Slotted.words_eq {slots : List Slot} {slide' : Nat} {plan' : KcClassicRebasePlan}
    (slotted : Slotted source plan.staging slots)
    (made : KcClassicRebasePlan.new source slide = .ok plan)
    (made' : KcClassicRebasePlan.new source slide' = .ok plan') :
    plan'.words = plan.words.map (Word.reslid slide slide') := by
  obtain ⟨room, _, perm, ascending⟩ := slotted.fits slide plan made
  obtain ⟨_, _, perm', ascending'⟩ := slotted.fits slide' plan' made'
  have moved : (slots.map (Slot.word slide)).map (Word.reslid slide slide') =
      slots.map (Slot.word slide') := by
    rw [List.map_map]
    exact List.map_congr_left fun s mem => (slotted.placed s mem).reslid_word (room s mem)
  have perm_moved := perm.map (Word.reslid slide slide')
  rw [moved] at perm_moved
  -- Two lists of one set of words, both in the order of their places, are equal.
  refine (perm'.trans perm_moved.symm).eq_of_pairwise (fun a b mem _ before behind => ?_)
    ascending' (List.pairwise_map.mpr ascending)
  obtain ⟨s, s_mem, rfl⟩ := List.mem_map.mp (perm'.mem_iff.mp mem)
  have pointer := (slotted.placed s s_mem).pointer
  simp only [Slot.word] at before behind
  omega

/-- A collection that can be rebased can be rebased by less. -/
theorem smaller_slide (made : KcClassicRebasePlan.new source slide = .ok plan) {slide' : Nat}
    (less : slide' ≤ slide) : ∃ plan', KcClassicRebasePlan.new source slide' = .ok plan' := by
  obtain ⟨slots, slotted⟩ := exists_slots made
  refine slotted.serves slide' fun s mem => ?_
  exact Nat.lt_of_le_of_lt (Nat.add_le_add_left less _) ((slotted.fits slide plan made).1 s mem)

/-- A source with a plan at one slide has a plan at another exactly where each word has room for
that slide. Both plans can be applied then, to the same words at the same places; there the two
arenas have the same values but for the slides, and elsewhere the same bytes. -/
theorem slides_agree [Target] (made : KcClassicRebasePlan.new source slide = .ok plan)
    (slide' : Nat) :
    ((∃ plan', KcClassicRebasePlan.new source slide' = .ok plan') ↔
      ∀ w ∈ plan.words, w.stored slide + slide' < 256 ^ w.width) ∧
    ∀ plan', KcClassicRebasePlan.new source slide' = .ok plan' →
      plan'.staging = plan.staging ∧ plan'.words = plan.words.map (Word.reslid slide slide') ∧
      ∃ rebased rebased', plan.apply = .ok rebased ∧ plan'.apply = .ok rebased' ∧
        rebased'.bytes.length = rebased.bytes.length ∧
        (∀ w ∈ plan.words,
          window rebased.bytes w.offset w.width = toLeBytes w.width (w.stored slide + slide) ∧
          window rebased'.bytes w.offset w.width = toLeBytes w.width (w.stored slide + slide')) ∧
        ∀ i, (∀ w ∈ plan.words, ¬ (w.offset ≤ i ∧ i < w.offset + w.width)) →
          rebased'.bytes[i]? = rebased.bytes[i]? := by
  obtain ⟨slots, slotted⟩ := exists_slots made
  obtain ⟨room, _, perm, _⟩ := slotted.fits slide plan made
  have slotOf : ∀ w ∈ plan.words, ∃ s ∈ slots, s.word slide = w := fun w mem =>
    List.mem_map.mp (perm.mem_iff.mp mem)
  refine ⟨⟨?_, fun admits => slotted.serves slide' fun s mem => ?_⟩, fun plan' made' => ?_⟩
  · rintro ⟨plan', made'⟩ w mem
    obtain ⟨s, s_mem, rfl⟩ := slotOf w mem
    rw [(slotted.placed s s_mem).stored_word (room s s_mem)]
    exact (slotted.fits slide' plan' made').1 s s_mem
  · have admitted := admits (s.word slide) (perm.mem_iff.mpr (List.mem_map_of_mem mem))
    rwa [(slotted.placed s mem).stored_word (room s mem)] at admitted
  · have same := (slotted.fits slide' plan' made').2.1
    have words := slotted.words_eq made made'
    obtain ⟨_, known⟩ := made_of_ok made
    obtain ⟨_, known'⟩ := made_of_ok made'
    obtain ⟨_, applied_eq⟩ := apply_eq known
    obtain ⟨_, applied_eq'⟩ := apply_eq known'
    refine ⟨same, words, _, _, applied_eq, applied_eq', ?_, ?_, ?_⟩
    · rw [plan'.length_rebasedImage, plan.length_rebasedImage, same]
    · intro w mem
      have mem' : w.reslid slide slide' ∈ plan'.words := by
        rw [words]
        exact List.mem_map_of_mem mem
      have first := window_rebasedImage known.sound mem
      have second := window_rebasedImage known'.sound mem'
      obtain ⟨s, s_mem, rfl⟩ := slotOf w mem
      have placed := slotted.placed s s_mem
      have own := placed.take_reslid slide slide
      rw [placed.reslid_word (room s s_mem)] at own
      exact ⟨first.trans own, second.trans (placed.take_reslid slide slide')⟩
    · intro i outside
      have outside' : ∀ w ∈ plan'.words, ¬ (w.offset ≤ i ∧ i < w.offset + w.width) := by
        rw [words]
        exact List.forall_mem_map.mpr outside
      dsimp only
      rw [getElem?_rebasedImage_of_apart known'.sound outside',
        getElem?_rebasedImage_of_apart known.sound outside, same]

end Plans

theorem slides_agree_sample : ∃ plan plan' rebased,
    @KcClassicRebasePlan.new UnstableSort.insertion FixupAudit.pairFixups 16 = .ok plan ∧
      @KcClassicRebasePlan.new UnstableSort.insertion FixupAudit.pairFixups 8 = .ok plan' ∧
      plan.words.length = 2 ∧ plan'.words = plan.words.map (Word.reslid 16 8) ∧
      @KcClassicRebasePlan.apply Target.aligned plan' = .ok rebased := by
  obtain ⟨plan, made, two⟩ := exists_samplePlan
  obtain ⟨plan', made'⟩ := @smaller_slide UnstableSort.insertion _ _ plan made 8 (by decide)
  obtain ⟨_, agree⟩ := @slides_agree UnstableSort.insertion _ _ plan Target.aligned made 8
  obtain ⟨_, words, _, rebased', _, served, _⟩ := agree plan' made'
  exact ⟨plan, plan', rebased', made, made', two, words, served⟩

end Nextcore.ClassicRebase
