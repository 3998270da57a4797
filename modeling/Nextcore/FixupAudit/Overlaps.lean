import Nextcore.FixupAudit.Tally

/-!
The verdict as a whole.

An audit without issues has the records of all words (`verdict_of_limits`); all of them write to
the file, and the pass over them has found no two that write to a common byte.
-/

namespace Nextcore.FixupAudit

open Checked Checked.Outcome KernelCollection

/-- What a pass without issues says of records that all write to the file. -/
theorem writesApart_of_swept {records : List AuditRecord} {outer : List SegmentMetadata}
    (swept : Swept records []) (backed : ∀ r ∈ records, Backed outer r) :
    records.Pairwise WritesApart := by
  have disjoint := swept.disjoint_iff.mp nofun
  refine List.pairwise_iff_getElem.mpr fun i j inside inside' before => ?_
  intro x writes y writes'
  obtain ⟨wide, _, _, _, file, _⟩ := backed _ (List.getElem_mem inside)
  obtain ⟨wide', _, _, _, file', _⟩ := backed _ (List.getElem_mem inside')
  refine (Span.apart_iff_disjoint wide wide').mpr ?_
  refine disjoint i j _ _ x y ⟨List.getElem?_eq_getElem inside, ?_, writes⟩
    ⟨List.getElem?_eq_getElem inside', ?_, writes'⟩ (Nat.ne_of_lt before)
  · rw [file, Option.isSome_some]
  · rw [file', Option.isSome_some]

/-! ### The verdict -/

theorem ClassicSound.backed {source : Bytes} {outer : List SegmentMetadata} {c : ClassicRange}
    {offset : Nat} {r : AuditRecord} (sound : ClassicSound source outer c offset r) :
    Backed outer r := by
  obtain ⟨_, address, file, _, _, writes, located, inFile, _⟩ := sound.writes
  have pointer := sound.pointer
  exact ⟨by omega, address, file, writes, located, inFile⟩

theorem ChainSound.backed {source : Bytes} {outer : List SegmentMetadata} {primaryBase : Nat}
    {c : ChainStart} {inPage : Nat} {r : AuditRecord}
    (sound : ChainSound source outer primaryBase c inPage r) : Backed outer r := by
  have width := sound.width
  refine ⟨by omega, _, _, sound.address, sound.file, ?_⟩
  rw [width]
  exact sound.inFile

/-- Every record of an image writes to the file. -/
theorem ImageRecorded.backed {source : Bytes} {outer : List SegmentMetadata} {primaryBase : Nat}
    {entry : ImageMetadata × Nat} {records : List AuditRecord}
    (recorded : ImageRecorded source outer primaryBase entry records) {r : AuditRecord}
    (mem : r ∈ records) : Backed outer r := by
  obtain ⟨classic, chained, rfl, tables, fixups⟩ := recorded
  rcases List.mem_append.mp mem with inTable | inChain
  · obtain ⟨_, _, _, table, inside⟩ := tables.exists_of_mem inTable
    obtain ⟨_, _, sound⟩ := exists_of_mem_forall₂ table inside
    exact sound.backed
  · unfold FixupsRecorded at fixups
    split at fixups
    · subst fixups
      cases inChain
    · obtain ⟨_, _, turns⟩ := fixups
      obtain ⟨_, _, _, ⟨_, _, _, pages⟩, inside⟩ := turns.exists_of_mem inChain
      obtain ⟨_, _, _, page, inside⟩ := pages.exists_of_mem inside
      rcases page with ⟨_, rfl⟩ | ⟨_, _, _, each⟩
      · cases inside
      · obtain ⟨_, _, sound⟩ := exists_of_mem_forall₂ each inside
        exact sound.backed

/-- What holds of an audit without issues, whatever its limits. -/
theorem verdict_of_limits [UnstableSort] {source : Bytes} {limits : AuditLimits}
    {audit : KcFixupAudit} (audited : auditKernelCollectionWithLimits source limits = .ok audit)
    (clean : audit.rangesValid = true) :
    ∃ inspection, inspectKernelCollection source = .ok inspection ∧
      (inspection.collection.segments.map (·.address)).min? = some audit.primaryBase ∧
      InTurn (ImageRecorded source inspection.collection.segments audit.primaryBase)
        (images inspection) audit.records ∧
      (∀ r ∈ audit.records, Backed inspection.collection.segments r) ∧
      audit.records.Pairwise WritesApart := by
  simp only [auditKernelCollectionWithLimits, bind_eq_ok, mapErr_eq_ok, ofOption_eq_ok] at audited
  obtain ⟨_, _, inspection, inspected, base, least, outer, mapped, executable, _, kext, _, out, ran,
    passed⟩ := audited
  have tally :=
    ensures_foldlM (tally_zero base) (fun _ tally _ _ => Audit.tally_image tally) out ran
  obtain ⟨places, told, ordered, nodup, turns, rfl⟩ :=
    Audit.overlaps_told (fun i r _ writes => tally.wide r (List.mem_of_getElem? writes.1)) passed
  obtain ⟨clean_out, rfl⟩ := List.append_eq_nil_iff.mp (List.isEmpty_iff.mp clean)
  obtain ⟨records, _, grown, recorded⟩ := emits_foldlM (b := base)
    (R := ImageRecorded source inspection.collection.segments base)
    (fun entry out same => by
      rw [← same]
      exact Audit.emits_image mapped entry out) (images inspection) rfl out ran
  have recorded_turns := recorded (by rw [← clean_out, grown.issues]; rfl)
  have swept := swept_of_told ordered nodup turns
  rw [grown.records] at swept
  dsimp only
  rw [grown.records, grown.primaryBase]
  have backed : ∀ r ∈ records, Backed inspection.collection.segments r := by
    intro r mem
    obtain ⟨_, _, _, image, inside⟩ := recorded_turns.exists_of_mem mem
    exact image.backed inside
  exact ⟨inspection, inspected, least, recorded_turns, backed, writesApart_of_swept swept backed⟩

/-- An audit without issues has one record for every entry of every table and for every word of
every chain, each is sound, and no two of them write to a common place. -/
theorem clean_audit_sound [UnstableSort] {source : Bytes} {audit : KcFixupAudit}
    (audited : auditKernelCollection source = .ok audit) (clean : audit.rangesValid = true) :
    ∃ inspection, inspectKernelCollection source = .ok inspection ∧
      (inspection.collection.segments.map (·.address)).min? = some audit.primaryBase ∧
      InTurn (ImageRecorded source inspection.collection.segments audit.primaryBase)
        (images inspection) audit.records ∧
      (∀ r ∈ audit.records, Backed inspection.collection.segments r) ∧
      audit.records.Pairwise WritesApart :=
  verdict_of_limits audited clean

theorem clean_audit_sound_sample :
    ∃ audit, @auditKernelCollection UnstableSort.insertion sampleFixups = .ok audit ∧
      audit.records.length = 2 ∧
      ∃ inspection, @inspectKernelCollection UnstableSort.insertion sampleFixups = .ok inspection ∧
        InTurn (ImageRecorded sampleFixups inspection.collection.segments audit.primaryBase)
          (images inspection) audit.records ∧ audit.records.Pairwise WritesApart := by
  obtain ⟨audit, audited, found⟩ := isOkAnd_iff.mp
    (show (@auditKernelCollection UnstableSort.insertion sampleFixups).isOkAnd
        (fun audit => audit.rangesValid ∧ audit.records.length = 2) = true by decide +kernel)
  obtain ⟨clean, two⟩ := of_decide_eq_true found
  obtain ⟨inspection, inspected, _, recorded, _, apart⟩ :=
    @clean_audit_sound UnstableSort.insertion _ _ audited clean
  exact ⟨audit, audited, two, inspection, inspected, recorded, apart⟩

end Nextcore.FixupAudit
