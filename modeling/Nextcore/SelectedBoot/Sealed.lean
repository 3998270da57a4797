import Mathlib.Data.List.Nodup
import Nextcore.SelectedBoot.Distinct

/-!
What a sealed digest fixes.

The digest of a record's text is sealed into the build. Where the text passes under it, the record
is the sealed one, and with it every file that is verified against the record: two sessions that
pass under one seal agree, or two of the byte strings that they were given have one digest
(`Collides`).
-/

namespace Nextcore.SelectedBoot

open Checked Checked.Outcome
open RuntimeDt (Sha256)

/-- The files of a record, by their paths. -/
def SelectedRecord.files : SelectedRecord → List (String × ExpectedBootImage)
  | startupCompanions r => [(r.sptm.signedPath, r.sptm.signed),
      (r.sptm.decodedPath, r.sptm.decoded),
      (r.txm.signedPath, r.txm.signed), (r.txm.decodedPath, r.txm.decoded)]
  | bootkc r => [(r.signedPath, r.signed), (r.decodedPath, r.decoded)]
  | payload r => [(r.decodedPath, r.expected)]
  | boot r => [(r.imagePath, r.expected)]

/-- A valid record names no file twice. -/
theorem SelectedRecord.Valid.nodup {record : SelectedRecord} (valid : record.Valid) :
    (record.files.map Prod.fst).Nodup := by
  cases record with
  | startupCompanions r =>
      refine valid.2.2.2.imp fun {a b} apart same => ?_
      subst same
      rw [eqIgnoreAsciiCase, decide_eq_false_iff_not] at apart
      exact apart rfl
  | bootkc r => simpa [files] using valid.2.2.2
  | payload r => simp [files]
  | boot r => simp [files]

theorem take_overlay {bytes src : Bytes} (room : src.length ≤ bytes.length) :
    (overlay bytes 0 src).take src.length = src := by
  rw [overlay_eq_append (by omega), List.take_zero, List.nil_append, List.take_left]

section Seals

variable [Sha256]

/-- Two byte strings with one digest. -/
def Collides (a b : Bytes) : Prop := a ≠ b ∧ Sha256.digest a = Sha256.digest b

/-- The text passes under the seal, and is accepted as the record. -/
structure Sealed (sealDigest text : Bytes) (record : SelectedRecord) : Prop where
  digest : verifySelectedRecordDigest (some sealDigest) text = .ok ()
  accepted : record.Accepted text

/-- The bytes are verified as the file that a sealed record has at a path. -/
structure Loads (sealDigest text : Bytes) (record : SelectedRecord) (path : String)
    (bytes : Bytes) :
    Prop extends Sealed sealDigest text record where
  file : ∃ expected, (path, expected) ∈ record.files ∧
    ∃ image, verifySelectedImage (some expected) bytes = .ok image

/-- The payload of a sealed record is copied. -/
structure Copies (sealDigest text : Bytes) (selected : SelectedBootRecord) (signed : Bytes)
    (companion : SelectedPayloadRecord) (decoded destination copied : Bytes) (n : Nat) :
    Prop extends
    Sealed sealDigest text (.payload companion) where
  done : (copySelectedPayload selected signed companion decoded).on destination = (.ok n, copied)

variable {sealDigest text text' : Bytes} {record record' : SelectedRecord}

theorem eq_or_collides {a b : Bytes} (same : Sha256.digest a = Sha256.digest b) :
    a = b ∨ Collides a b :=
  or_iff_not_imp_left.mpr fun differ => ⟨differ, same⟩

theorem not_collides_self (a : Bytes) : ¬ Collides a a := fun collides => collides.1 rfl

theorem recordDigest_eq_ok :
    verifySelectedRecordDigest (some sealDigest) text = .ok () ↔
      (text ≠ [] ∧ text.length ≤ maxSelectedRecordBytes) ∧ Sha256.digest text = sealDigest := by
  simp only [verifySelectedRecordDigest, bind_eq_ok, ofOption_eq_ok, Option.some.injEq,
    rejectIf_eq_ok, not_or, Nat.not_lt, not_not, exists_eq_left', exists_const]

/-- A seal fixes the record. -/
theorem Sealed.agree (first : Sealed sealDigest text record)
    (second : Sealed sealDigest text' record') :
    text = text' ∧ record = record' ∨ Collides text text' := by
  have digest := (recordDigest_eq_ok.mp first.digest).2
  have digest' := (recordDigest_eq_ok.mp second.digest).2
  refine (eq_or_collides (digest.trans digest'.symm)).imp_left ?_
  rintro rfl
  have spells := (accepted_iff.mp first.accepted).2
  exact ⟨rfl, spells.unique (accepted_iff.mp second.accepted).2⟩

/-- Two loads of one path under one seal are loads of the same bytes, from the same record, or they
show a collision. -/
theorem sealed_loads_agree {path : String} {bytes bytes' : Bytes}
    (first : Loads sealDigest text record path bytes)
    (second : Loads sealDigest text' record' path bytes') :
    text = text' ∧ record = record' ∧ bytes = bytes' ∨ Collides text text' ∨
      Collides bytes bytes' := by
  obtain ⟨expected, listed, image, verified⟩ := first.file
  obtain ⟨expected', listed', image', verified'⟩ := second.file
  obtain ⟨measures, _⟩ := verify_eq_ok.mp verified
  obtain ⟨measures', _⟩ := verify_eq_ok.mp verified'
  rcases first.toSealed.agree second.toSealed with ⟨rfl, rfl⟩ | collides
  · have nodup := (accepted_iff.mp first.accepted).1.nodup
    obtain rfl : expected = expected' :=
      congrArg Prod.snd (List.inj_on_of_nodup_map nodup listed listed' rfl)
    rcases eq_or_collides (measures.digest.trans measures'.digest.symm) with rfl | collides
    · exact .inl ⟨rfl, rfl, rfl⟩
    · exact .inr (.inr collides)
  · exact .inr (.inl collides)

/-- Two copies of a payload under the seal of its record alone, whatever image is selected: the
signed image, the payload and the bytes that arrive are the same, or there is a collision. -/
theorem sealed_copies_agree {selected selected' : SelectedBootRecord}
    {companion companion' : SelectedPayloadRecord}
    {signed signed' decoded decoded' destination destination' copied copied' : Bytes} {n n' : Nat}
    (first : Copies sealDigest text selected signed companion decoded destination copied n)
    (second : Copies sealDigest text' selected' signed' companion' decoded' destination'
      copied' n') :
    signed = signed' ∧ decoded = decoded' ∧ n = n' ∧ copied.take n = copied'.take n' ∨
      Collides text text' ∨ Collides signed signed' ∨ Collides decoded decoded' := by
  obtain ⟨bound, _, rfl, rfl⟩ := copy_eq_ok.mp first.done
  obtain ⟨bound', _, rfl, rfl⟩ := copy_eq_ok.mp second.done
  rcases first.toSealed.agree second.toSealed with ⟨rfl, same⟩ | collides
  · cases same
    have signed_digest : Sha256.digest signed = Sha256.digest signed' := by
      rw [bound.image.digest, bound'.image.digest, ← bound.source, ← bound'.source]
    have payload_digest := bound.payload.digest.trans bound'.payload.digest.symm
    rcases eq_or_collides signed_digest with rfl | collides
    · rcases eq_or_collides payload_digest with rfl | collides
      · refine .inl ⟨rfl, rfl, rfl, ?_⟩
        rw [take_overlay bound.room, take_overlay bound'.room]
      · exact .inr (.inr (.inr collides))
    · exact .inr (.inr (.inl collides))
  · exact .inr (.inl collides)

end Seals

/-! ### Bindings -/

/-- The three lines behind the header. -/
def identityLines (input : Bytes) : Option (List String) :=
  (fromUtf8 input).map fun text => ((lines text).drop 1).take 3

section Bindings

variable {input input' : Bytes}

theorem identityLines_eq {maximum : Nat} {header deviceClass : String} {source manifest : Bytes}
    {fields : List Field} {spelled : List String} (framed : IsRecord maximum header input spelled)
    (leads : Leads (identityFields deviceClass source manifest ++ fields) spelled []) :
    identityLines input = some ["device-class=" ++ deviceClass, "source-sha256=" ++ hexText source,
      "manifest-sha256=" ++ hexText manifest] := by
  obtain ⟨text, read, split⟩ := framed.text
  obtain ⟨_, _, rfl, rfl, _, _, rfl, rfl, _, _, rfl, rfl, _⟩ := leads
  rw [identityLines, fromUtf8_eq_some.mpr read, Option.map_some, split]
  rfl

theorem identityLines_inj {deviceClass deviceClass' : String}
    {source source' manifest manifest' : Bytes} :
    (some ["device-class=" ++ deviceClass, "source-sha256=" ++ hexText source,
        "manifest-sha256=" ++ hexText manifest] : Option (List String)) =
      some ["device-class=" ++ deviceClass', "source-sha256=" ++ hexText source',
        "manifest-sha256=" ++ hexText manifest'] ↔
      (deviceClass = deviceClass' ∧ source = source') ∧ manifest = manifest' := by
  simp [hexText_inj, String.append_right_inj, and_assoc]

/-- The line of the decoded path in the text of a Boot KC record. -/
def decodedPathLine (input : Bytes) : Option String :=
  (fromUtf8 input).bind fun text => (lines text)[7]?

theorem decodedPathLine_eq {r : SelectedBootKcRecord}
    (spells : (SelectedRecord.bootkc r).Spells input) :
    decodedPathLine input = some ("decoded-path=" ++ r.decodedPath) := by
  obtain ⟨spelled, framed, leads⟩ := spells
  obtain ⟨text, read, split⟩ := framed.text
  have field : (SelectedRecord.bootkc r).fields[6]? = some (.text "decoded-path=" r.decodedPath) :=
    rfl
  obtain ⟨line, there, rfl⟩ := leads_getElem? leads field
  rw [decodedPathLine, fromUtf8_eq_some.mpr read, Option.bind_some, split, List.getElem?_cons_succ,
    there]

/-- Records bind to a selected record exactly when the texts have the same identity lines: the
parsers leave no second spelling of an identity. -/
theorem bindsSelected_iff {selected : SelectedBootRecord}
    (accepted : parseSelectedBootRecord input' = .ok selected) :
    (∀ companions, parseSelectedStartupCompanions input = .ok companions →
        (companions.bindsSelected selected = true ↔ identityLines input = identityLines input')) ∧
      ∀ record, parseSelectedBootkcRecord input = .ok record →
        (record.bindsSelected selected = true ↔ identityLines input = identityLines input') ∧
        ∀ configuredPath, record.matchesSelectedPath selected configuredPath = true ↔
          identityLines input = identityLines input' ∧
            decodedPathLine input = some ("decoded-path=" ++ configuredPath) := by
  obtain ⟨_, spelled', framed', leads'⟩ := boot_accepted.mp accepted
  rw [identityLines_eq framed' leads']
  constructor
  · intro companions accepted
    obtain ⟨_, spelled, framed, leads⟩ := startup_accepted.mp accepted
    rw [identityLines_eq framed leads, identityLines_inj]
    simp [SelectedStartupCompanions.bindsSelected]
  · intro record accepted
    have spells := (bootkc_accepted.mp accepted).2
    have line := decodedPathLine_eq spells
    obtain ⟨spelled, framed, leads⟩ := spells
    rw [identityLines_eq framed leads, identityLines_inj, line]
    simp [SelectedBootKcRecord.matchesSelectedPath, SelectedBootKcRecord.bindsSelected,
      String.append_right_inj]

def zeros : Bytes := List.replicate 32 0

theorem bindsSelected_iff_sample :
    let selected : SelectedBootRecord := ⟨"J", zeros, zeros, "\\I", ⟨1, zeros⟩⟩
    let record : SelectedBootKcRecord := ⟨"J", zeros, zeros, "\\A", ⟨1, zeros⟩, "\\B", ⟨1, zeros⟩⟩
    identityLines (SelectedRecord.bootkc record).written =
        identityLines (SelectedRecord.boot selected).written ∧
      decodedPathLine (SelectedRecord.bootkc record).written = some ("decoded-path=" ++ "\\B") := by
  intro selected record
  have about : IdentityOk "J" zeros zeros := ⟨by decide +kernel, rfl, rfl⟩
  have file {path : String} {maximum : Nat} (valid : validEfiPath path = true)
      (positive : 1 ≤ maximum) : FileOk maximum path ⟨1, zeros⟩ := ⟨valid, by decide, positive, rfl⟩
  have image : validEfiPath "\\I" = true := by decide +kernel
  have signed : validEfiPath "\\A" = true := by decide +kernel
  have decoded : validEfiPath "\\B" = true := by decide +kernel
  have selected_valid : (SelectedRecord.boot selected).Valid := ⟨about, file image (by decide)⟩
  have record_valid : (SelectedRecord.bootkc record).Valid :=
    ⟨about, file signed (by decide), file decoded (by decide), by decide⟩
  have selected_spells := selected_valid.spells (by decide +kernel)
  have record_spells := record_valid.spells (by decide +kernel)
  exact ((bindsSelected_iff (boot_accepted.mpr ⟨selected_valid, selected_spells⟩)).2 record
    (bootkc_accepted.mpr ⟨record_valid, record_spells⟩)).2 "\\B" |>.mp (by decide +kernel)

end Bindings

section Sample

/-- The first 32 bytes, so that the texts of one kind collide. -/
def firstBytes (bytes : Bytes) : Bytes := (bytes ++ List.replicate 32 0).take 32

@[reducible] def firstBytesSha256 : Sha256 := ⟨firstBytes⟩

/-- A payload for the image of one byte 1. -/
def samplePayload (decoded : Bytes) : SelectedPayloadRecord :=
  ⟨firstBytes [1], "\\P", ⟨decoded.length, firstBytes decoded⟩⟩

def sampleText (decoded : Bytes) : Bytes := (SelectedRecord.payload (samplePayload decoded)).written

def sampleSelected : SelectedBootRecord := ⟨"J", zeros, zeros, "\\I", ⟨1, firstBytes [1]⟩⟩

theorem sealed_sample {decoded : Bytes} (nonempty : 0 < decoded.length)
    (small : decoded.length ≤ maxSelectedImageBytes)
    (short : (sampleText decoded).length ≤ maxSelectedRecordBytes)
    (front : firstBytes (sampleText decoded) = firstBytes (sampleText [2])) :
    @Sealed firstBytesSha256 (firstBytes (sampleText [2])) (sampleText decoded)
      (.payload (samplePayload decoded)) := by
  let := firstBytesSha256
  have length (bytes : Bytes) : (firstBytes bytes).length = 32 := by simp [firstBytes]
  have path : validEfiPath "\\P" = true := by decide +kernel
  have valid : (SelectedRecord.payload (samplePayload decoded)).Valid :=
    ⟨length _, path, nonempty.ne', small, length _⟩
  have spells := valid.spells short
  obtain ⟨_, framed, _⟩ := id spells
  exact ⟨recordDigest_eq_ok.mpr ⟨⟨framed.nonempty, short⟩, front⟩,
    accepted_iff.mpr ⟨valid, spells⟩⟩

theorem loads_sample {decoded : Bytes}
    (passes : @Sealed firstBytesSha256 (firstBytes (sampleText [2])) (sampleText decoded)
      (.payload (samplePayload decoded))) :
    @Loads firstBytesSha256 (firstBytes (sampleText [2])) (sampleText decoded)
      (.payload (samplePayload decoded)) "\\P" decoded :=
  letI := firstBytesSha256
  ⟨passes, _, List.mem_singleton_self _, _, verify_eq_ok.mpr ⟨⟨rfl, rfl⟩, rfl⟩⟩

/-- Two loads of one payload agree; a load of another payload whose record has the same digest shows
a collision. -/
theorem sealed_loads_agree_sample :
    (sampleText [2] = sampleText [2] ∧
        SelectedRecord.payload (samplePayload [2]) = .payload (samplePayload [2]) ∧
        ([2] : Bytes) = [2]) ∧
      (@Collides firstBytesSha256 (sampleText [2]) (sampleText [3, 4]) ∨
        @Collides firstBytesSha256 [2] [3, 4]) := by
  let := firstBytesSha256
  have first := loads_sample (sealed_sample (by decide) (by decide) (by decide +kernel) rfl)
  have other := loads_sample
    (@sealed_sample [3, 4] (by decide) (by decide) (by decide +kernel) (by decide +kernel))
  refine ⟨(sealed_loads_agree first first).resolve_right ?_,
    (sealed_loads_agree first other).resolve_left ?_⟩
  · rintro (text | payload)
    · exact not_collides_self _ text
    · exact not_collides_self _ payload
  · rintro ⟨_, _, same⟩
    cases same

/-- Two copies of one payload, to different places, arrive alike; a copy of another payload whose
record has the same digest shows a collision. -/
theorem sealed_copies_agree_sample :
    (([1] : Bytes) = [1] ∧ ([2] : Bytes) = [2] ∧ 1 = 1 ∧
        ([2, 0, 0] : Bytes).take 1 = ([2, 9] : Bytes).take 1) ∧
      (@Collides firstBytesSha256 (sampleText [2]) (sampleText [3, 4]) ∨
        @Collides firstBytesSha256 [1] [1] ∨ @Collides firstBytesSha256 [2] [3, 4]) := by
  let := firstBytesSha256
  have passes := @sealed_sample [2] (by decide) (by decide) (by decide +kernel) rfl
  have first : Copies (firstBytes (sampleText [2])) (sampleText [2]) sampleSelected [1]
      (samplePayload [2]) [2] [0, 0, 0] [2, 0, 0] 1 := ⟨passes, by decide +kernel⟩
  have second : Copies (firstBytes (sampleText [2])) (sampleText [2]) sampleSelected [1]
      (samplePayload [2]) [2] [9, 9] [2, 9] 1 := ⟨passes, by decide +kernel⟩
  have other : Copies (firstBytes (sampleText [2])) (sampleText [3, 4]) sampleSelected [1]
      (samplePayload [3, 4]) [3, 4] [9, 9, 9] [3, 4, 9] 2 :=
    ⟨sealed_sample (by decide) (by decide) (by decide +kernel) (by decide +kernel),
      by decide +kernel⟩
  refine ⟨(sealed_copies_agree first second).resolve_right ?_,
    (sealed_copies_agree first other).resolve_left ?_⟩
  · rintro (text | signed | payload)
    · exact not_collides_self _ text
    · exact not_collides_self _ signed
    · exact not_collides_self _ payload
  · rintro ⟨_, same, _⟩
    cases same

end Sample

end Nextcore.SelectedBoot
