import Nextcore.SelectedBoot.Written

/-!
Whether the files that records name are different files of a file system that does not tell the
case of letters apart.

The startup record compares its paths that way. The Boot KC record and the binding of a payload
compare them letter by letter, and so accept two spellings of one name; `namesApart_iff` says that
this is all they let through. `SpellsBootkc` is the text of a Boot KC record, apart from the
comparison of its paths.
-/

namespace Nextcore.SelectedBoot

open Checked Checked.Outcome
open RuntimeDt (Sha256)

/-! ### The records -/

theorem startup_paths {input : Bytes} {companions : SelectedStartupCompanions}
    (accepted : parseSelectedStartupCompanions input = .ok companions) :
    companions.paths.Pairwise fun a b => eqIgnoreAsciiCase a b = false := by
  obtain ⟨⟨_, _, _, apart⟩, _⟩ := startup_accepted.mp accepted
  exact apart

/-- With reserved names that are apart, the four paths are disjoint from them exactly when all of
the names are apart. -/
theorem startup_paths_apart {input : Bytes} {companions : SelectedStartupCompanions}
    (accepted : parseSelectedStartupCompanions input = .ok companions) {reserved : List String}
    (apart : reserved.Pairwise fun a b => eqIgnoreAsciiCase a b = false) :
    companions.pathsDisjointFrom reserved = true ↔
      (companions.paths ++ reserved).Pairwise fun a b => eqIgnoreAsciiCase a b = false := by
  rw [List.pairwise_append]
  simp only [SelectedStartupCompanions.pathsDisjointFrom, List.all_eq_true, Bool.not_eq_true']
  constructor
  · exact fun disjoint => ⟨startup_paths accepted, apart, disjoint⟩
  · exact fun ⟨_, _, disjoint⟩ => disjoint

/-- The text of a Boot KC record with valid fields. -/
structure SpellsBootkc (input : Bytes) (record : SelectedBootKcRecord) : Prop where
  text : (SelectedRecord.bootkc record).Spells input
  about : IdentityOk record.deviceClass record.sourceSha256 record.manifestSha256
  signed : FileOk maxSelectedImageBytes record.signedPath record.signed
  decoded : FileOk maxSelectedBootkcBytes record.decodedPath record.decoded

/-- What is accepted is the text of a record whose paths are spelled differently. -/
theorem bootkc_eq_ok {input : Bytes} {record : SelectedBootKcRecord} :
    parseSelectedBootkcRecord input = .ok record ↔
      SpellsBootkc input record ∧ record.signedPath ≠ record.decodedPath := by
  rw [bootkc_accepted]
  constructor
  · rintro ⟨⟨about, signed, decoded, differ⟩, text⟩
    exact ⟨⟨text, about, signed, decoded⟩, differ⟩
  · rintro ⟨⟨text, about, signed, decoded⟩, differ⟩
    exact ⟨⟨about, signed, decoded, differ⟩, text⟩

/-! ### The binding of a payload -/

section Payload

variable [Sha256]

/-- The bytes are those that are expected. -/
structure Measures (expected : ExpectedBootImage) (bytes : Bytes) : Prop where
  size : bytes.length = expected.byteLen
  digest : Sha256.digest bytes = expected.sha256

theorem verify_eq_ok {expected : ExpectedBootImage} {source : Bytes} {image : VerifiedBootImage} :
    verifySelectedImage (some expected) source = .ok image ↔
      Measures expected source ∧ image = ⟨source, Sha256.digest source⟩ := by
  simp only [verifySelectedImage, bind_eq_ok, ofOption_eq_ok, Option.some.injEq, rejectIf_eq_ok,
    not_not, pure_eq, ok.injEq]
  constructor
  · rintro ⟨_, rfl, _, size, _, digest, rfl⟩
    exact ⟨⟨size, digest⟩, rfl⟩
  · rintro ⟨⟨size, digest⟩, rfl⟩
    exact ⟨_, rfl, (), size, (), digest, rfl⟩

/-- Everything that the copy asks for but for the comparison of the paths. -/
structure BindsPayload (selected : SelectedBootRecord) (signed : Bytes)
    (companion : SelectedPayloadRecord) (decoded destination : Bytes) : Prop where
  image : Measures selected.expected signed
  source : companion.signedSha256 = selected.expected.sha256
  payload : Measures companion.expected decoded
  room : decoded.length ≤ destination.length

theorem copy_eq_ok {selected : SelectedBootRecord} {companion : SelectedPayloadRecord}
    {signed decoded destination copied : Bytes} {n : Nat} :
    (copySelectedPayload selected signed companion decoded).on destination = (.ok n, copied) ↔
      BindsPayload selected signed companion decoded destination ∧
        companion.decodedPath ≠ selected.imagePath ∧ n = decoded.length ∧
        copied = overlay destination 0 decoded := by
  simp only [copySelectedPayload, Exec.lift, Exec.on_look_bind_eq_ok, verify_eq_ok, rejectIf_eq_ok,
    Exec.on_update_bind_eq_ok, copyFrom_eq_ok, Exec.on_pure, Prod.mk.injEq, ok.injEq, not_or,
    not_not, Nat.not_lt]
  constructor
  · rintro ⟨_, ⟨first, _⟩, _, ⟨source, differ⟩, _, ⟨second, rfl⟩, _, room, _, ⟨_, rfl⟩, rfl, rfl⟩
    exact ⟨⟨first, source, second, room⟩, differ, rfl, rfl⟩
  · rintro ⟨⟨first, source, second, room⟩, differ, rfl, rfl⟩
    exact ⟨_, ⟨first, rfl⟩, (), ⟨source, differ⟩, _, ⟨second, rfl⟩, (), room, _,
      ⟨⟨Nat.zero_le _, room, Nat.sub_zero _⟩, rfl⟩, rfl, rfl⟩

end Payload

/-! ### What they let through -/

/-- The calls that keep the files of records apart. -/
inductive Call where
  | startupCompanions (input : Bytes)
  | bootkcRecord (input : Bytes)
  | payload (selected : SelectedBootRecord) (signed : Bytes) (companion : SelectedPayloadRecord)
      (decoded destination : Bytes)

section Apart

variable [Sha256]

/-- Where the call succeeds, the files are apart without regard to the case of letters. -/
def NamesApart : Call → Prop
  | .startupCompanions input => ∀ companions,
      parseSelectedStartupCompanions input = .ok companions →
      companions.paths.Pairwise fun a b => eqIgnoreAsciiCase a b = false
  | .bootkcRecord input => ∀ record, parseSelectedBootkcRecord input = .ok record →
      eqIgnoreAsciiCase record.signedPath record.decodedPath = false
  | .payload selected signed companion decoded destination => ∀ n copied,
      (copySelectedPayload selected signed companion decoded).on destination = (.ok n, copied) →
      eqIgnoreAsciiCase companion.decodedPath selected.imagePath = false

/-- The call is in order but for its two paths, which are two spellings of one name. -/
def SpelledTwice : Call → Prop
  | .startupCompanions _ => False
  | .bootkcRecord input => ∃ record, SpellsBootkc input record ∧
      CaseVariants record.signedPath record.decodedPath
  | .payload selected signed companion decoded destination =>
      BindsPayload selected signed companion decoded destination ∧
        CaseVariants companion.decodedPath selected.imagePath

/-- The files are apart unless one is spelled in two ways. -/
theorem namesApart_iff (call : Call) : NamesApart call ↔ ¬ SpelledTwice call := by
  cases call with
  | startupCompanions input => exact ⟨fun _ => id, fun _ companions => startup_paths⟩
  | bootkcRecord input =>
      constructor
      · rintro apart ⟨record, spelled, variants⟩
        have accepted := bootkc_eq_ok.mpr ⟨spelled, variants.differ⟩
        exact (not_eqIgnoreAsciiCase_iff variants.differ).mp (apart _ accepted) variants
      · intro apart record accepted
        obtain ⟨spelled, differ⟩ := bootkc_eq_ok.mp accepted
        exact (not_eqIgnoreAsciiCase_iff differ).mpr fun variants =>
          apart ⟨record, spelled, variants⟩
  | payload selected signed companion decoded destination =>
      constructor
      · rintro apart ⟨bound, variants⟩
        have copied := copy_eq_ok.mpr ⟨bound, variants.differ, rfl, rfl⟩
        exact (not_eqIgnoreAsciiCase_iff variants.differ).mp (apart _ _ copied) variants
      · intro apart n copied done
        obtain ⟨bound, differ, _⟩ := copy_eq_ok.mp done
        exact (not_eqIgnoreAsciiCase_iff differ).mpr fun variants => apart ⟨bound, variants⟩

end Apart

/-- 32 bytes of zeros, in hexadecimal. -/
def zeroDigest : String := "0000000000000000000000000000000000000000000000000000000000000000"

/-- A record whose decoded file is the signed file in other letters. -/
def twiceSpelled : List String :=
  ["nextcore-selected-bootkc-v1", "device-class=j274ap", "source-sha256=" ++ zeroDigest,
    "manifest-sha256=" ++ zeroDigest, "signed-path=\\EFI\\KC", "signed-bytes=6",
    "signed-sha256=" ++ zeroDigest, "decoded-path=\\efi\\kc", "decoded-bytes=7",
    "decoded-sha256=" ++ zeroDigest]

theorem bootkc_names_one_file :
    ∃ input record, input = asBytes (String.join (twiceSpelled.map (· ++ "\n"))) ∧
      parseSelectedBootkcRecord input = .ok record ∧
      eqIgnoreAsciiCase record.signedPath record.decodedPath = true := by
  let zeros : Bytes := List.replicate 32 0
  let record : SelectedBootKcRecord :=
    ⟨"j274ap", zeros, zeros, "\\EFI\\KC", ⟨6, zeros⟩, "\\efi\\kc", ⟨7, zeros⟩⟩
  have lines : (SelectedRecord.bootkc record).lines = twiceSpelled := by decide +kernel
  have signed : validEfiPath "\\EFI\\KC" = true := by decide +kernel
  have decoded : validEfiPath "\\efi\\kc" = true := by decide +kernel
  have valid : (SelectedRecord.bootkc record).Valid :=
    ⟨⟨by decide +kernel, rfl, rfl⟩, ⟨signed, by decide, by decide, rfl⟩,
      ⟨decoded, by decide, by decide, rfl⟩, by decide⟩
  have spells := valid.spells (by decide +kernel)
  rw [SelectedRecord.written, lines] at spells
  exact ⟨_, record, rfl, bootkc_accepted.mpr ⟨valid, spells⟩, by decide +kernel⟩

end Nextcore.SelectedBoot
