import Nextcore.SelectedBoot.Fields

/-!
Selected records as texts.

A record of each kind is a header and a list of fields. A parser accepts the texts that spell a
valid record (`accepted_iff`), and the plain text of a record is one of them.
-/

namespace Nextcore.SelectedBoot

open Checked Checked.Outcome
open BootConfig (fromStrRadix)

/-! ### Lines -/

/-- A line of a record: a key, and a text or a number behind it. -/
inductive Field where
  | text (key value : String)
  | number (key : String) (n : Nat)

/-- The field is what the line gives. -/
def Field.Spells : Field → String → Prop
  | text key value, line => line = key ++ value
  | number key n, line => ∃ digits, line = key ++ digits ∧ fromStrRadix 10 digits.toList = some n

/-- The fields are what the first lines give, and the others are left. -/
def Leads : List Field → List String → List String → Prop
  | [], lines, rest => lines = rest
  | field :: fields, lines, rest =>
    ∃ line behind, lines = line :: behind ∧ field.Spells line ∧ Leads fields behind rest

/-- The plain line of a field. -/
def Field.line : Field → String
  | text key value => key ++ value
  | number key n => key ++ String.ofList (Nat.toDigits 10 n)

def identityFields (deviceClass : String) (sourceSha256 manifestSha256 : Bytes) : List Field :=
  [.text "device-class=" deviceClass, .text "source-sha256=" (hexText sourceSha256),
    .text "manifest-sha256=" (hexText manifestSha256)]

def fileFields (role path : String) (expected : ExpectedBootImage) : List Field :=
  [.text (role ++ "path=") path, .number (role ++ "bytes=") expected.byteLen,
    .text (role ++ "sha256=") (hexText expected.sha256)]

def companionFields (role : String) (companion : SelectedCompanion) : List Field :=
  fileFields (role ++ "-signed-") companion.signedPath companion.signed ++
    fileFields (role ++ "-decoded-") companion.decodedPath companion.decoded

/-! ### Records -/

inductive SelectedRecord where
  | startupCompanions (record : SelectedStartupCompanions)
  | bootkc (record : SelectedBootKcRecord)
  | payload (record : SelectedPayloadRecord)
  | boot (record : SelectedBootRecord)

namespace SelectedRecord

def header : SelectedRecord → String
  | startupCompanions _ => "nextcore-selected-startup-companions-v1"
  | bootkc _ => "nextcore-selected-bootkc-v1"
  | payload _ => "nextcore-selected-iboot-payload-v1"
  | boot _ => "nextcore-selected-iboot-v1"

def maximum : SelectedRecord → Nat
  | payload _ => maxSelectedPayloadRecordBytes
  | _ => maxSelectedRecordBytes

def fields : SelectedRecord → List Field
  | startupCompanions r => identityFields r.deviceClass r.sourceSha256 r.manifestSha256 ++
      (companionFields "sptm" r.sptm ++ companionFields "txm" r.txm)
  | bootkc r => identityFields r.deviceClass r.sourceSha256 r.manifestSha256 ++
      (fileFields "signed-" r.signedPath r.signed ++ fileFields "decoded-" r.decodedPath r.decoded)
  | payload r => .text "signed-sha256=" (hexText r.signedSha256) ::
      fileFields "decoded-" r.decodedPath r.expected
  | boot r => identityFields r.deviceClass r.sourceSha256 r.manifestSha256 ++
      fileFields "image-" r.imagePath r.expected

/-- The lines of a record, plainly. -/
def lines (record : SelectedRecord) : List String :=
  record.header :: record.fields.map Field.line

/-- The plain text of a record. -/
def written (record : SelectedRecord) : Bytes :=
  asBytes (String.join (record.lines.map (· ++ "\n")))

/-- The text gives the record, line by line. -/
def Spells (input : Bytes) (record : SelectedRecord) : Prop :=
  ∃ spelled, IsRecord record.maximum record.header input spelled ∧
    Leads record.fields spelled []

end SelectedRecord

structure IdentityOk (deviceClass : String) (sourceSha256 manifestSha256 : Bytes) : Prop where
  deviceClass : validDeviceClass deviceClass = true
  source : sourceSha256.length = 32
  manifest : manifestSha256.length = 32

structure FileOk (maximum : Nat) (path : String) (expected : ExpectedBootImage) : Prop where
  path : validEfiPath path = true
  nonempty : expected.byteLen ≠ 0
  small : expected.byteLen ≤ maximum
  digest : expected.sha256.length = 32

/-- Both files of a companion. -/
structure CompanionOk (companion : SelectedCompanion) : Prop where
  signed : FileOk maxSelectedImageBytes companion.signedPath companion.signed
  decoded : FileOk maxSelectedImageBytes companion.decodedPath companion.decoded

namespace SelectedRecord

/-- What a record has to be. -/
def Valid : SelectedRecord → Prop
  | startupCompanions r => IdentityOk r.deviceClass r.sourceSha256 r.manifestSha256 ∧
      CompanionOk r.sptm ∧ CompanionOk r.txm ∧
      r.paths.Pairwise fun a b => eqIgnoreAsciiCase a b = false
  | bootkc r => IdentityOk r.deviceClass r.sourceSha256 r.manifestSha256 ∧
      FileOk maxSelectedImageBytes r.signedPath r.signed ∧
      FileOk maxSelectedBootkcBytes r.decodedPath r.decoded ∧ r.signedPath ≠ r.decodedPath
  | payload r => r.signedSha256.length = 32 ∧ FileOk maxSelectedImageBytes r.decodedPath r.expected
  | boot r => IdentityOk r.deviceClass r.sourceSha256 r.manifestSha256 ∧
      FileOk maxSelectedImageBytes r.imagePath r.expected

/-- The parser of the record's kind returns the record. -/
def Accepted (input : Bytes) : SelectedRecord → Prop
  | startupCompanions r => parseSelectedStartupCompanions input = .ok r
  | bootkc r => parseSelectedBootkcRecord input = .ok r
  | payload r => parseSelectedPayloadRecord input = .ok r
  | boot r => parseSelectedBootRecord input = .ok r

end SelectedRecord

/-! ### What is accepted -/

section Accepted

variable {lines rest : List String}

theorem leads_append {fields fields' : List Field} :
    Leads (fields ++ fields') lines rest ↔
      ∃ behind, Leads fields lines behind ∧ Leads fields' behind rest := by
  induction fields generalizing lines with
  | nil => simp [Leads]
  | cons field fields ih =>
      simp only [List.cons_append, Leads, ih]
      constructor
      · rintro ⟨line, _, rfl, spelled, behind, first, second⟩
        exact ⟨behind, ⟨line, _, rfl, spelled, first⟩, second⟩
      · rintro ⟨behind, ⟨line, _, rfl, spelled, first⟩, second⟩
        exact ⟨line, _, rfl, spelled, behind, first, second⟩

/-- The field at an index is what the line there gives. -/
theorem leads_getElem? {fields : List Field} {field : Field} {i : Nat}
    (leads : Leads fields lines rest) (there : fields[i]? = some field) :
    ∃ line, lines[i]? = some line ∧ field.Spells line := by
  induction fields generalizing lines i with
  | nil => cases there
  | cons first fields ih =>
      obtain ⟨line, behind, rfl, spelled, others⟩ := leads
      cases i with
      | zero =>
          cases there
          exact ⟨line, rfl, spelled⟩
      | succ i =>
          rw [List.getElem?_cons_succ] at there ⊢
          exact ih others there

theorem identity_accepted {id : Identity} :
    identity lines = .ok (id, rest) ↔
      IdentityOk id.deviceClass id.sourceSha256 id.manifestSha256 ∧
        Leads (identityFields id.deviceClass id.sourceSha256 id.manifestSha256) lines rest := by
  simp only [identity, bind_eq_ok, Prod.exists, field_eq_ok, rejectIf_eq_ok, not_not,
    digestField_eq_ok, hexDigest_eq_ok, pure_eq, ok.injEq, Prod.mk.injEq, identityFields, Leads,
    Field.Spells]
  constructor
  · rintro ⟨_, _, rfl, _, valid, _, _, ⟨_, rfl, source, rfl⟩, _, _, ⟨_, rfl, manifest, rfl⟩,
      rfl, rfl⟩
    exact ⟨⟨valid, source, manifest⟩, _, _, rfl, rfl, _, _, rfl, rfl, _, _, rfl, rfl, rfl⟩
  · rintro ⟨⟨valid, source, manifest⟩, _, _, rfl, rfl, _, _, rfl, rfl, _, _, rfl, rfl, rfl⟩
    exact ⟨_, _, rfl, (), valid, _, _, ⟨_, rfl, source, rfl⟩, _, _, ⟨_, rfl, manifest, rfl⟩,
      rfl, rfl⟩

theorem filePair_accepted {role : String} {files : FilePair} :
    filePair role lines = .ok (files, rest) ↔
      (files.signedSha256.length = 32 ∧ files.decodedSha256.length = 32) ∧
        Leads (fileFields (role ++ "signed-") files.signedPath
            ⟨files.signedBytes, files.signedSha256⟩ ++
          fileFields (role ++ "decoded-") files.decodedPath
            ⟨files.decodedBytes, files.decodedSha256⟩) lines rest := by
  have join (a b : String) : role ++ a ++ b = role ++ (a ++ b) := String.append_assoc ..
  have keys : "signed-" ++ "path=" = "signed-path=" ∧ "signed-" ++ "bytes=" = "signed-bytes=" ∧
      "signed-" ++ "sha256=" = "signed-sha256=" ∧ "decoded-" ++ "path=" = "decoded-path=" ∧
      "decoded-" ++ "bytes=" = "decoded-bytes=" ∧ "decoded-" ++ "sha256=" = "decoded-sha256=" := by
    decide
  simp only [filePair, bind_eq_ok, Prod.exists, field_eq_ok, sizeField_eq_ok, digestField_eq_ok,
    hexDigest_eq_ok, pure_eq, ok.injEq, Prod.mk.injEq, fileFields, List.cons_append,
    List.nil_append, Leads, Field.Spells, join, keys]
  constructor
  · rintro ⟨_, _, rfl, _, _, ⟨signedBytes, rfl, size⟩, _, _, ⟨_, rfl, signed, rfl⟩, _, _, rfl,
      _, _, ⟨decodedBytes, rfl, size'⟩, _, _, ⟨_, rfl, decoded, rfl⟩, rfl, rfl⟩
    exact ⟨⟨signed, decoded⟩, _, _, rfl, rfl, _, _, rfl, ⟨_, rfl, size⟩, _, _, rfl, rfl, _, _, rfl,
      rfl, _, _, rfl, ⟨_, rfl, size'⟩, _, _, rfl, rfl, rfl⟩
  · rintro ⟨⟨signed, decoded⟩, _, _, rfl, rfl, _, _, rfl, ⟨signedBytes, rfl, size⟩, _, _, rfl, rfl,
      _, _, rfl, rfl, _, _, rfl, ⟨decodedBytes, rfl, size'⟩, _, _, rfl, rfl, rfl⟩
    exact ⟨_, _, rfl, _, _, ⟨_, rfl, size⟩, _, _, ⟨_, rfl, signed, rfl⟩, _, _, rfl, _, _,
      ⟨_, rfl, size'⟩, _, _, ⟨_, rfl, decoded, rfl⟩, rfl, rfl⟩

theorem companion_accepted {role : String} {companion : SelectedCompanion} :
    parseCompanion role lines = .ok (companion, rest) ↔
      CompanionOk companion ∧ Leads (companionFields role companion) lines rest := by
  have join (a b : String) : role ++ a ++ b = role ++ (a ++ b) := String.append_assoc ..
  have keys : "-" ++ "signed-" = "-signed-" ∧ "-" ++ "decoded-" = "-decoded-" := by decide
  simp only [parseCompanion, bind_eq_ok, Prod.exists, filePair_accepted, rejectIf_eq_ok, new_eq_ok,
    not_or, not_not, pure_eq, ok.injEq, Prod.mk.injEq, companionFields, join, keys]
  constructor
  · rintro ⟨files, _, ⟨⟨digest, digest'⟩, leads⟩, _, ⟨path, path'⟩, _, ⟨⟨size, size_le⟩, rfl⟩, _,
      ⟨⟨size', size_le'⟩, rfl⟩, rfl, rfl⟩
    exact ⟨⟨⟨path, size, size_le, digest⟩, ⟨path', size', size_le', digest'⟩⟩, leads⟩
  · rintro ⟨⟨signed, decoded⟩, leads⟩
    exact ⟨⟨companion.signedPath, companion.signed.byteLen, companion.signed.sha256,
        companion.decodedPath, companion.decoded.byteLen, companion.decoded.sha256⟩, rest,
      ⟨⟨signed.digest, decoded.digest⟩, leads⟩, (), ⟨signed.path, decoded.path⟩, _,
      ⟨⟨signed.nonempty, signed.small⟩, rfl⟩, _, ⟨⟨decoded.nonempty, decoded.small⟩, rfl⟩, rfl, rfl⟩

variable {input : Bytes}

theorem startup_accepted {r : SelectedStartupCompanions} :
    parseSelectedStartupCompanions input = .ok r ↔
      (SelectedRecord.startupCompanions r).Valid ∧
        (SelectedRecord.startupCompanions r).Spells input := by
  simp only [parseSelectedStartupCompanions, bind_eq_ok, Prod.exists, recordLines_eq_ok,
    identity_accepted, companion_accepted, noMore, rejectIf_eq_ok, Bool.not_eq_true,
    sharesPath_eq_false, not_not, pure_eq, ok.injEq, SelectedRecord.Valid, SelectedRecord.Spells,
    SelectedRecord.maximum, SelectedRecord.header, SelectedRecord.fields, leads_append]
  constructor
  · rintro ⟨spelled, framed, id, _, ⟨about, leads⟩, sptm, _, ⟨first, leads'⟩, txm, _,
      ⟨second, leads''⟩, _, rfl, _, apart, rfl⟩
    exact ⟨⟨about, first, second, apart⟩, spelled, framed, _, leads, _, leads', leads''⟩
  · rintro ⟨⟨about, first, second, apart⟩, spelled, framed, _, leads, _, leads', leads''⟩
    exact ⟨spelled, framed, ⟨r.deviceClass, r.sourceSha256, r.manifestSha256⟩, _, ⟨about, leads⟩,
      r.sptm, _, ⟨first, leads'⟩, r.txm, _, ⟨second, leads''⟩, (), rfl, (), apart, rfl⟩

theorem bootkc_accepted {r : SelectedBootKcRecord} :
    parseSelectedBootkcRecord input = .ok r ↔
      (SelectedRecord.bootkc r).Valid ∧ (SelectedRecord.bootkc r).Spells input := by
  have plain : "" ++ "signed-" = "signed-" ∧ "" ++ "decoded-" = "decoded-" := by decide
  simp only [parseSelectedBootkcRecord, bind_eq_ok, Prod.exists, recordLines_eq_ok,
    identity_accepted, filePair_accepted, rejectIf_eq_ok, new_eq_ok, not_or, not_not, Nat.not_lt,
    pure_eq, ok.injEq, SelectedRecord.Valid, SelectedRecord.Spells, SelectedRecord.maximum,
    SelectedRecord.header, SelectedRecord.fields, leads_append, plain]
  constructor
  · rintro ⟨spelled, framed, id, _, ⟨about, leads⟩, files, _, ⟨⟨digest, digest'⟩, behind, first,
      second⟩, _, ⟨rfl, path, path', differ⟩, _, ⟨⟨size, size_le⟩, rfl⟩, _, ⟨size', size_le'⟩, rfl⟩
    exact ⟨⟨about, ⟨path, size, size_le, digest⟩, ⟨path', size', size_le', digest'⟩, differ⟩,
      spelled, framed, _, leads, behind, first, second⟩
  · rintro ⟨⟨about, signed, decoded, differ⟩, spelled, framed, _, leads, behind, first, second⟩
    exact ⟨spelled, framed, ⟨r.deviceClass, r.sourceSha256, r.manifestSha256⟩, _, ⟨about, leads⟩,
      ⟨r.signedPath, r.signed.byteLen, r.signed.sha256, r.decodedPath, r.decoded.byteLen,
        r.decoded.sha256⟩, [], ⟨⟨signed.digest, decoded.digest⟩, behind, first, second⟩, (),
      ⟨rfl, signed.path, decoded.path, differ⟩, _, ⟨⟨signed.nonempty, signed.small⟩, rfl⟩, (),
      ⟨decoded.nonempty, decoded.small⟩, rfl⟩

theorem payload_accepted {r : SelectedPayloadRecord} :
    parseSelectedPayloadRecord input = .ok r ↔
      (SelectedRecord.payload r).Valid ∧ (SelectedRecord.payload r).Spells input := by
  have keys : "decoded-" ++ "path=" = "decoded-path=" ∧ "decoded-" ++ "bytes=" = "decoded-bytes=" ∧
      "decoded-" ++ "sha256=" = "decoded-sha256=" := by decide
  simp only [parseSelectedPayloadRecord, bind_eq_ok, Prod.exists, recordLines_eq_ok, field_eq_ok,
    sizeField_eq_ok, digestField_eq_ok, hexDigest_eq_ok, noMore, rejectIf_eq_ok, new_eq_ok, not_not,
    pure_eq, ok.injEq, SelectedRecord.Valid, SelectedRecord.Spells, SelectedRecord.maximum,
    SelectedRecord.header, SelectedRecord.fields, fileFields, Leads, Field.Spells, keys]
  constructor
  · rintro ⟨spelled, framed, _, _, ⟨_, rfl, source, rfl⟩, _, _, rfl, _, path, _, _,
      ⟨_, rfl, read⟩, _, _, ⟨_, rfl, digest, rfl⟩, _, rfl, _, ⟨⟨size, size_le⟩, rfl⟩, rfl⟩
    exact ⟨⟨source, path, size, size_le, digest⟩, _, framed, _, _, rfl, rfl, _, _, rfl, rfl, _, _,
      rfl, ⟨_, rfl, read⟩, _, _, rfl, rfl, rfl⟩
  · rintro ⟨⟨source, path, size, size_le, digest⟩, _, framed, _, _, rfl, rfl, _, _, rfl, rfl, _, _,
      rfl, ⟨_, rfl, read⟩, _, _, rfl, rfl, rfl⟩
    exact ⟨_, framed, _, _, ⟨_, rfl, source, rfl⟩, _, _, rfl, (), path, _, _, ⟨_, rfl, read⟩, _, _,
      ⟨_, rfl, digest, rfl⟩, (), rfl, _, ⟨⟨size, size_le⟩, rfl⟩, rfl⟩

theorem boot_accepted {r : SelectedBootRecord} :
    parseSelectedBootRecord input = .ok r ↔
      (SelectedRecord.boot r).Valid ∧ (SelectedRecord.boot r).Spells input := by
  have keys : "image-" ++ "path=" = "image-path=" ∧ "image-" ++ "bytes=" = "image-bytes=" ∧
      "image-" ++ "sha256=" = "image-sha256=" := by decide
  simp only [parseSelectedBootRecord, bind_eq_ok, Prod.exists, recordLines_eq_ok, identity_accepted,
    field_eq_ok, sizeField_eq_ok, digestField_eq_ok, hexDigest_eq_ok, noMore, rejectIf_eq_ok,
    new_eq_ok, not_not, pure_eq, ok.injEq, SelectedRecord.Valid, SelectedRecord.Spells,
    SelectedRecord.maximum, SelectedRecord.header, SelectedRecord.fields, leads_append, fileFields,
    Leads, Field.Spells, keys]
  constructor
  · rintro ⟨spelled, framed, id, _, ⟨about, leads⟩, _, _, rfl, _, path, _, _, ⟨_, rfl, read⟩, _, _,
      ⟨_, rfl, digest, rfl⟩, _, rfl, _, ⟨⟨size, size_le⟩, rfl⟩, rfl⟩
    exact ⟨⟨about, path, size, size_le, digest⟩, _, framed, _, leads, _, _, rfl, rfl, _, _, rfl,
      ⟨_, rfl, read⟩, _, _, rfl, rfl, rfl⟩
  · rintro ⟨⟨about, path, size, size_le, digest⟩, _, framed, _, leads, _, _, rfl, rfl, _, _, rfl,
      ⟨_, rfl, read⟩, _, _, rfl, rfl, rfl⟩
    exact ⟨_, framed, ⟨r.deviceClass, r.sourceSha256, r.manifestSha256⟩, _, ⟨about, leads⟩, _,
      _, rfl, (), path, _, _, ⟨_, rfl, read⟩, _, _, ⟨_, rfl, digest, rfl⟩, (), rfl, _,
      ⟨⟨size, size_le⟩, rfl⟩, rfl⟩

/-- A parser accepts the texts that spell a valid record of its kind. -/
theorem accepted_iff {record : SelectedRecord} :
    record.Accepted input ↔ record.Valid ∧ record.Spells input := by
  cases record with
  | startupCompanions r => exact startup_accepted
  | bootkc r => exact bootkc_accepted
  | payload r => exact payload_accepted
  | boot r => exact boot_accepted

end Accepted

/-! ### One record for a text -/

/-- The same key, and the same kind of value behind it. -/
def Field.Alike : Field → Field → Prop
  | .text key _, .text key' _ => key = key'
  | .number key _, .number key' _ => key = key'
  | _, _ => False

section Unique

theorem Field.Spells.unique {f f' : Field} {line : String} (spells : f.Spells line)
    (spells' : f'.Spells line) (alike : f.Alike f') : f = f' := by
  cases f with
  | text key value =>
      cases f' with
      | text key' value' =>
          cases alike
          rw [Field.Spells] at spells spells'
          rw [String.append_right_inj _ |>.mp (spells.symm.trans spells')]
      | number => exact alike.elim
  | number key n =>
      cases f' with
      | text => exact alike.elim
      | number key' n' =>
          cases alike
          obtain ⟨digits, rfl, read⟩ := spells
          obtain ⟨digits', same, read'⟩ := spells'
          rw [String.append_right_inj _ |>.mp same, read', Option.some.injEq] at read
          rw [read]

theorem leads_unique {fields fields' : List Field} {lines rest rest' : List String}
    (leads : Leads fields lines rest) (leads' : Leads fields' lines rest')
    (alike : List.Forall₂ Field.Alike fields fields') : fields = fields' := by
  induction alike generalizing lines with
  | nil => rfl
  | cons first _ ih =>
      obtain ⟨line, behind, rfl, spells, leads⟩ := leads
      obtain ⟨_, _, same, spells', leads'⟩ := leads'
      cases same
      rw [spells.unique spells' first, ih leads leads']

/-- A text has one header and one list of lines. -/
theorem IsRecord.unique {maximum maximum' : Nat} {header header' : String} {input : Bytes}
    {spelled spelled' : List String} (record : IsRecord maximum header input spelled)
    (record' : IsRecord maximum' header' input spelled') :
    header = header' ∧ spelled = spelled' := by
  obtain ⟨text, read, split⟩ := record.text
  obtain ⟨text', read', split'⟩ := record'.text
  obtain rfl := asBytes_inj.mp (read.trans read'.symm)
  rw [split, List.cons.injEq] at split'
  exact split'

/-- Records for one parser. -/
inductive SelectedRecord.SameKind : SelectedRecord → SelectedRecord → Prop
  | startupCompanions (r r') : SameKind (.startupCompanions r) (.startupCompanions r')
  | bootkc (r r') : SameKind (.bootkc r) (.bootkc r')
  | payload (r r') : SameKind (.payload r) (.payload r')
  | boot (r r') : SameKind (.boot r) (.boot r')

namespace SelectedRecord

variable {record record' : SelectedRecord}

theorem sameKind_of_header (same : record.header = record'.header) : SameKind record record' := by
  cases record <;> cases record' <;> first | constructor | simp [header] at same

theorem SameKind.alike (kind : SameKind record record') :
    List.Forall₂ Field.Alike record.fields record'.fields := by
  cases kind <;> simp [fields, identityFields, companionFields, fileFields, Field.Alike]

/-- The fields determine a record. -/
theorem SameKind.eq_of_fields (kind : SameKind record record')
    (same : record.fields = record'.fields) : record = record' := by
  cases kind with
  | startupCompanions r r' =>
      obtain ⟨_, _, _, ⟨_, ⟨_, _⟩, _, ⟨_, _⟩⟩, ⟨_, ⟨_, _⟩, _, ⟨_, _⟩⟩⟩ := r
      obtain ⟨_, _, _, ⟨_, ⟨_, _⟩, _, ⟨_, _⟩⟩, ⟨_, ⟨_, _⟩, _, ⟨_, _⟩⟩⟩ := r'
      simpa [fields, identityFields, companionFields, fileFields, hexText_inj, and_assoc] using same
  | bootkc r r' =>
      obtain ⟨_, _, _, _, ⟨_, _⟩, _, ⟨_, _⟩⟩ := r
      obtain ⟨_, _, _, _, ⟨_, _⟩, _, ⟨_, _⟩⟩ := r'
      simpa [fields, identityFields, fileFields, hexText_inj, and_assoc] using same
  | payload r r' =>
      obtain ⟨_, _, ⟨_, _⟩⟩ := r
      obtain ⟨_, _, ⟨_, _⟩⟩ := r'
      simpa [fields, fileFields, hexText_inj, and_assoc] using same
  | boot r r' =>
      obtain ⟨_, _, _, _, ⟨_, _⟩⟩ := r
      obtain ⟨_, _, _, _, ⟨_, _⟩⟩ := r'
      simpa [fields, identityFields, fileFields, hexText_inj, and_assoc] using same

/-- A text spells one record, whatever its kind. -/
theorem Spells.unique {input : Bytes} (spells : record.Spells input)
    (spells' : record'.Spells input) : record = record' := by
  obtain ⟨spelled, framed, leads⟩ := spells
  obtain ⟨_, framed', leads'⟩ := spells'
  obtain ⟨same, rfl⟩ := framed.unique framed'
  have kind := sameKind_of_header same
  exact kind.eq_of_fields (leads_unique leads leads' kind.alike)

end SelectedRecord

end Unique

/-! ### Plain texts -/

/-- No character ends a line. -/
def Plain (text : String) : Prop := ∀ c ∈ text.toList, c ≠ '\n' ∧ c ≠ '\r'

instance (text : String) : Decidable (Plain text) :=
  List.decidableBAll (fun c => c ≠ '\n' ∧ c ≠ '\r') text.toList

section Plain

variable {a b : String}

theorem asBytes_append (a b : String) : asBytes (a ++ b) = asBytes a ++ asBytes b := by
  rw [asBytes, asBytes, asBytes, String.toByteArray_append, ByteArray.data_append,
    Array.toList_append]

/-- The text of a list of lines ends in a line feed. -/
theorem suffix_join {list : List String} (nonempty : list ≠ []) :
    asBytes "\n" <:+ asBytes (String.join (list.map (· ++ "\n"))) := by
  induction list with
  | nil => exact absurd rfl nonempty
  | cons line rest ih =>
      rw [List.map_cons, String.join_cons, asBytes_append, asBytes_append]
      cases rest with
      | nil => exact ⟨asBytes line, (List.append_nil _).symm⟩
      | cons next rest =>
          exact List.IsSuffix.trans (ih (List.cons_ne_nil _ _)) (List.suffix_append _ _)

theorem Plain.isLine {line : String} (plain : Plain line) : IsLine line where
  one mem := (plain _ mem).1 rfl
  ended last := (plain _ (List.mem_of_getLast? last)).2 rfl

theorem Plain.append (first : Plain a) (second : Plain b) : Plain (a ++ b) := by
  rw [Plain, String.toList_append]
  exact List.forall_mem_append.mpr ⟨first, second⟩

theorem plain_of_bytes (bytes : ∀ b ∈ asBytes a, b ≠ 0x0a ∧ b ≠ 0x0d) : Plain a := by
  rw [← String.ofList_toList (s := a), asBytes_ofList] at bytes
  intro c mem
  have own (n : UInt8) (code : String.utf8EncodeChar c = [n]) : n ≠ 0x0a ∧ n ≠ 0x0d := by
    refine bytes n (List.mem_flatMap.mpr ⟨c, mem, ?_⟩)
    rw [code]
    exact List.mem_singleton_self n
  refine ⟨?_, ?_⟩
  · rintro rfl
    exact (own 0x0a (by decide)).1 rfl
  · rintro rfl
    exact (own 0x0d (by decide)).2 rfl

theorem plain_hexText (digest : Bytes) : Plain (hexText digest) := by
  refine plain_of_bytes fun c mem => ?_
  rw [asBytes_hexText] at mem
  obtain ⟨b, _, mem⟩ := List.mem_flatMap.mp mem
  exact (hexPair_plain mem).2

theorem plain_toDigits (n : Nat) : Plain (String.ofList (Nat.toDigits 10 n)) := by
  intro c mem
  rw [String.toList_ofList] at mem
  have digit := Nat.isDigit_of_mem_toDigits (by decide) (by decide) mem
  refine ⟨?_, ?_⟩
  · rintro rfl
    exact absurd digit (by decide)
  · rintro rfl
    exact absurd digit (by decide)

theorem plain_path {path : String} (valid : validEfiPath path = true) : Plain path := by
  refine plain_of_bytes fun b mem => ?_
  simp only [validEfiPath, Bool.and_eq_true, List.all_eq_true] at valid
  have allowed := valid.2 b mem
  refine ⟨?_, ?_⟩
  · rintro rfl
    exact absurd allowed (by decide)
  · rintro rfl
    exact absurd allowed (by decide)

theorem plain_deviceClass {deviceClass : String} (valid : validDeviceClass deviceClass = true) :
    Plain deviceClass := by
  refine plain_of_bytes fun b mem => ?_
  simp only [validDeviceClass, Bool.and_eq_true, List.all_eq_true] at valid
  have allowed := valid.2 b mem
  refine ⟨?_, ?_⟩
  · rintro rfl
    exact absurd allowed (by decide)
  · rintro rfl
    exact absurd allowed (by decide)

end Plain

/-- The value of a field can be written: no line ends in it, and a number is a word. -/
def Field.Writable : Field → Prop
  | .text key value => Plain key ∧ Plain value
  | .number key n => Plain key ∧ n < 2 ^ 64

section Written

theorem Field.Writable.plain {f : Field} (writable : f.Writable) : Plain f.line := by
  cases f with
  | text key value => exact writable.1.append writable.2
  | number key n => exact writable.1.append (plain_toDigits n)

theorem Field.Writable.spells {f : Field} (writable : f.Writable) : f.Spells f.line := by
  cases f with
  | text key value => rfl
  | number key n =>
      refine ⟨_, rfl, ?_⟩
      rw [String.toList_ofList]
      exact fromStrRadix_toDigits writable.2

theorem leads_lines {fields : List Field} (writable : ∀ f ∈ fields, f.Writable) :
    Leads fields (fields.map Field.line) [] := by
  induction fields with
  | nil => rfl
  | cons f fields ih =>
      obtain ⟨first, others⟩ := List.forall_mem_cons.mp writable
      exact ⟨f.line, _, rfl, first.spells, ih others⟩

theorem writable_identity {deviceClass : String} {source manifest : Bytes}
    (about : IdentityOk deviceClass source manifest) :
    ∀ f ∈ identityFields deviceClass source manifest, f.Writable := by
  simp only [identityFields, List.forall_mem_cons]
  exact ⟨⟨by decide +kernel, plain_deviceClass about.deviceClass⟩,
    ⟨by decide +kernel, plain_hexText _⟩, ⟨by decide +kernel, plain_hexText _⟩,
    List.forall_mem_nil _⟩

theorem writable_file {role path : String} {maximum : Nat} {expected : ExpectedBootImage}
    (ok : FileOk maximum path expected) (plain : Plain role) (word : maximum < 2 ^ 64) :
    ∀ f ∈ fileFields role path expected, f.Writable := by
  simp only [fileFields, List.forall_mem_cons]
  exact ⟨⟨plain.append (by decide +kernel), plain_path ok.path⟩,
    ⟨plain.append (by decide +kernel), Nat.lt_of_le_of_lt ok.small word⟩,
    ⟨plain.append (by decide +kernel), plain_hexText _⟩, List.forall_mem_nil _⟩

theorem writable_companion {role : String} {companion : SelectedCompanion}
    (ok : CompanionOk companion) (plain : Plain role) :
    ∀ f ∈ companionFields role companion, f.Writable :=
  List.forall_mem_append.mpr
    ⟨writable_file ok.signed (plain.append (by decide +kernel)) (by decide),
      writable_file ok.decoded (plain.append (by decide +kernel)) (by decide)⟩

namespace SelectedRecord

variable {record : SelectedRecord}

theorem Valid.writable (valid : record.Valid) : ∀ f ∈ record.fields, f.Writable := by
  cases record with
  | startupCompanions r =>
      obtain ⟨about, sptm, txm, _⟩ := valid
      exact List.forall_mem_append.mpr ⟨writable_identity about, List.forall_mem_append.mpr
        ⟨writable_companion sptm (by decide +kernel),
          writable_companion txm (by decide +kernel)⟩⟩
  | bootkc r =>
      obtain ⟨about, signed, decoded, _⟩ := valid
      exact List.forall_mem_append.mpr ⟨writable_identity about, List.forall_mem_append.mpr
        ⟨writable_file signed (by decide +kernel) (by decide),
          writable_file decoded (by decide +kernel) (by decide)⟩⟩
  | payload r =>
      exact List.forall_mem_cons.mpr ⟨⟨by decide +kernel, plain_hexText _⟩,
        writable_file valid.2 (by decide +kernel) (by decide)⟩
  | boot r =>
      exact List.forall_mem_append.mpr ⟨writable_identity valid.1,
        writable_file valid.2 (by decide +kernel) (by decide)⟩

theorem plain_header (record : SelectedRecord) : Plain record.header := by
  unfold header
  split <;> decide +kernel

/-- The plain text of a valid record spells it, if it is not too long. -/
theorem Valid.spells (valid : record.Valid) (short : record.written.length ≤ record.maximum) :
    record.Spells record.written := by
  have writable := valid.writable
  have plain : ∀ line ∈ record.lines, IsLine line := by
    refine List.forall_mem_cons.mpr ⟨(plain_header record).isLine, ?_⟩
    exact List.forall_mem_map.mpr fun f mem => (writable f mem).plain.isLine
  have ended : asBytes "\n" <:+ record.written := suffix_join (List.cons_ne_nil _ _)
  have nonempty : record.written ≠ [] := by
    intro none
    rw [none] at ended
    exact absurd (List.suffix_nil.mp ended) (by decide)
  exact ⟨record.fields.map Field.line, ⟨nonempty, short, ended, _, rfl, lines_join plain⟩,
    leads_lines writable⟩

/-- A parser accepts exactly the texts that spell a valid record of its kind, and such a text
spells no other record of any kind. -/
theorem accepted_spells_once {input : Bytes} {record : SelectedRecord} :
    record.Accepted input ↔ record.Valid ∧ record.Spells input ∧
      ∀ other : SelectedRecord, other.Spells input → other = record := by
  rw [accepted_iff]
  constructor
  · rintro ⟨valid, spells⟩
    exact ⟨valid, spells, fun other others => others.unique spells⟩
  · rintro ⟨valid, spells, _⟩
    exact ⟨valid, spells⟩

/-- A record comes back from its plain text exactly when it is valid and the text is not too
long. -/
theorem accepted_written_iff (record : SelectedRecord) :
    record.Accepted record.written ↔
      record.Valid ∧ record.written.length ≤ record.maximum := by
  rw [accepted_iff]
  constructor
  · rintro ⟨valid, _, framed, _⟩
    exact ⟨valid, framed.short⟩
  · rintro ⟨valid, short⟩
    exact ⟨valid, valid.spells short⟩

end SelectedRecord

end Written

end Nextcore.SelectedBoot
