import Nextcore.CoreError
import Nextcore.Lib.Bytes

/-!
The ACPI tables (`src/acpi.rs`): the root pointer, the root table it leads to, and the tables
listed there.

Addresses are positions in one byte string. They come out of it as they are and are added to
with no guard, which is what `add` and `sub` are here.
-/

namespace Nextcore.Acpi

open Checked Checked.Outcome

abbrev Result (α : Type) := Outcome CoreError α

/-- `b"RSD PTR "`. -/
def rsdpSignature : Bytes := [0x52, 0x53, 0x44, 0x20, 0x50, 0x54, 0x52, 0x20]
/-- `b"XSDT"`. -/
def xsdtSignature : Bytes := [0x58, 0x53, 0x44, 0x54]
/-- `b"RSDT"`. -/
def rsdtSignature : Bytes := [0x52, 0x53, 0x44, 0x54]

def rsdpLength : Nat := 36
def xsdtHeaderSize : Nat := 36

structure AcpiTableHeader where
  length : Nat
  revision : UInt8
  checksum : UInt8
  oemId : Bytes
  oemTableId : Bytes
  deriving DecidableEq

structure Rsdp where
  signature : Bytes
  checksum : UInt8
  rsdtAddress : Nat
  length : Nat
  xsdtAddress : Nat
  extendedChecksum : UInt8
  deriving DecidableEq

structure Xsdt where
  header : AcpiTableHeader
  tableAddresses : List Nat
  deriving DecidableEq

structure AcpiTables where
  data : Bytes
  xsdt : Xsdt
  deriving DecidableEq

def checksum (data : Bytes) : UInt8 := data.foldl (· + ·) 0

/-- `&data[offset..offset + size]`. -/
def rangeAt (data : Bytes) (offset size : Nat) : Result Bytes := do
  let stop ← add offset size
  index data offset stop

/-- A word of `width` bytes, where the data has them. -/
def readLe (width : Nat) (data : Bytes) (offset : Nat) : Result (Option Nat) := do
  let stop ← add offset width
  if stop > data.length then pure none
  else do
    let bytes ← index data offset stop
    pure (some (fromLeBytes bytes))

def readU32Le : Bytes → Nat → Result (Option Nat) := readLe 4
def readU64Le : Bytes → Nat → Result (Option Nat) := readLe 8

/-- `read(data, offset + distance)`. -/
def readFrom (read : Bytes → Nat → Result (Option Nat)) (data : Bytes) (offset distance : Nat) :
    Result (Option Nat) := do
  let start ← add offset distance
  read data start

/-! ### The root pointer -/

/-- `length >= 36 && i + length <= data.len()`, and the sum over that length. -/
def extendedChecksum (data : Bytes) (i length : Nat) : Result UInt8 := do
  if length ≥ 36 then do
    let stop ← add i length
    if stop ≤ data.length then do
      let bytes ← index data i stop
      pure (checksum bytes)
    else pure 0
  else pure 0

/-- The body of the scan at `i`: nothing where the scan goes on. -/
def rsdpAt (data : Bytes) (i : Nat) : Result (Option Rsdp) := do
  let sig ← rangeAt data i 8
  if sig = rsdpSignature then do
    let summed ← rangeAt data i 20
    if checksum summed ≠ 0 then pure none
    else do
      let word ← readFrom readU64Le data i 24
      let xsdtAddress ← ofOption (.acpiInvalid "failed to read XSDT address") word
      let declared ← readFrom readU32Le data i 20
      let length := if xsdtAddress ≠ 0 then declared.getD 36 else 36
      let extended ← extendedChecksum data i length
      let rsdtAddress ← readFrom readU32Le data i 16
      pure (some
        { signature := sig, checksum := checksum summed, rsdtAddress := rsdtAddress.getD 0, length,
          xsdtAddress, extendedChecksum := extended })
  else pure none

def findRsdp (data : Bytes) : Result Rsdp := do
  rejectIf (data.length < rsdpLength) (.acpiNotFound "data too short for RSDP")
  let found ← findMapM (rsdpAt data) (List.range (data.length - rsdpLength))
  ofOption (.acpiNotFound "RSDP") found

/-! ### The root table -/

def parseTableHeader (data : Bytes) (offset : Nat) : Result AcpiTableHeader := do
  let stop ← add offset 36
  rejectIf (stop > data.length) (.acpiInvalid "table header extends beyond data")
  let word ← readFrom readU32Le data offset 4
  let at_revision ← add offset 8
  let revision ← byteAt data at_revision
  let at_checksum ← add offset 9
  let checksum ← byteAt data at_checksum
  let at_oem ← add offset 10
  let at_table ← add offset 16
  let oemId ← index data at_oem at_table
  let at_rest ← add offset 24
  let oemTableId ← index data at_table at_rest
  pure { length := word.getD 0, revision, checksum, oemId, oemTableId }

/-- The texts of the errors of a root table. -/
structure RootTexts where
  truncated : String
  mismatch : String
  unread : String

section RootTable

variable (data : Bytes) (width : Nat) (texts : RootTexts)

/-- The entries from the `i`-th on, when `left` of them remain. The loop ends early where an
entry would leave the data. -/
def readAddresses (offset i : Nat) : Nat → Result (List Nat)
  | 0 => pure []
  | left + 1 => do
    let entries ← add offset xsdtHeaderSize
    let step ← mul i width
    let addrOffset ← add entries step
    let stop ← add addrOffset width
    if stop > data.length then pure []
    else do
      let word ← readLe width data addrOffset
      let addr ← ofOption (.acpiInvalid texts.unread) word
      let rest ← readAddresses offset (i + 1) left
      pure (addr :: rest)

/-- What the two kinds of root table have in common: the width of an entry is all that differs
in how they are read. -/
def parseRootTable (signature : Bytes) (offset : Nat) : Result Xsdt := do
  let stop ← add offset xsdtHeaderSize
  rejectIf (stop > data.length) (.acpiInvalid texts.truncated)
  let sig ← rangeAt data offset 4
  rejectIf (sig ≠ signature) (.acpiInvalid texts.mismatch)
  let header ← parseTableHeader data offset
  let room ← sub header.length xsdtHeaderSize
  let tableAddresses ← readAddresses data width texts offset 0 (room / width)
  pure { header, tableAddresses }

end RootTable

def parseXsdtTable (data : Bytes) : Nat → Result Xsdt :=
  parseRootTable data 8
    ⟨"XSDT header truncated", "XSDT signature mismatch", "failed to read XSDT entry address"⟩
    xsdtSignature

def parseRsdtTable (data : Bytes) : Nat → Result Xsdt :=
  parseRootTable data 4
    ⟨"RSDT header truncated", "RSDT signature mismatch", "failed to read RSDT entry address"⟩
    rsdtSignature

namespace AcpiTables

def parse (data : Bytes) : Result AcpiTables := do
  let rsdp ← findRsdp data
  if rsdp.xsdtAddress ≠ 0 then do
    let stop ← add rsdp.xsdtAddress xsdtHeaderSize
    rejectIf (stop > data.length) (.acpiInvalid "XSDT extends beyond data")
    let xsdt ← parseXsdtTable data rsdp.xsdtAddress
    pure { data, xsdt }
  else do
    let stop ← add rsdp.rsdtAddress xsdtHeaderSize
    rejectIf (stop > data.length) (.acpiInvalid "RSDT extends beyond data")
    let xsdt ← parseRsdtTable data rsdp.rsdtAddress
    pure { data, xsdt }

/-- The loop of `find_table`: a table whose length cannot be read ends it. -/
def findTableIn (data signature : Bytes) : List Nat → Result (Option Bytes)
  | [] => pure none
  | offset :: rest => do
    let stop ← add offset 4
    if stop > data.length then findTableIn data signature rest
    else do
      let sig ← rangeAt data offset 4
      if sig = signature then do
        match ← readFrom readU32Le data offset 4 with
        | none => pure none
        | some len => do
          let last ← add offset len
          if last ≤ data.length then do
            let table ← index data offset last
            pure (some table)
          else findTableIn data signature rest
      else findTableIn data signature rest

def findTable (self : AcpiTables) (signature : Bytes) : Result (Option Bytes) :=
  findTableIn self.data signature self.xsdt.tableAddresses

/-- The signature of the table at `offset`, where there is room for one. -/
def signatureAt (data : Bytes) (offset : Nat) : Result (Option Bytes) := do
  let stop ← add offset 4
  if stop ≤ data.length then do
    let sig ← rangeAt data offset 4
    pure (some sig)
  else pure none

def tableSignatures (self : AcpiTables) : Result (List Bytes) := do
  let signatures ← collect (signatureAt self.data) self.xsdt.tableAddresses
  pure (signatures.filterMap id)

end AcpiTables

end Nextcore.Acpi
