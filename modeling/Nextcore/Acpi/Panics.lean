import Nextcore.Acpi.Scan
import Mathlib.Data.Nat.Find

/-!
Which inputs make the ACPI parser panic.

`findRsdp` never does (`findRsdp_cases`), and what it finds depends on the bytes alone. The root
table panics where the sum of its address and its header leaves the word, or where the declared
length does not cover the header (`parseRootTable_cases`), and the calls on the tables where an
address does not leave room for a signature (`tableSignatures_returns_iff`). `returns_iff` puts
the three together.
-/

namespace Nextcore.Acpi

open Checked Checked.Outcome

/-! ### The root pointer -/

/-- The scan finds the first root pointer, if there is one, and reports an error if there is
none. -/
theorem findRsdp_cases {data : Bytes} (small : data.length < 2 ^ 63) :
    (∃ i rsdp, IsLeast {i | IsRsdp data i} i ∧ findRsdp data = .ok rsdp ∧
        rsdp.xsdtAddress = xsdtAddressAt data i ∧ rsdp.rsdtAddress = rsdtAddressAt data i) ∨
      ((∀ i, ¬ IsRsdp data i) ∧ ∃ e, findRsdp data = .err e) := by
  by_cases some_at : ∃ i, IsRsdp data i
  · have least : IsLeast {i | IsRsdp data i} (Nat.find some_at) :=
      ⟨Nat.find_spec some_at, fun i is => Nat.find_min' some_at is⟩
    exact .inl ⟨_, _, least, findRsdp_of_least small least, rfl, rfl⟩
  · have nowhere : ∀ i, ¬ IsRsdp data i := fun i is => some_at ⟨i, is⟩
    exact .inr ⟨nowhere, findRsdp_of_none small nowhere⟩

/-! ### The root table -/

/-- A root table at `offset` whose header is in the data. -/
def HasRootTable (data signature : Bytes) (offset : Nat) : Prop :=
  offset + 36 ≤ data.length ∧ window data offset 4 = signature

/-- The length that the root table at `offset` declares. -/
def rootLengthAt (data : Bytes) (offset : Nat) : Nat := wordAt 4 data (offset + 4)

/-- The `k`-th address of the root table at `offset`. -/
def addressAt (data : Bytes) (width offset k : Nat) : Nat :=
  wordAt width data (offset + 36 + k * width)

/-- The entries of the root table at `offset` that are declared and in the data. -/
def HasEntry (data : Bytes) (width offset k : Nat) : Prop :=
  k < (rootLengthAt data offset - 36) / width ∧ offset + 36 + k * width + width ≤ data.length

section RootTable

variable {data : Bytes} (signature : Bytes) (texts : RootTexts) {width offset : Nat}
  (small : data.length < 2 ^ 63)
include small

/-- The loop returns the addresses that lie in the data, from the `i`-th on. -/
theorem readAddresses_returns (narrow : width ≤ 8) (inside : offset + 36 ≤ data.length)
    {i left : Nat} (count : i + left ≤ 2 ^ 32) :
    ∃ out, readAddresses data width texts offset i left = .ok out ∧
      ∀ a, a ∈ out ↔ ∃ k, i ≤ k ∧ k < i + left ∧ offset + 36 + k * width + width ≤ data.length ∧
        a = addressAt data width offset k := by
  induction left generalizing i with
  | zero =>
      refine ⟨[], rfl, fun a => ⟨fun mem => (List.not_mem_nil mem).elim, ?_⟩⟩
      rintro ⟨k, above, below, _⟩
      omega
  | succ left ih =>
      have step : i * width ≤ 2 ^ 32 * 8 := Nat.mul_le_mul (by omega) narrow
      rw [readAddresses, xsdtHeaderSize, add_of_lt (by omega), bind_ok, mul_of_lt (by omega),
        bind_ok, add_of_lt (by omega), bind_ok, add_of_lt (by omega), bind_ok]
      by_cases past : offset + 36 + i * width + width > data.length
      · rw [if_pos past]
        refine ⟨[], rfl, fun a => ⟨fun mem => (List.not_mem_nil mem).elim, ?_⟩⟩
        rintro ⟨k, above, _, fits, _⟩
        have later : i * width ≤ k * width := Nat.mul_le_mul_right width above
        omega
      · rw [if_neg past, readLe_of_le small (Nat.le_of_not_lt past), bind_ok, ofOption_some,
          bind_ok]
        obtain ⟨rest, read, rest_mem⟩ := ih (i := i + 1) (by omega)
        rw [read]
        refine ⟨_, rfl, fun a => ?_⟩
        rw [List.mem_cons, rest_mem]
        constructor
        · rintro (rfl | ⟨k, above, below, known⟩)
          · exact ⟨i, Nat.le_refl _, by omega, Nat.le_of_not_lt past, rfl⟩
          · exact ⟨k, by omega, by omega, known⟩
        · rintro ⟨k, above, below, fits, rfl⟩
          by_cases first : k = i
          · subst first
            exact .inl rfl
          · exact .inr ⟨k, by omega, by omega, fits, rfl⟩

theorem parseTableHeader_returns (inside : offset + 36 ≤ data.length) :
    ∃ header, parseTableHeader data offset = .ok header ∧
      header.length = rootLengthAt data offset := by
  rw [parseTableHeader, add_of_lt (by omega), bind_ok, rejectIf_of_not _ (by omega), bind_ok,
    readU32_of_le small (by omega), bind_ok, add_of_lt (by omega), bind_ok,
    byteAt_of_lt (by omega), bind_ok, add_of_lt (by omega), bind_ok, byteAt_of_lt (by omega),
    bind_ok, add_of_lt (by omega), bind_ok, add_of_lt (by omega), bind_ok,
    index_of_le (by omega) (by omega), bind_ok, add_of_lt (by omega), bind_ok,
    index_of_le (by omega) (by omega)]
  exact ⟨_, rfl, rfl⟩

/-- How reading a root table ends: with an error where it is not there, with a panic where its
length does not cover its header, and with its addresses elsewhere. -/
theorem parseRootTable_cases (narrow : width ≤ 8) (word : offset + 36 < 2 ^ 64) :
    (¬ HasRootTable data signature offset ∧
        ∃ e, parseRootTable data width texts signature offset = .err e) ∨
      (HasRootTable data signature offset ∧ rootLengthAt data offset < 36 ∧
        parseRootTable data width texts signature offset = .panic) ∨
      (HasRootTable data signature offset ∧ 36 ≤ rootLengthAt data offset ∧
        ∃ xsdt, parseRootTable data width texts signature offset = .ok xsdt ∧
          ∀ a, a ∈ xsdt.tableAddresses ↔
            ∃ k, HasEntry data width offset k ∧ a = addressAt data width offset k) := by
  rw [parseRootTable, xsdtHeaderSize, add_of_lt word, bind_ok]
  by_cases inside : offset + 36 ≤ data.length
  · rw [rejectIf_of_not _ (Nat.not_lt.mpr inside), bind_ok, rangeAt_of_le small (by omega), bind_ok]
    by_cases sig : window data offset 4 = signature
    · right
      obtain ⟨header, parsed, length⟩ := parseTableHeader_returns small inside
      rw [rejectIf_of_not _ (not_not.mpr sig), bind_ok, parsed, bind_ok, length]
      have short : rootLengthAt data offset < 2 ^ 32 := wordAt_lt (by omega)
      by_cases covers : 36 ≤ rootLengthAt data offset
      · right
        have count : 0 + (rootLengthAt data offset - 36) / width ≤ 2 ^ 32 := by
          have fewer := Nat.div_le_self (rootLengthAt data offset - 36) width
          omega
        obtain ⟨out, read, out_mem⟩ :=
          readAddresses_returns texts small narrow inside count
        rw [sub_of_le covers, bind_ok, read]
        refine ⟨⟨inside, sig⟩, covers, _, rfl, fun a => ?_⟩
        rw [out_mem]
        simp only [Nat.zero_le, true_and, Nat.zero_add, HasEntry, and_assoc]
      · left
        refine ⟨⟨inside, sig⟩, Nat.lt_of_not_le covers, ?_⟩
        rw [sub, checkedSub, if_neg covers]
        rfl
    · left
      rw [rejectIf_of _ sig]
      exact ⟨fun has => sig has.2, _, rfl⟩
  · left
    rw [rejectIf_of _ (Nat.lt_of_not_le inside)]
    exact ⟨fun has => inside has.1, _, rfl⟩

end RootTable

/-! ### The calls on the tables -/

section Calls

variable {data signature : Bytes} {addresses : List Nat} (small : data.length < 2 ^ 63)
include small

/-- A search returns when there is room for a signature behind every address. -/
theorem findTableIn_returns (room : ∀ a ∈ addresses, a + 4 < 2 ^ 64) :
    ∃ found, AcpiTables.findTableIn data signature addresses = .ok found := by
  induction addresses with
  | nil => exact ⟨none, rfl⟩
  | cons offset rest ih =>
      obtain ⟨here, later⟩ := List.forall_mem_cons.mp room
      obtain ⟨found, searched⟩ := ih later
      rw [AcpiTables.findTableIn, add_of_lt here, bind_ok]
      by_cases past : offset + 4 > data.length
      · rw [if_pos past]
        exact ⟨found, searched⟩
      · rw [if_neg past, rangeAt_of_le small (by omega), bind_ok]
        by_cases sig : window data offset 4 = signature
        · rw [if_pos sig, readFrom, add_of_lt here, bind_ok]
          by_cases read : offset + 4 + 4 ≤ data.length
          · have len : wordAt 4 data (offset + 4) < 2 ^ 32 := wordAt_lt read
            rw [readU32Le, readLe_of_le small read, bind_ok]
            dsimp only
            rw [add_of_lt (by omega), bind_ok]
            by_cases fits : offset + wordAt 4 data (offset + 4) ≤ data.length
            · rw [if_pos fits, index_of_le (by omega) fits]
              exact ⟨_, rfl⟩
            · rw [if_neg fits]
              exact ⟨found, searched⟩
          · rw [readU32Le, readLe, add_of_lt (by omega), bind_ok, if_pos (by omega)]
            exact ⟨none, rfl⟩
        · rw [if_neg sig]
          exact ⟨found, searched⟩

theorem signatureAt_returns_iff {a : Nat} :
    (∃ sig, AcpiTables.signatureAt data a = .ok sig) ↔ a + 4 < 2 ^ 64 := by
  rw [AcpiTables.signatureAt]
  constructor
  · rintro ⟨sig, returned⟩
    obtain ⟨_, added, _⟩ := bind_eq_ok.mp returned
    exact (add_eq_ok.mp added).1
  · intro room
    rw [add_of_lt room, bind_ok]
    by_cases inside : a + 4 ≤ data.length
    · rw [if_pos inside, rangeAt_of_le small inside]
      exact ⟨_, rfl⟩
    · rw [if_neg inside]
      exact ⟨none, rfl⟩

theorem collect_signatures_iff :
    (∃ sigs, collect (AcpiTables.signatureAt data) addresses = .ok sigs) ↔
      ∀ a ∈ addresses, a + 4 < 2 ^ 64 := by
  induction addresses with
  | nil => exact ⟨fun _ a mem => (List.not_mem_nil mem).elim, fun _ => ⟨[], rfl⟩⟩
  | cons a rest ih =>
      rw [List.forall_mem_cons, ← ih, ← signatureAt_returns_iff small]
      simp only [collect, bind_eq_ok, pure_eq, ok.injEq]
      constructor
      · rintro ⟨_, sig, first, sigs, others, _⟩
        exact ⟨⟨sig, first⟩, sigs, others⟩
      · rintro ⟨⟨sig, first⟩, sigs, others⟩
        exact ⟨_, sig, first, sigs, others, rfl⟩

end Calls

/-- Listing the signatures visits every address. -/
theorem tableSignatures_returns_iff {tables : AcpiTables} (small : tables.data.length < 2 ^ 63) :
    (∃ sigs, tables.tableSignatures = .ok sigs) ↔
      ∀ a ∈ tables.xsdt.tableAddresses, a + 4 < 2 ^ 64 := by
  rw [← collect_signatures_iff small]
  simp only [AcpiTables.tableSignatures, bind_eq_ok, pure_eq, ok.injEq]
  constructor
  · rintro ⟨_, sigs, collected, _⟩
    exact ⟨sigs, collected⟩
  · rintro ⟨sigs, collected⟩
    exact ⟨_, sigs, collected, rfl⟩

/-! ### The whole parser -/

/-- The call ends in a value or an error, and every call on the tables in a value. -/
def Returns (parsed : Result AcpiTables) : Prop :=
  parsed ≠ .panic ∧ ∀ tables, parsed = .ok tables →
    (∀ signature, ∃ found, tables.findTable signature = .ok found) ∧
      ∃ sigs, tables.tableSignatures = .ok sigs

/-- No sum or difference made with the root table at `offset` leaves its type: its header ends
in the word, its length covers its header, and a signature behind every address ends in the
word. -/
structure RootGuarded (data signature : Bytes) (width offset : Nat) : Prop where
  word : offset + 36 < 2 ^ 64
  covers : HasRootTable data signature offset → 36 ≤ rootLengthAt data offset
  room : HasRootTable data signature offset → ∀ k, HasEntry data width offset k →
    addressAt data width offset k + 4 < 2 ^ 64

/-- The root table that the first root pointer leads to is guarded. -/
def Guarded (data : Bytes) : Prop :=
  ∀ i, IsLeast {i | IsRsdp data i} i →
    if xsdtAddressAt data i ≠ 0 then RootGuarded data xsdtSignature 8 (xsdtAddressAt data i)
    else RootGuarded data rsdtSignature 4 (rsdtAddressAt data i)

section RootTable

variable {data signature : Bytes} {width offset : Nat} {texts : RootTexts} {e : CoreError}

/-- One way through the parser: the check of the range, and the table. -/
theorem root_returns_iff (small : data.length < 2 ^ 63) (narrow : width ≤ 8) :
    Returns (do
        let stop ← add offset xsdtHeaderSize
        rejectIf (stop > data.length) e
        let xsdt ← parseRootTable data width texts signature offset
        pure { data, xsdt }) ↔
      RootGuarded data signature width offset := by
  by_cases word : offset + 36 < 2 ^ 64
  · rw [xsdtHeaderSize, add_of_lt word, bind_ok]
    by_cases inside : offset + 36 ≤ data.length
    · rw [rejectIf_of_not _ (Nat.not_lt.mpr inside), bind_ok]
      rcases parseRootTable_cases signature texts small narrow word with
        ⟨absent, e', failed⟩ | ⟨has, short, failed⟩ | ⟨has, covers, xsdt, parsed, mem⟩
      · rw [failed, bind_err]
        refine iff_of_true ⟨by simp, fun tables returned => by simp at returned⟩ ?_
        exact ⟨word, fun has => absurd has absent, fun has => absurd has absent⟩
      · rw [failed, bind_panic]
        exact iff_of_false (fun returns => returns.1 rfl)
          fun guarded => Nat.not_le.mpr short (guarded.covers has)
      · rw [parsed, bind_ok]
        constructor
        · intro returns
          have room := (tableSignatures_returns_iff small).mp (returns.2 _ rfl).2
          exact ⟨word, fun _ => covers, fun _ k entry => room _ ((mem _).mpr ⟨k, entry, rfl⟩)⟩
        · intro guarded
          have room : ∀ a ∈ xsdt.tableAddresses, a + 4 < 2 ^ 64 := by
            intro a a_mem
            obtain ⟨k, entry, rfl⟩ := (mem a).mp a_mem
            exact guarded.room has k entry
          refine ⟨by simp, fun tables returned => ?_⟩
          cases returned
          exact ⟨fun _ => findTableIn_returns small room,
            (tableSignatures_returns_iff small).mpr room⟩
    · rw [rejectIf_of _ (Nat.lt_of_not_le inside), bind_err]
      refine iff_of_true ⟨by simp, fun tables returned => by simp at returned⟩ ?_
      exact ⟨word, fun has => absurd has.1 inside, fun has => absurd has.1 inside⟩
  · refine iff_of_false (fun returns => returns.1 ?_) fun guarded => word guarded.word
    rw [xsdtHeaderSize, add, checkedAdd, if_neg word]
    rfl

end RootTable

/-- The parser and the calls on its tables return exactly on guarded data. -/
theorem returns_iff {data : Bytes} (small : data.length < 2 ^ 63) :
    Returns (AcpiTables.parse data) ↔ Guarded data := by
  rw [AcpiTables.parse]
  rcases findRsdp_cases small with ⟨i, rsdp, least, found, xsdt, rsdt⟩ | ⟨nowhere, e, failed⟩
  · have only : Guarded data ↔
        if xsdtAddressAt data i ≠ 0 then RootGuarded data xsdtSignature 8 (xsdtAddressAt data i)
        else RootGuarded data rsdtSignature 4 (rsdtAddressAt data i) := by
      refine ⟨fun guarded => guarded i least, fun guarded j least' => ?_⟩
      rwa [least'.unique least]
    rw [only, found, bind_ok, xsdt, rsdt]
    by_cases extended : xsdtAddressAt data i ≠ 0
    · rw [if_pos extended, if_pos extended]
      exact root_returns_iff small (by decide)
    · rw [if_neg extended, if_neg extended]
      exact root_returns_iff small (by decide)
  · rw [failed, bind_err]
    refine iff_of_true ⟨by simp, fun tables returned => by simp at returned⟩ ?_
    exact fun i least => absurd least.1 (nowhere i)

/-- A root pointer to the extended root table at `xsdt`, and what follows it. -/
def pointing (xsdt : Nat) (rest : Bytes) : Bytes :=
  rsdpSignature ++ 225 :: List.replicate 15 0 ++ toLeBytes 8 xsdt ++ List.replicate 4 0 ++ rest

/-- The address of the root table and the size of its header have no sum in the word. -/
theorem parse_pointing_panics :
    (pointing (2 ^ 64 - 1) [0]).length < 2 ^ 63 ∧
      ¬ Returns (AcpiTables.parse (pointing (2 ^ 64 - 1) [0])) := by
  have panics : AcpiTables.parse (pointing (2 ^ 64 - 1) [0]) = .panic := by decide +kernel
  exact ⟨by decide, fun returns => returns.1 panics⟩

/-- A root table with one entry, which leads back to the root pointer. -/
def sampleTables : Bytes :=
  pointing 36 (xsdtSignature ++ toLeBytes 4 44 ++ List.replicate 28 0 ++ toLeBytes 8 0)

theorem guarded_sampleTables : Guarded sampleTables := by
  have first : IsLeast {i | IsRsdp sampleTables i} 0 :=
    ⟨show IsRsdp sampleTables 0 by decide, fun i _ => Nat.zero_le i⟩
  intro i least
  rw [least.unique first]
  refine ⟨by decide, fun _ => by decide, fun _ k entry => ?_⟩
  have only : k < 1 := entry.1
  obtain rfl : k = 0 := by omega
  decide

theorem returns_iff_sample : Returns (AcpiTables.parse sampleTables) :=
  (returns_iff (by decide)).mpr guarded_sampleTables

end Nextcore.Acpi
