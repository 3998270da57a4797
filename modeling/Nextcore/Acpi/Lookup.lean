import Nextcore.Acpi.Panics

/-!
Which table a lookup finds.

An address holds a table when its signature, its length and the declared bytes lie in the data. The
loop passes over the addresses that hold none (`findTableIn_of_passed`), but for those whose
signature is the last thing in the data: there it ends (`findTableIn_of_cutShort`), and what is
listed behind is not looked at.
-/

namespace Nextcore.Acpi

open Checked Checked.Outcome

/-! ### Tables -/

section Tables

variable (data signature : Bytes) (a : Nat)

/-- A table with the signature, in the data as far as it declares. -/
def HoldsTable : Prop :=
  a + 8 ≤ data.length ∧ window data a 4 = signature ∧ a + wordAt 4 data (a + 4) ≤ data.length

/-- The signature, with too little behind it for a length. -/
def CutShort : Prop :=
  a + 4 ≤ data.length ∧ data.length < a + 8 ∧ window data a 4 = signature

instance : Decidable (HoldsTable data signature a) := inferInstanceAs (Decidable (_ ∧ _))

instance : Decidable (CutShort data signature a) := inferInstanceAs (Decidable (_ ∧ _))

/-- The bytes that the table at `a` declares. -/
def tableAt : Bytes := window data a (wordAt 4 data (a + 4))

end Tables

/-! ### The loop -/

section Loop

variable {data signature : Bytes} {a : Nat} {front rest : List Nat}
variable (small : data.length < 2 ^ 63)
include small

theorem findTableIn_of_holds (holds : HoldsTable data signature a) :
    AcpiTables.findTableIn data signature (a :: rest) = .ok (some (tableAt data a)) := by
  obtain ⟨inside, sig, fits⟩ := holds
  rw [AcpiTables.findTableIn, add_of_lt (by omega), bind_ok, if_neg (by omega),
    rangeAt_of_le small (by omega), bind_ok, if_pos sig, readU32_of_le small (by omega), bind_ok]
  dsimp only
  rw [add_of_lt (by omega), bind_ok, if_pos fits, index_of_le (by omega) fits, bind_ok,
    Nat.add_sub_cancel_left, pure_eq, tableAt]

theorem findTableIn_of_cutShort (short : CutShort data signature a) :
    AcpiTables.findTableIn data signature (a :: rest) = .ok none := by
  obtain ⟨inside, cut, sig⟩ := short
  rw [AcpiTables.findTableIn, add_of_lt (by omega), bind_ok, if_neg (by omega),
    rangeAt_of_le small (by omega), bind_ok, if_pos sig, readFrom, add_of_lt (by omega), bind_ok,
    readU32Le, readLe, add_of_lt (by omega), bind_ok, if_pos (by omega), pure_eq, bind_ok]
  rfl

/-- What holds no table and is not cut short is passed over. -/
theorem findTableIn_of_passed (room : a + 4 < 2 ^ 64) (no_table : ¬ HoldsTable data signature a)
    (long : ¬ CutShort data signature a) :
    AcpiTables.findTableIn data signature (a :: rest) =
      AcpiTables.findTableIn data signature rest := by
  rw [AcpiTables.findTableIn, add_of_lt room, bind_ok]
  by_cases past : a + 4 > data.length
  · rw [if_pos past]
  rw [if_neg past, rangeAt_of_le small (by omega), bind_ok]
  by_cases sig : window data a 4 = signature
  · have readable : a + 4 + 4 ≤ data.length := by
      refine Nat.le_of_not_lt fun cut => long ⟨Nat.le_of_not_lt past, by omega, sig⟩
    have beyond : ¬ a + wordAt 4 data (a + 4) ≤ data.length :=
      fun fits => no_table ⟨readable, sig, fits⟩
    have len : wordAt 4 data (a + 4) < 2 ^ 32 := wordAt_lt readable
    rw [if_pos sig, readU32_of_le small readable, bind_ok]
    dsimp only
    rw [add_of_lt (by omega), bind_ok, if_neg beyond]
  · rw [if_neg sig]

/-- The loop goes on behind a front that holds no table and has nothing cut short in it. -/
theorem findTableIn_append (room : ∀ b ∈ front, b + 4 < 2 ^ 64)
    (no_table : ∀ b ∈ front, ¬ HoldsTable data signature b)
    (long : ∀ b ∈ front, ¬ CutShort data signature b) :
    AcpiTables.findTableIn data signature (front ++ rest) =
      AcpiTables.findTableIn data signature rest := by
  induction front with
  | nil => rfl
  | cons b front ih =>
      rw [List.forall_mem_cons] at room no_table long
      rw [List.cons_append, findTableIn_of_passed small room.1 no_table.1 long.1,
        ih room.2 no_table.2 long.2]

/-- The loop ends in a front that holds no table but has something cut short in it. -/
theorem findTableIn_hidden (room : ∀ b ∈ front, b + 4 < 2 ^ 64)
    (no_table : ∀ b ∈ front, ¬ HoldsTable data signature b)
    (short : ∃ b ∈ front, CutShort data signature b) :
    AcpiTables.findTableIn data signature (front ++ rest) = .ok none := by
  induction front with
  | nil =>
      obtain ⟨b, mem, _⟩ := short
      cases mem
  | cons b front ih =>
      rw [List.forall_mem_cons] at room no_table
      rw [List.cons_append]
      by_cases cut : CutShort data signature b
      · exact findTableIn_of_cutShort small cut
      · have later : ∃ c ∈ front, CutShort data signature c :=
          ((List.exists_mem_cons_iff ..).mp short).resolve_left cut
        rw [findTableIn_of_passed small room.1 no_table.1 cut, ih room.2 no_table.2 later]

/-- What is found is held by one of the addresses. -/
theorem exists_holds_of_found {addresses : List Nat} {table : Bytes}
    (found : AcpiTables.findTableIn data signature addresses = .ok (some table))
    (room : ∀ b ∈ addresses, b + 4 < 2 ^ 64) : ∃ b ∈ addresses, HoldsTable data signature b := by
  by_contra none_holds
  have no_table : ∀ b ∈ addresses, ¬ HoldsTable data signature b :=
    fun b mem holds => none_holds ⟨b, mem, holds⟩
  rw [← List.append_nil addresses] at found
  by_cases short : ∃ b ∈ addresses, CutShort data signature b
  · rw [findTableIn_hidden small room no_table short] at found
    cases found
  · have long : ∀ b ∈ addresses, ¬ CutShort data signature b :=
      fun b mem cut => short ⟨b, mem, cut⟩
    rw [findTableIn_append small room no_table long] at found
    cases found

end Loop

/-! ### The lookup -/

/-- A lookup returns a table exactly when one of the addresses holds one, and then the first. -/
structure LooksUp (tables : AcpiTables) (signature : Bytes) : Prop where
  returns : ∃ found, tables.findTable signature = .ok found
  some_iff : (∃ table, tables.findTable signature = .ok (some table)) ↔
    ∃ a ∈ tables.xsdt.tableAddresses, HoldsTable tables.data signature a
  first : ∀ front a rest, tables.xsdt.tableAddresses = front ++ a :: rest →
    (∀ b ∈ front, ¬ HoldsTable tables.data signature b) → HoldsTable tables.data signature a →
      tables.findTable signature = .ok (some (tableAt tables.data a))

/-- Nothing that is cut short is listed in front of the first table. -/
def Unhidden (tables : AcpiTables) (signature : Bytes) : Prop :=
  ∀ front a rest, tables.xsdt.tableAddresses = front ++ a :: rest →
    (∀ b ∈ front, ¬ HoldsTable tables.data signature b) → HoldsTable tables.data signature a →
      ∀ b ∈ front, ¬ CutShort tables.data signature b

/-- A list with a table splits at the first one. -/
theorem exists_first_table {data signature : Bytes} {addresses : List Nat}
    (some' : ∃ a ∈ addresses, HoldsTable data signature a) :
    ∃ front a rest, addresses = front ++ a :: rest ∧
      (∀ b ∈ front, ¬ HoldsTable data signature b) ∧ HoldsTable data signature a := by
  have isSome : (addresses.find? fun a => decide (HoldsTable data signature a)).isSome := by
    simpa using some'
  obtain ⟨a, found⟩ := Option.isSome_iff_exists.mp isSome
  obtain ⟨holds, front, rest, split, before⟩ := List.find?_eq_some_iff_append.mp found
  refine ⟨front, a, rest, split, fun b mem => ?_, of_decide_eq_true holds⟩
  simpa using before b mem

/-- A lookup is complete as long as no table with the signature is cut short behind it in front of
the first whole one. -/
theorem findTable_complete_iff {tables : AcpiTables} (signature : Bytes)
    (small : tables.data.length < 2 ^ 63)
    (room : ∀ a ∈ tables.xsdt.tableAddresses, a + 4 < 2 ^ 64) :
    LooksUp tables signature ↔ Unhidden tables signature := by
  constructor
  · intro looks front a rest split before holds b mem short
    have found := looks.first front a rest split before holds
    rw [split] at room
    have room_front : ∀ b ∈ front, b + 4 < 2 ^ 64 :=
      fun b mem => room b (List.mem_append_left _ mem)
    rw [AcpiTables.findTable, split,
      findTableIn_hidden small room_front before ⟨b, mem, short⟩] at found
    cases found
  · intro unhidden
    have first : ∀ front a rest, tables.xsdt.tableAddresses = front ++ a :: rest →
        (∀ b ∈ front, ¬ HoldsTable tables.data signature b) →
          HoldsTable tables.data signature a →
            tables.findTable signature = .ok (some (tableAt tables.data a)) := by
      intro front a rest split before holds
      have long := unhidden front a rest split before holds
      rw [split] at room
      have room_front : ∀ b ∈ front, b + 4 < 2 ^ 64 :=
        fun b mem => room b (List.mem_append_left _ mem)
      rw [AcpiTables.findTable, split, findTableIn_append small room_front before long,
        findTableIn_of_holds small holds]
    refine ⟨findTableIn_returns small room, ⟨?_, ?_⟩, first⟩
    · rintro ⟨table, found⟩
      exact exists_holds_of_found small found room
    · intro some'
      obtain ⟨front, a, rest, split, before, holds⟩ := exists_first_table some'
      exact ⟨_, first front a rest split before holds⟩

/-- `b"FACP"`. -/
def facpSignature : Bytes := [0x46, 0x41, 0x43, 0x50]

/-- A root table that lists the last four bytes, a signature, and then the table in front of
them. -/
def hidingTables : Bytes :=
  pointing 36 (xsdtSignature ++ toLeBytes 4 52 ++ List.replicate 28 0 ++ toLeBytes 8 96 ++
    toLeBytes 8 88 ++ facpSignature ++ toLeBytes 4 8 ++ facpSignature)

/-- The signature at the end hides the table. -/
theorem findTable_hides :
    ∃ tables, AcpiTables.parse hidingTables = .ok tables ∧
      (∀ a ∈ tables.xsdt.tableAddresses, a + 2 ^ 32 < 2 ^ 64) ∧
        88 ∈ tables.xsdt.tableAddresses ∧ HoldsTable tables.data facpSignature 88 ∧
          tables.findTable facpSignature = .ok none ∧ ¬ LooksUp tables facpSignature := by
  have parsed : AcpiTables.parse hidingTables =
      .ok ⟨hidingTables, ⟨52, 0, 0, List.replicate 6 0, List.replicate 8 0⟩, [96, 88]⟩ := by
    decide +kernel
  refine ⟨_, parsed, by decide, by decide, by decide +kernel, by decide +kernel, fun looks => ?_⟩
  obtain ⟨table, found⟩ := looks.some_iff.mpr ⟨88, by decide, by decide +kernel⟩
  have missed : AcpiTables.findTableIn hidingTables facpSignature [96, 88] = .ok none := by
    decide +kernel
  rw [AcpiTables.findTable, missed] at found
  cases found

/-- In the other order the table is found. -/
theorem findTable_complete_iff_sample :
    LooksUp ⟨hidingTables, ⟨52, 0, 0, List.replicate 6 0, List.replicate 8 0⟩, [88, 96]⟩
      facpSignature := by
  refine (findTable_complete_iff facpSignature (by decide) (by decide)).mpr ?_
  intro front a rest split before holds b mem
  have first : HoldsTable hidingTables facpSignature 88 := by decide +kernel
  cases front with
  | nil => cases mem
  | cons c front =>
      obtain ⟨rfl, _⟩ := List.cons.inj split
      exact absurd first (before 88 List.mem_cons_self)

end Nextcore.Acpi
