import Nextcore.Acpi.Tables
import Mathlib.Order.Bounds.Basic

/-!
What the scan for the root pointer finds.

`rsdpAt` returns at every position of the scan, with the fields that are there where a root pointer
is (`rsdpAt_of_isRsdp`) and with nothing elsewhere, so that the scan ends at the first root pointer
that it meets (`findRsdp_of_least`). It does not look at the last position where one fits:
`findRsdp_complete_iff` says when that is noticed.
-/

namespace Nextcore.Acpi

open Checked Checked.Outcome

section Reading

variable {data : Bytes} {offset : Nat}

variable (small : data.length < 2 ^ 63)
include small

theorem rangeAt_of_le {size : Nat} (inside : offset + size ≤ data.length) :
    rangeAt data offset size = .ok (window data offset size) := by
  rw [rangeAt, add_of_lt (by omega), bind_ok, index_of_le (by omega) inside,
    Nat.add_sub_cancel_left]

theorem readLe_of_le {width : Nat} (inside : offset + width ≤ data.length) :
    readLe width data offset = .ok (some (wordAt width data offset)) := by
  rw [readLe, add_of_lt (by omega), bind_ok, if_neg (by omega), index_of_le (by omega) inside,
    Nat.add_sub_cancel_left]
  rfl

theorem readU32_of_le {distance : Nat} (inside : offset + distance + 4 ≤ data.length) :
    readFrom readU32Le data offset distance = .ok (some (wordAt 4 data (offset + distance))) := by
  rw [readFrom, add_of_lt (by omega), bind_ok, readU32Le, readLe_of_le small inside]

theorem readU64_of_le {distance : Nat} (inside : offset + distance + 8 ≤ data.length) :
    readFrom readU64Le data offset distance = .ok (some (wordAt 8 data (offset + distance))) := by
  rw [readFrom, add_of_lt (by omega), bind_ok, readU64Le, readLe_of_le small inside]

end Reading

/-! ### The body of the scan -/

/-- A structure with the signature and the sum of a root pointer. -/
def Candidate (data : Bytes) (i : Nat) : Prop :=
  i + 36 ≤ data.length ∧ window data i 8 = rsdpSignature ∧ checksum (window data i 20) = 0

/-- A root pointer that the scan does not pass over. -/
def IsRsdp (data : Bytes) (i : Nat) : Prop :=
  i + 36 < data.length ∧ window data i 8 = rsdpSignature ∧ checksum (window data i 20) = 0

instance (data : Bytes) (i : Nat) : Decidable (IsRsdp data i) := inferInstanceAs (Decidable (_ ∧ _))

instance (data : Bytes) (i : Nat) : Decidable (Candidate data i) :=
  inferInstanceAs (Decidable (_ ∧ _))

/-- All but the structure in the last 36 bytes are met. -/
theorem candidate_iff {data : Bytes} {i : Nat} :
    Candidate data i ↔ IsRsdp data i ∨ Candidate data i ∧ i + 36 = data.length := by
  constructor
  · intro candidate
    rcases Nat.lt_or_eq_of_le candidate.1 with before | last
    · exact .inl ⟨before, candidate.2⟩
    · exact .inr ⟨candidate, last⟩
  · rintro (is | ⟨candidate, _⟩)
    · exact ⟨is.1.le, is.2⟩
    · exact candidate

/-- The address of the extended root table, in the root pointer at `i`. -/
def xsdtAddressAt (data : Bytes) (i : Nat) : Nat := wordAt 8 data (i + 24)

/-- The address of the root table, in the root pointer at `i`. -/
def rsdtAddressAt (data : Bytes) (i : Nat) : Nat := wordAt 4 data (i + 16)

/-- The length of the root pointer at `i`, which has the fields of the first version where it leads
to no extended root table. -/
def rsdpLengthAt (data : Bytes) (i : Nat) : Nat :=
  if xsdtAddressAt data i ≠ 0 then wordAt 4 data (i + 20) else 36

/-- The fields of the root pointer at `i`. -/
def rsdpFields (data : Bytes) (i : Nat) : Rsdp where
  signature := rsdpSignature
  checksum := 0
  rsdtAddress := rsdtAddressAt data i
  length := rsdpLengthAt data i
  xsdtAddress := xsdtAddressAt data i
  extendedChecksum :=
    if 36 ≤ rsdpLengthAt data i ∧ i + rsdpLengthAt data i ≤ data.length then
      checksum (window data i (rsdpLengthAt data i))
    else 0

section Scan

variable {data : Bytes} {i : Nat}

theorem rsdpLengthAt_lt (inside : i + 36 ≤ data.length) : rsdpLengthAt data i < 2 ^ 32 := by
  have short : wordAt 4 data (i + 20) < 2 ^ 32 := wordAt_lt (by omega)
  rw [rsdpLengthAt]
  split <;> omega

variable (small : data.length < 2 ^ 63)
include small

theorem extendedChecksum_eq {length : Nat} (inside : i ≤ data.length) (short : length < 2 ^ 32) :
    extendedChecksum data i length =
      .ok (if 36 ≤ length ∧ i + length ≤ data.length then checksum (window data i length)
        else 0) := by
  rw [extendedChecksum]
  by_cases long : length ≥ 36
  · rw [if_pos long, add_of_lt (by omega), bind_ok]
    by_cases fits : i + length ≤ data.length
    · rw [if_pos fits, if_pos ⟨long, fits⟩, index_of_le (by omega) fits, bind_ok,
        Nat.add_sub_cancel_left, pure_eq]
    · rw [if_neg fits, if_neg fun both => fits both.2, pure_eq]
  · rw [if_neg long, if_neg fun both => long both.1, pure_eq]

/-- The body of the scan reads a root pointer wherever it fits. -/
theorem rsdpAt_of_candidate (candidate : Candidate data i) :
    rsdpAt data i = .ok (some (rsdpFields data i)) := by
  obtain ⟨inside, sig, sum⟩ := candidate
  rw [rsdpAt, rangeAt_of_le small (by omega), bind_ok, if_pos sig, rangeAt_of_le small (by omega),
    bind_ok, if_neg (not_not.mpr sum), readU64_of_le small (by omega), bind_ok, ofOption_some,
    bind_ok, readU32_of_le small (by omega), bind_ok, Option.getD_some]
  have extended := extendedChecksum_eq (i := i) small (by omega) (rsdpLengthAt_lt inside)
  rw [rsdpLengthAt, xsdtAddressAt] at extended
  dsimp only
  rw [extended, bind_ok, readU32_of_le small (by omega), bind_ok, Option.getD_some, sig, sum]
  rfl

theorem rsdpAt_of_not (inside : i + 36 ≤ data.length) (is_not : ¬ Candidate data i) :
    rsdpAt data i = .ok none := by
  rw [rsdpAt, rangeAt_of_le small (by omega), bind_ok]
  by_cases sig : window data i 8 = rsdpSignature
  · rw [if_pos sig, rangeAt_of_le small (by omega), bind_ok]
    have sum : checksum (window data i 20) ≠ 0 := fun zero => is_not ⟨inside, sig, zero⟩
    rw [if_pos sum, pure_eq]
  · rw [if_neg sig, pure_eq]

/-! ### The scan -/

/-- The scan ends at the first root pointer that it meets. -/
theorem findRsdp_of_least (least : IsLeast {i | IsRsdp data i} i) :
    findRsdp data = .ok (rsdpFields data i) := by
  have inside : i + 36 < data.length := least.1.1
  have split : List.range (data.length - rsdpLength) =
      List.range i ++ i :: List.range' (i + 1) (data.length - rsdpLength - (i + 1)) := by
    have joined := List.range'_append_1 (s := 0) (m := i) (n := data.length - 36 - (i + 1) + 1)
    rw [Nat.zero_add] at joined
    rw [rsdpLength, List.range_eq_range', List.range_eq_range', ← List.range'_succ, joined]
    congr 1
    omega
  have passed : ∀ j ∈ List.range i, rsdpAt data j = .ok none := by
    intro j mem
    have before : j < i := List.mem_range.mp mem
    refine rsdpAt_of_not small (by omega) fun candidate => ?_
    exact Nat.not_le.mpr before (least.2 ⟨by omega, candidate.2⟩)
  have hit := rsdpAt_of_candidate small (candidate_iff.mpr (.inl least.1))
  have long : ¬ data.length < rsdpLength := by
    rw [rsdpLength]
    omega
  rw [findRsdp, rejectIf_of_not _ long, bind_ok, split, findMapM_of_first passed hit, bind_ok,
    ofOption_some]

/-- The scan reports an error where it meets none. -/
theorem findRsdp_of_none (nowhere : ∀ i, ¬ IsRsdp data i) : ∃ e, findRsdp data = .err e := by
  by_cases short : data.length < rsdpLength
  · exact ⟨_, by rw [findRsdp, rejectIf_of _ short, bind_err]⟩
  · refine ⟨.acpiNotFound "RSDP", ?_⟩
    have passed : ∀ i ∈ List.range (data.length - rsdpLength), rsdpAt data i = .ok none := by
      intro i mem
      have inside := List.mem_range.mp mem
      rw [rsdpLength] at inside
      exact rsdpAt_of_not small (by omega) fun candidate => nowhere i ⟨by omega, candidate.2⟩
    rw [findRsdp, rejectIf_of_not _ short, bind_ok, findMapM_of_none passed, bind_ok, ofOption_none]

end Scan

/-! ### Completeness -/

/-- The first root pointer in the data is found, with its fields. -/
def FindsRsdp (data : Bytes) : Prop :=
  ∀ i, IsLeast {i | Candidate data i} i → findRsdp data = .ok (rsdpFields data i)

/-- The first root pointer is found unless it is the last 36 bytes of the data. -/
theorem findRsdp_complete_iff {data : Bytes} (small : data.length < 2 ^ 63) :
    FindsRsdp data ↔ ∀ i, IsLeast {i | Candidate data i} i → i + 36 ≠ data.length := by
  refine forall_congr' fun i => imp_congr_right fun least => ?_
  constructor
  · intro found last
    have nowhere : ∀ j, ¬ IsRsdp data j := by
      intro j is
      have later := least.2 (candidate_iff.mpr (.inl is))
      have before := is.1
      omega
    obtain ⟨e, failed⟩ := findRsdp_of_none small nowhere
    rw [failed] at found
    cases found
  · intro before
    have inside := least.1.1
    refine findRsdp_of_least small ⟨⟨by omega, least.1.2⟩, fun j is => ?_⟩
    exact least.2 (candidate_iff.mpr (.inl is))

/-- A root pointer, and nothing behind it. -/
def loneRsdp : Bytes := rsdpSignature ++ 225 :: List.replicate 27 0

/-- The scan of a root pointer alone has no position to look at. -/
theorem findRsdp_misses_last :
    IsLeast {i | Candidate loneRsdp i} 0 ∧ findRsdp loneRsdp = .err (.acpiNotFound "RSDP") ∧
      ¬ FindsRsdp loneRsdp := by
  have least : IsLeast {i | Candidate loneRsdp i} 0 :=
    ⟨show Candidate loneRsdp 0 by decide, fun i _ => Nat.zero_le i⟩
  have missed : findRsdp loneRsdp = .err (.acpiNotFound "RSDP") := by decide +kernel
  refine ⟨least, missed, fun finds => ?_⟩
  have found := finds 0 least
  rw [missed] at found
  cases found

/-- With one more byte behind it the root pointer is found. -/
theorem findRsdp_complete_iff_sample : FindsRsdp (loneRsdp ++ [0]) := by
  have least : IsLeast {i | Candidate (loneRsdp ++ [0]) i} 0 :=
    ⟨show Candidate (loneRsdp ++ [0]) 0 by decide, fun i _ => Nat.zero_le i⟩
  refine (findRsdp_complete_iff (by decide)).mpr fun i least' => ?_
  rw [least'.unique least]
  decide

end Nextcore.Acpi
