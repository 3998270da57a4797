import Nextcore.CoreError
import Nextcore.Lib.Filled
import Nextcore.Lib.Prefix
import Nextcore.Lib.Reader
import Nextcore.Lib.Text

/-!
The device properties of one path (`src/device_props.rs`): a count, and behind it for each
property its key and its value, each behind its length.

A map has no order of its own. It is written in the order in which it is iterated over, which is
an argument here. `wire` is the format, apart from writer and reader: what is written is of the
format (`encode_eq_wire`), and what is read is what stands in it (`decode_eq_ok`).
-/

namespace Nextcore.DeviceProps

open Checked Checked.Outcome

abbrev Result (α : Type) := Outcome CoreError α

structure PropertyData where
  bytes : Bytes
  deriving DecidableEq, Repr

/-- `HashMap<String, PropertyData>`. -/
abbrev Properties := Finmap fun _ : String => PropertyData

/-- The entries of a map in the order in which they are iterated over. -/
abbrev Order := AList fun _ : String => PropertyData

/-! ### Writing -/

/-- `(n as u32).to_le_bytes()`. -/
def u32LeBytes (n : Nat) : Bytes := toLeBytes 4 (n % 2 ^ 32)

/-- One property. -/
def encodeProperty (key : String) (data : PropertyData) : Bytes :=
  let keyBytes := asBytes key
  u32LeBytes keyBytes.length ++ keyBytes ++ u32LeBytes data.bytes.length ++ data.bytes

def encodeProperties (order : Order) : Bytes :=
  u32LeBytes order.entries.length ++ order.entries.flatMap fun e => encodeProperty e.1 e.2

/-! ### Reading -/

/-- A length at `pos` and the bytes behind it, with the position behind both. -/
def readSized (noLength noData : String) (data : Bytes) (pos : Nat) : Result (Bytes × Nat) := do
  let start ← add pos 4
  rejectIf (start > data.length) (.deviceProps noLength)
  let len ← index data pos start
  let stop ← add start (fromLeBytes len)
  rejectIf (stop > data.length) (.deviceProps noData)
  let bytes ← index data start stop
  pure (bytes, stop)

/-- `left` more rounds of the loop. -/
def decodeRest (data : Bytes) (pos : Nat) (props : Properties) : Nat → Result Properties
  | 0 => pure props
  | left + 1 => do
    let (keyBytes, pos) ← readSized "truncated key length" "truncated key data" data pos
    let key := fromUtf8Lossy keyBytes
    let (bytes, pos) ← readSized "truncated value length" "truncated value data" data pos
    decodeRest data pos (props.insert key ⟨bytes⟩) left

def decodeProperties (data : Bytes) : Result Properties := do
  rejectIf (data.length < 4) (.deviceProps "data too short")
  let count ← index data 0 4
  decodeRest data 4 ∅ (fromLeBytes count)

/-! ### The format -/

/-- A property as it stands in the bytes. -/
structure Record where
  key : Bytes
  value : Bytes
  deriving DecidableEq

namespace Record

/-- Lengths of 32 bits are enough. -/
structure Fits (r : Record) : Prop where
  key : r.key.length < 2 ^ 32
  value : r.value.length < 2 ^ 32

def toBytes (r : Record) : Bytes := sized 4 r.key ++ sized 4 r.value

/-- The entry that a record stands for. -/
def entry (r : Record) : String × PropertyData := (fromUtf8Lossy r.key, ⟨r.value⟩)

theorem unambiguous_toBytes : Unambiguous Fits toBytes := by
  rintro ⟨key, value⟩ ⟨key', value'⟩ ⟨ok, ok'⟩ ⟨other, other'⟩ x y same
  have parts := (unambiguous_sized 4).append (unambiguous_sized 4)
  obtain ⟨eq, rest⟩ := @parts (key, value) (key', value') ⟨ok, ok'⟩ ⟨other, other'⟩ x y same
  cases eq
  exact ⟨rfl, rest⟩

end Record

/-- Records that the count and the lengths can describe. -/
structure RecordsFit (records : List Record) : Prop where
  few : records.length < 2 ^ 32
  each : ∀ r ∈ records, r.Fits

/-- The count, and the records one behind the other. -/
def wire (records : List Record) : Bytes :=
  toLeBytes 4 records.length ++ records.flatMap Record.toBytes

theorem unambiguous_wire : Unambiguous RecordsFit wire := by
  intro records records' ok ok' x y same
  exact Record.unambiguous_toBytes.counted 4 ⟨ok.few, ok.each⟩ ⟨ok'.few, ok'.each⟩ same

/-! ### What is written -/

/-- The record of an entry. -/
def recordOf (e : Σ _ : String, PropertyData) : Record := ⟨asBytes e.1, e.2.bytes⟩

theorem entry_recordOf (e : Σ _ : String, PropertyData) : (recordOf e).entry = (e.1, e.2) := by
  rw [Record.entry, recordOf, fromUtf8Lossy_asBytes]

theorem encodeProperty_eq {e : Σ _ : String, PropertyData} (fits : (recordOf e).Fits) :
    encodeProperty e.1 e.2 = (recordOf e).toBytes := by
  have key : (asBytes e.1).length % 2 ^ 32 = (asBytes e.1).length := Nat.mod_eq_of_lt fits.key
  have value : e.2.bytes.length % 2 ^ 32 = e.2.bytes.length := Nat.mod_eq_of_lt fits.value
  rw [encodeProperty, u32LeBytes, u32LeBytes, key, value, List.append_assoc]
  rfl

/-- What is written is of the format. -/
theorem encode_eq_wire {order : Order} (fits : RecordsFit (order.entries.map recordOf)) :
    encodeProperties order = wire (order.entries.map recordOf) := by
  obtain ⟨few, each⟩ := fits
  rw [List.length_map] at few
  have entries : (order.entries.flatMap fun e => encodeProperty e.1 e.2) =
      order.entries.flatMap fun e => (recordOf e).toBytes := by
    refine List.flatMap_congr fun e mem => encodeProperty_eq ?_
    exact each _ (List.mem_map_of_mem mem)
  rw [encodeProperties, u32LeBytes, Nat.mod_eq_of_lt few, entries, wire, List.length_map,
    List.flatMap_map]

/-! ### What is read -/

section Reading

variable {data : Bytes} (small : data.length < 2 ^ 63) {pos : Nat}
include small

theorem readSized_eq_ok {noLength noData : String} {out : Bytes} {next : Nat} :
    readSized noLength noData data pos = .ok (out, next) ↔
      out.length < 2 ^ 32 ∧ Holds data pos (sized 4 out) ∧ next = pos + (sized 4 out).length := by
  simp only [readSized, bind_eq_ok, rejectIf_eq_ok, add_eq_ok, index_eq_ok, pure_eq, ok.injEq,
    Prod.mk.injEq, Nat.not_lt, length_sized]
  constructor
  · rintro ⟨_, ⟨_, rfl⟩, _, inside, _, ⟨_, rfl⟩, _, ⟨_, rfl⟩, _, fits, _, ⟨_, rfl⟩, rfl, rfl⟩
    rw [Nat.add_sub_cancel_left, ← wordAt] at fits ⊢
    have word := wordAt_lt inside
    have length : (window data (pos + 4) (wordAt 4 data pos)).length = wordAt 4 data pos :=
      length_window fits
    rw [Nat.add_sub_cancel_left, length, sized, length, holds_append, length_toLeBytes,
      holds_toLeBytes word]
    exact ⟨word, ⟨⟨inside, rfl⟩, holds_window fits⟩, Nat.add_assoc ..⟩
  · rintro ⟨short, holds, rfl⟩
    rw [sized, holds_append, length_toLeBytes, holds_toLeBytes short, wordAt] at holds
    obtain ⟨⟨_, word⟩, content⟩ := holds
    have inside := content.fits
    have there : window data (pos + 4) out.length = out := content.window
    refine ⟨_, ⟨by omega, rfl⟩, (), by omega, _, ⟨⟨by omega, by omega⟩, rfl⟩, _,
      ⟨?_, rfl⟩, (), ?_, out, ⟨⟨by omega, ?_⟩, ?_⟩, rfl, ?_⟩
    all_goals simp only [Nat.add_sub_cancel_left, word]
    · omega
    · omega
    · omega
    · exact there
    · omega

theorem readSized_ne_panic {noLength noData : String} (inside : pos ≤ data.length) :
    readSized noLength noData data pos ≠ .panic := by
  rw [readSized, add_of_lt (by omega), bind_ok]
  refine bind_ne_panic rejectIf_ne_panic fun _ fits => ?_
  rw [rejectIf_eq_ok] at fits
  have word : wordAt 4 data pos < 2 ^ 32 := wordAt_lt (by omega)
  rw [index_of_le (by omega) (by omega), bind_ok, Nat.add_sub_cancel_left, ← wordAt,
    add_of_lt (by omega), bind_ok]
  refine bind_ne_panic rejectIf_ne_panic fun _ fits' => ?_
  rw [rejectIf_eq_ok] at fits'
  rw [index_of_le (by omega) (by omega), bind_ok]
  exact ok_ne_panic _

/-- The loop takes the records that lie one behind the other, and puts their entries in the map
in turn. -/
theorem decodeRest_eq_ok {props out : Properties} {left : Nat} (inside : pos ≤ data.length) :
    decodeRest data pos props left = .ok out ↔
      ∃ records : List Record, records.length = left ∧ (∀ r ∈ records, r.Fits) ∧
        Holds data pos (records.flatMap Record.toBytes) ∧
        out = filled props (records.map Record.entry) := by
  induction left generalizing pos props with
  | zero =>
      rw [decodeRest, pure_eq, ok.injEq]
      constructor
      · rintro rfl
        exact ⟨[], rfl, by simp, holds_nil.mpr inside, rfl⟩
      · rintro ⟨records, none, _, _, rfl⟩
        rw [List.length_eq_zero_iff.mp none]
        rfl
  | succ left ih =>
      simp only [decodeRest, bind_eq_ok, Prod.exists, readSized_eq_ok small]
      constructor
      · rintro ⟨key, _, ⟨key_fits, key_there, rfl⟩, value, _, ⟨value_fits, there, rfl⟩, rest⟩
        obtain ⟨records, count, each, holds, rfl⟩ := (ih there.fits).mp rest
        refine ⟨⟨key, value⟩ :: records, by rw [List.length_cons, count],
          List.forall_mem_cons.mpr ⟨⟨key_fits, value_fits⟩, each⟩, ?_, rfl⟩
        rw [List.flatMap_cons, Record.toBytes, List.append_assoc, holds_append, holds_append]
        exact ⟨key_there, there, holds⟩
      · rintro ⟨records, count, each, holds, rfl⟩
        obtain ⟨⟨key, value⟩, records, rfl⟩ := List.exists_cons_of_length_eq_add_one count
        obtain ⟨⟨key_fits, value_fits⟩, each⟩ := List.forall_mem_cons.mp each
        rw [List.flatMap_cons, Record.toBytes, List.append_assoc, holds_append,
          holds_append] at holds
        obtain ⟨key_there, there, holds⟩ := holds
        exact ⟨key, _, ⟨key_fits, key_there, rfl⟩, value, _, ⟨value_fits, there, rfl⟩,
          (ih there.fits).mpr ⟨records, Nat.succ.inj count, each, holds, rfl⟩⟩

theorem decodeRest_ne_panic {props : Properties} {left : Nat} (inside : pos ≤ data.length) :
    decodeRest data pos props left ≠ .panic := by
  induction left generalizing pos props with
  | zero => exact ok_ne_panic _
  | succ left ih =>
      rw [decodeRest]
      refine bind_ne_panic (readSized_ne_panic small inside) ?_
      rintro ⟨key, next⟩ read
      obtain ⟨_, there, rfl⟩ := (readSized_eq_ok small).mp read
      refine bind_ne_panic (readSized_ne_panic small there.fits) ?_
      rintro ⟨value, next⟩ read
      obtain ⟨_, there, rfl⟩ := (readSized_eq_ok small).mp read
      exact ih there.fits

/-- What is accepted starts with records of the format, and is the map that they fill. -/
theorem decode_eq_ok {props : Properties} :
    decodeProperties data = .ok props ↔
      ∃ records, RecordsFit records ∧ Holds data 0 (wire records) ∧
        props = filled ∅ (records.map Record.entry) := by
  simp only [decodeProperties, bind_eq_ok, rejectIf_eq_ok, index_eq_ok, Nat.not_lt, Nat.sub_zero,
    wire, holds_append, length_toLeBytes, Nat.zero_add]
  constructor
  · rintro ⟨_, header, _, ⟨_, rfl⟩, rest⟩
    obtain ⟨records, count, each, holds, rfl⟩ := (decodeRest_eq_ok small header).mp rest
    have few : records.length < 2 ^ 32 := by
      rw [count]
      exact wordAt_lt header
    refine ⟨records, ⟨few, each⟩, ⟨?_, holds⟩, rfl⟩
    rw [holds_toLeBytes few]
    exact ⟨header, count.symm⟩
  · rintro ⟨records, ⟨few, each⟩, ⟨prefixed, holds⟩, rfl⟩
    obtain ⟨header, count⟩ := (holds_toLeBytes few).mp prefixed
    rw [wordAt] at count
    refine ⟨(), header, _, ⟨⟨by omega, header⟩, rfl⟩, ?_⟩
    rw [count]
    exact (decodeRest_eq_ok small header).mpr ⟨records, rfl, each, holds, rfl⟩

theorem decode_ne_panic : decodeProperties data ≠ .panic := by
  rw [decodeProperties]
  refine bind_ne_panic rejectIf_ne_panic fun _ fits => ?_
  rw [rejectIf_eq_ok] at fits
  rw [index_of_le (by omega) (by omega), bind_ok]
  exact decodeRest_ne_panic small (by omega)

end Reading

end Nextcore.DeviceProps
