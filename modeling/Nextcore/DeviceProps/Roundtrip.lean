import Nextcore.DeviceProps.Codec

/-!
What becomes of a map that is written, and of bytes that are read.

A map comes back whole from every order it can be written in, and nothing comes back from less
than was written (`decode_encode`). Foreign bytes are read more loosely (`decode_reads`): of
several records that stand for one key the last is kept, and what is behind the records is not
looked at.
-/

namespace Nextcore.DeviceProps

open Checked Checked.Outcome

/-! ### The round trip -/

section RoundTrip

variable {props : Properties} {order : Order}

/-- Lengths of 32 bits are enough for the map. -/
structure Encodable (props : Properties) : Prop where
  few : props.entries.card < 2 ^ 32
  keys : ∀ e ∈ props.entries, (asBytes e.1).length < 2 ^ 32
  values : ∀ e ∈ props.entries, e.2.bytes.length < 2 ^ 32

/-- The records of a map, in any order, can be described. -/
theorem recordsFit_of_encodable (encodable : Encodable order.toFinmap) :
    RecordsFit (order.entries.map recordOf) where
  few := by
    rw [List.length_map]
    exact encodable.few
  each := by
    intro r mem
    obtain ⟨e, listed, rfl⟩ := List.mem_map.mp mem
    exact ⟨encodable.keys e listed, encodable.values e listed⟩

/-- The map comes back from what is written in any order, and no strict prefix of that is read. -/
theorem decode_encode (iterated : order.toFinmap = props) (encodable : Encodable props)
    (small : (encodeProperties order).length < 2 ^ 63) :
    decodeProperties (encodeProperties order) = .ok props ∧
      ∀ cut < (encodeProperties order).length,
        ∃ e, decodeProperties ((encodeProperties order).take cut) = .err e := by
  subst iterated
  have fits := recordsFit_of_encodable encodable
  have written := encode_eq_wire fits
  constructor
  · rw [decode_eq_ok small]
    refine ⟨order.entries.map recordOf, fits, ?_, ?_⟩
    · rw [← written]
      exact holds_self _
    · have entries : (order.entries.map recordOf).map Record.entry =
          order.entries.map fun e => (e.1, e.2) := by
        rw [List.map_map]
        exact List.map_congr_left fun e _ => entry_recordOf e
      rw [entries, filled_entries]
  · intro cut short
    have small' : ((encodeProperties order).take cut).length < 2 ^ 63 := by
      rw [List.length_take]
      omega
    cases read : decodeProperties ((encodeProperties order).take cut) with
    | ok out =>
        obtain ⟨records, fits', holds, _⟩ := (decode_eq_ok small').mp read
        obtain ⟨rest, split⟩ := holds_zero.mp holds
        rw [written] at short split
        exact absurd split.symm (unambiguous_wire.not_of_take fits fits' short)
    | err e => exact ⟨e, rfl⟩
    | panic => exact absurd read (decode_ne_panic small')

/-- Two properties, in one of their orders. -/
def slots : Order where
  entries := [⟨"slot", ⟨[1, 2]⟩⟩, ⟨"é", ⟨[]⟩⟩]
  nodupKeys := (by decide : ["slot", "é"].Nodup)

theorem decode_encode_sample :
    decodeProperties (encodeProperties slots) = .ok slots.toFinmap ∧
      ∀ cut < (encodeProperties slots).length,
        ∃ e, decodeProperties ((encodeProperties slots).take cut) = .err e := by
  exact decode_encode rfl ⟨by decide, by decide +kernel, by decide⟩ (by decide +kernel)

end RoundTrip

/-! ### Foreign bytes -/

section Foreign

variable {data : Bytes} {props : Properties} {records : List Record}

/-- Each record of the buffer is in the map, and there is nothing else in the buffer. -/
structure KeepsRecords (data : Bytes) (props : Properties) (records : List Record) : Prop where
  count : props.keys.card = wordAt 4 data 0
  each : ∀ r ∈ records, props.lookup r.entry.1 = some r.entry.2
  whole : (wire records).length = data.length

/-- The buffer starts with the records that it declares, and under each key the map holds the
value of the last record for it. -/
structure Reads (data : Bytes) (props : Properties) (records : List Record) : Prop where
  fits : RecordsFit records
  count : records.length = wordAt 4 data 0
  starts : wire records <+: data
  last : ∀ key value,
    props.lookup key = some value ↔ LastOf (records.map Record.entry) (key, value)
  distinct : props.keys.card = wordAt 4 data 0 ↔ (records.map fun r => r.entry.1).Nodup
  each : (records.map fun r => r.entry.1).Nodup →
    ∀ r ∈ records, props.lookup r.entry.1 = some r.entry.2
  keeps : KeepsRecords data props records ↔
    (records.map fun r => r.entry.1).Nodup ∧ wire records = data
  rest : ∀ data', data'.length < 2 ^ 63 → wire records <+: data' →
    decodeProperties data' = .ok props

/-- Every accepted buffer starts with the records that it declares; where two of them have one key
the later one replaces the earlier, and what stands behind the last is not looked at. -/
theorem decode_reads (small : data.length < 2 ^ 63) (accepted : decodeProperties data = .ok props) :
    ∃ records, Reads data props records := by
  obtain ⟨records, fits, holds, rfl⟩ := (decode_eq_ok small).mp accepted
  have starts := holds_zero.mp holds
  have count : records.length = wordAt 4 data 0 := by
    rw [wire, holds_append, holds_toLeBytes fits.few] at holds
    exact holds.1.2.symm
  have names : (records.map fun r => r.entry.1) = (records.map Record.entry).map Prod.fst := by
    rw [List.map_map]
    rfl
  have distinct : (filled ∅ (records.map Record.entry)).keys.card = wordAt 4 data 0 ↔
      (records.map fun r => r.entry.1).Nodup := by
    rw [names, ← card_keys_filled, List.length_map, count]
  have each : (records.map fun r => r.entry.1).Nodup → ∀ r ∈ records,
      (filled ∅ (records.map Record.entry)).lookup r.entry.1 = some r.entry.2 := by
    intro nodup r mem
    rw [lookup_filled, lastOf_of_nodup (names ▸ nodup)]
    exact List.mem_map_of_mem mem
  refine ⟨records, fits, count, starts, fun key value => lookup_filled, distinct, each, ?_, ?_⟩
  · constructor
    · intro keeps
      exact ⟨distinct.mp keeps.count, starts.eq_of_length keeps.whole⟩
    · rintro ⟨nodup, rfl⟩
      exact ⟨distinct.mpr nodup, each nodup, rfl⟩
  · intro data' small' starts'
    exact (decode_eq_ok small').mpr ⟨records, fits, holds_zero.mpr starts', rfl⟩

/-- Two records for one key. -/
def twice : List Record := [⟨[0x61], [1]⟩, ⟨[0x61], [2]⟩]

/-- The two records, and a byte behind them. -/
def doubled : Bytes := wire twice ++ [0]

/-- The first record is lost, and the byte behind the second is not looked at. -/
theorem decode_loses_record :
    ∃ props, decodeProperties doubled = .ok props ∧ RecordsFit twice ∧ wire twice <+: doubled ∧
      props.keys.card = 1 ∧ wordAt 4 doubled 0 = 2 ∧ props.lookup "a" = some ⟨[2]⟩ ∧
      (wire twice).length < doubled.length := by
  refine ⟨Finmap.singleton "a" ⟨[2]⟩, by decide +kernel, ⟨by decide, ?_⟩, ⟨[0], rfl⟩, rfl,
    by decide, by decide, by decide⟩
  exact List.forall_mem_cons.mpr ⟨⟨by decide, by decide⟩,
    List.forall_mem_singleton.mpr ⟨by decide, by decide⟩⟩

theorem decode_reads_sample :
    ∃ records, Reads doubled (Finmap.singleton "a" ⟨[2]⟩) records :=
  decode_reads (by decide) (by decide +kernel)

end Foreign

end Nextcore.DeviceProps
