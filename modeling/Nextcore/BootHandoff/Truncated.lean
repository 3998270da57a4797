import Nextcore.BootHandoff.RoundTrip

/-!
A buffer that is cut short is rejected.

The memory map loop ends quietly where the data does, with the entries before it
(`readEntries_cut`). What is cut off is missed later: before the device tree by the check of the
command line, whose end is the start of the device tree, and inside the device tree by its own.
-/

namespace Nextcore.BootHandoff

open Checked Checked.Outcome

/-- The sizes of the first entries stay in the word. -/
theorem sum_take_le (entries : List MemoryEntry) (count : Nat) :
    ((entries.take count).map (·.size.toNat)).sum ≤ (entries.map (·.size.toNat)).sum := by
  have parts := congrArg List.sum (List.take_append_drop count (entries.map (·.size.toNat)))
  rw [List.sum_append] at parts
  rw [List.map_take, ← parts]
  exact Nat.le_add_right _ _

theorem readDeviceTree_short {data : Bytes} {offset size : Nat} (word : offset + size < 2 ^ 64)
    (short : data.length < offset + size) (inside : offset ≤ data.length) :
    readDeviceTree data offset size = .err (.handoff "device tree extends beyond data") := by
  have positive : size > 0 := by omega
  rw [readDeviceTree, if_pos positive, add_of_lt word, bind_ok, rejectIf_of _ short, bind_err]

section Truncated

variable {args : BootArgs} {cut : Nat}

/-- A cut behind the header is missed by the check of the command line or of the device tree. -/
theorem deserialize_cut (magic : args.magic = bootArgsMagic) (offsets : args.dtOffset < 2 ^ 32)
    (tree : args.dtBytes.length < 2 ^ 32)
    (sum : (args.memoryMap.entries.map (·.size.toNat)).sum < 2 ^ 64)
    (short : 56 + cut < args.dtOffset + args.dtBytes.length) :
    ∃ e, deserializeBootArgs (packWords args.header ++ args.body.take cut) = .err e := by
  have whole := args.length_body
  have size : (packWords args.header ++ args.body.take cut).length = 56 + cut := by
    rw [List.length_append, args.length_header, List.length_take]
    omega
  have word : (packWords args.header ++ args.body).length < 2 ^ 64 := by
    rw [List.length_append, args.length_header]
    omega
  have start : (packWords args.header).length = 56 + 0 * 20 := args.length_header
  have read := readEntries_cut cut start word
  have below := sum_take_le args.memoryMap.entries (cut / 20)
  rw [deserialize_header magic offsets tree (by omega), BootArgs.body, read, bind_ok,
    sumFrom_of_lt (by omega), bind_ok, ← BootArgs.body]
  by_cases missed : args.dtOffset > (packWords args.header ++ args.body.take cut).length
  · exact ⟨_, by rw [rejectIf_of _ missed, bind_err]⟩
  · have inside := Nat.not_lt.mp missed
    have ordered : args.cmdOffset ≤ args.dtOffset := Nat.le_add_right _ _
    rw [rejectIf_of_not _ missed, bind_ok, index_of_le ordered inside, bind_ok,
      readDeviceTree_short (by omega) (by omega) inside, bind_err]
    exact ⟨_, rfl⟩

/-- Every strict prefix of what is written is rejected. -/
theorem deserialize_truncated (magic : args.magic = bootArgsMagic)
    (offsets : 56 + 20 * args.memoryMap.entries.length + (asBytes args.commandLine).length < 2 ^ 32)
    (tree : args.dtBytes.length < 2 ^ 32)
    (sum : (args.memoryMap.entries.map (·.size.toNat)).sum < 2 ^ 64) :
    ∃ bytes, serializeBootArgs args = .ok bytes ∧
      ∀ front, front <+: bytes → front ≠ bytes → ∃ e, deserializeBootArgs front = .err e := by
  refine ⟨_, serializeBootArgs_of_offsets offsets tree, ?_⟩
  intro front cut strict
  have shorter := Nat.lt_of_le_of_ne cut.length_le fun same => strict (cut.eq_of_length same)
  have taken := List.prefix_iff_eq_take.mp cut
  rw [List.length_append, args.length_header, args.length_body] at shorter
  by_cases header : front.length < headerSize
  · exact ⟨_, by rw [deserializeBootArgs, rejectIf_of _ header, bind_err]⟩
  · have behind : 56 ≤ front.length := Nat.not_lt.mp header
    rw [List.take_append, args.length_header,
      List.take_of_length_le (by rw [args.length_header]; exact behind)] at taken
    rw [taken]
    exact deserialize_cut magic offsets tree sum (by omega)

/-- The sample arguments, with two entries and without bytes of a device tree. -/
theorem deserialize_truncated_sample :
    ∃ bytes, serializeBootArgs sampleArgs = .ok bytes ∧
      ∀ front, front <+: bytes → front ≠ bytes → ∃ e, deserializeBootArgs front = .err e :=
  have same : sampleArgs.magic = bootArgsMagic := rfl
  deserialize_truncated same (by decide +kernel) (by decide) (by decide)

end Truncated

end Nextcore.BootHandoff
