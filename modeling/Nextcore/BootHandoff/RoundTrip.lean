import Nextcore.BootHandoff.Wire

/-!
What is written is read back.

The buffer is a record of words with three byte strings behind it (`serializeBootArgs_eq`), as
long as the offsets fit their words. Reading a word of it is a fact about records
(`readU32Le_packed`, `readU64Le_packed`), and the memory map loop reads one record after the
other (`readEntries_cut`).
-/

namespace Nextcore.BootHandoff

open Checked Checked.Outcome

/-! ### The written buffer -/

@[simp] theorem MemoryEntry.length_toBytes (e : MemoryEntry) : e.toBytes.length = 20 := by
  rw [MemoryEntry.toBytes, length_packWords]
  rfl

theorem length_entries (entries : List MemoryEntry) :
    (entries.flatMap MemoryEntry.toBytes).length = 20 * entries.length := by
  induction entries with
  | nil => rfl
  | cons e rest ih =>
      rw [List.flatMap_cons, List.length_append, ih, e.length_toBytes, List.length_cons]
      omega

namespace BootArgs

variable (args : BootArgs)

/-- Where the command line starts. -/
def cmdOffset : Nat := 56 + 20 * args.memoryMap.entries.length

/-- Where the device tree starts. -/
def dtOffset : Nat := args.cmdOffset + (asBytes args.commandLine).length

/-- The words of the header, each with its width. -/
def header : List (Nat × Nat) :=
  [(4, args.magic.toNat), (4, args.version.toNat), (8, args.flags.toNat), (4, 56),
    (4, 20 * args.memoryMap.entries.length), (8, args.kernelBase.toNat), (8, args.kernelSize.toNat),
    (4, args.cmdOffset), (4, (asBytes args.commandLine).length), (4, args.dtOffset),
    (4, args.dtBytes.length)]

/-- What follows the header. -/
def body : Bytes :=
  args.memoryMap.entries.flatMap MemoryEntry.toBytes ++ (asBytes args.commandLine ++ args.dtBytes)

/-- The encoded parts fit offsets of 32 bits. -/
def Fits : Prop := args.dtOffset + args.dtBytes.length < 2 ^ 32

theorem length_header : (packWords args.header).length = 56 := by
  rw [length_packWords]
  rfl

theorem length_body : 56 + args.body.length = args.dtOffset + args.dtBytes.length := by
  rw [body, List.length_append, List.length_append, length_entries, dtOffset, cmdOffset]
  omega

end BootArgs

theorem asU32_of_lt {n : Nat} (fits : n < 2 ^ 32) : asU32 n = n := Nat.mod_eq_of_lt fits

/-- No word of the header is cut when the offsets and the device tree fit. -/
theorem serializeBootArgs_of_offsets {args : BootArgs} (offsets : args.dtOffset < 2 ^ 32)
    (tree : args.dtBytes.length < 2 ^ 32) :
    serializeBootArgs args = .ok (packWords args.header ++ args.body) := by
  rw [BootArgs.dtOffset, BootArgs.cmdOffset] at offsets
  rw [serializeBootArgs]
  dsimp only
  rw [length_entries, headerSize, asU32_of_lt (by omega), asU32_of_lt (by omega),
    asU32_of_lt (by omega), asU32_of_lt (by omega), addU32_of_lt (by omega), bind_ok,
    addU32_of_lt (by omega), bind_ok]
  rfl

theorem serializeBootArgs_eq {args : BootArgs} (fits : args.Fits) :
    serializeBootArgs args = .ok (packWords args.header ++ args.body) :=
  serializeBootArgs_of_offsets (Nat.lt_of_le_of_lt (Nat.le_add_right _ _) fits)
    (Nat.lt_of_le_of_lt (Nat.le_add_left _ _) fits)

/-! ### Reading a record -/

section Reading

variable (front : Bytes) {rest : Bytes} {fields : List (Nat × Nat)} {n : Nat} (k offset : Nat)

/-- A word of a record lies in the data. -/
theorem packed_inside {width : Nat} (field : fields[k]? = some (width, n))
    (offset_eq : offset = front.length + ((fields.take k).map Prod.fst).sum) :
    offset + width ≤ (front ++ (packWords fields ++ rest)).length := by
  rw [packWords_eq_append field, offset_eq, ← length_packWords]
  simp only [List.length_append, length_toLeBytes]
  omega

theorem readU32Le_packed (field : fields[k]? = some (4, n)) (small : n < 2 ^ 32)
    (offset_eq : offset = front.length + ((fields.take k).map Prod.fst).sum)
    (word : (front ++ (packWords fields ++ rest)).length < 2 ^ 64) :
    readU32Le (front ++ (packWords fields ++ rest)) offset = .ok (UInt32.ofNat n) := by
  have inside : offset + 4 ≤ (front ++ (packWords fields ++ rest)).length :=
    packed_inside front k offset field offset_eq
  rw [readU32Le, add_of_lt (by omega), bind_ok, rejectIf_of_not _ (by omega), bind_ok,
    index_of_le (by omega) (by omega), bind_ok, Nat.add_sub_cancel_left, offset_eq,
    window_packWords front rest field, fromLeBytes_toLeBytes small]
  rfl

theorem readU64Le_packed (field : fields[k]? = some (8, n)) (small : n < 2 ^ 64)
    (offset_eq : offset = front.length + ((fields.take k).map Prod.fst).sum)
    (word : (front ++ (packWords fields ++ rest)).length < 2 ^ 64) :
    readU64Le (front ++ (packWords fields ++ rest)) offset = .ok (UInt64.ofNat n) := by
  have inside : offset + 8 ≤ (front ++ (packWords fields ++ rest)).length :=
    packed_inside front k offset field offset_eq
  rw [readU64Le, add_of_lt (by omega), bind_ok, rejectIf_of_not _ (by omega), bind_ok,
    index_of_le (by omega) (by omega), bind_ok, Nat.add_sub_cancel_left, offset_eq,
    window_packWords front rest field, fromLeBytes_toLeBytes small]
  rfl

/-- The widths of the words of a header. -/
def headerWidths : List Nat := [4, 4, 8, 4, 4, 8, 8, 4, 4, 4, 4]

theorem header_widths (args : BootArgs) : args.header.map Prod.fst = headerWidths := rfl

theorem header_u32 {args : BootArgs} (field : args.header[k]? = some (4, n)) (small : n < 2 ^ 32)
    (offset_eq : offset = (headerWidths.take k).sum)
    (word : (packWords args.header ++ rest).length < 2 ^ 64) :
    readU32Le (packWords args.header ++ rest) offset = .ok (UInt32.ofNat n) := by
  rw [← header_widths args, ← List.map_take, ← Nat.zero_add (List.sum _)] at offset_eq
  have read := readU32Le_packed [] k offset field small offset_eq word
  rwa [List.nil_append] at read

theorem header_u64 {args : BootArgs} (field : args.header[k]? = some (8, n)) (small : n < 2 ^ 64)
    (offset_eq : offset = (headerWidths.take k).sum)
    (word : (packWords args.header ++ rest).length < 2 ^ 64) :
    readU64Le (packWords args.header ++ rest) offset = .ok (UInt64.ofNat n) := by
  rw [← header_widths args, ← List.map_take, ← Nat.zero_add (List.sum _)] at offset_eq
  have read := readU64Le_packed [] k offset field small offset_eq word
  rwa [List.nil_append] at read

end Reading

theorem readEntry_toBytes {front rest : Bytes} {e : MemoryEntry}
    (word : (front ++ (e.toBytes ++ rest)).length < 2 ^ 64) :
    readEntry (front ++ (e.toBytes ++ rest)) front.length = .ok e := by
  have size : (front ++ (e.toBytes ++ rest)).length = front.length + (20 + rest.length) := by
    rw [List.length_append, List.length_append, e.length_toBytes]
  rw [MemoryEntry.toBytes] at word size ⊢
  rw [readEntry, readU64Le_packed front 0 front.length rfl e.base.toNat_lt rfl word, bind_ok,
    add_of_lt (by omega), bind_ok,
    readU64Le_packed front 1 (front.length + 8) rfl e.size.toNat_lt rfl word, bind_ok,
    add_of_lt (by omega), bind_ok,
    readU32Le_packed front 2 (front.length + 16) rfl e.kind.toU32.toNat_lt rfl word, bind_ok,
    UInt32.ofNat_toNat, MemoryKind.fromU32_toU32, ofOption_some, bind_ok, UInt64.ofNat_toNat,
    UInt64.ofNat_toNat]
  rfl

/-- The loop reads the entries that it finds one after the other from where it stands, and ends
where the data is cut off. -/
theorem readEntries_cut {entries : List MemoryEntry} {front rest : Bytes} {offset i : Nat}
    (cut : Nat) (at_i : front.length = offset + i * 20)
    (word : (front ++ (entries.flatMap MemoryEntry.toBytes ++ rest)).length < 2 ^ 64) :
    readEntries (front ++ (entries.flatMap MemoryEntry.toBytes ++ rest).take cut) offset i
      entries.length = .ok (entries.take (cut / 20)) := by
  induction entries generalizing front i cut with
  | nil =>
      rw [List.take_nil]
      rfl
  | cons e others ih =>
      rw [List.flatMap_cons, List.append_assoc] at word ⊢
      have size : (front ++ (e.toBytes ++ (others.flatMap MemoryEntry.toBytes ++ rest))).length =
          front.length + (20 + (others.flatMap MemoryEntry.toBytes ++ rest).length) := by
        rw [List.length_append, List.length_append, e.length_toBytes]
      have next : (front ++ e.toBytes).length = offset + (i + 1) * 20 := by
        rw [List.length_append, e.length_toBytes]
        omega
      rw [List.length_cons, readEntries, mul_of_lt (by omega), bind_ok, add_of_lt (by omega),
        bind_ok, add_of_lt (by omega), bind_ok]
      by_cases inside : 20 ≤ cut
      · have parts : (e.toBytes ++ (others.flatMap MemoryEntry.toBytes ++ rest)).take cut =
            e.toBytes ++ (others.flatMap MemoryEntry.toBytes ++ rest).take (cut - 20) := by
          rw [List.take_append, e.length_toBytes,
            List.take_of_length_le (by rw [e.length_toBytes]; exact inside)]
        rw [parts]
        have word' : (front ++ (e.toBytes ++
            (others.flatMap MemoryEntry.toBytes ++ rest).take (cut - 20))).length < 2 ^ 64 := by
          rw [List.length_append, List.length_append, e.length_toBytes, List.length_take]
          omega
        have long : ¬ offset + i * 20 + 20 > (front ++ (e.toBytes ++
            (others.flatMap MemoryEntry.toBytes ++ rest).take (cut - 20))).length := by
          rw [List.length_append, List.length_append, e.length_toBytes]
          omega
        rw [if_neg long, ← at_i, readEntry_toBytes word', bind_ok]
        rw [← List.append_assoc] at word ⊢
        have more : cut / 20 = (cut - 20) / 20 + 1 := by omega
        rw [ih (cut - 20) next word, more, List.take_succ_cons]
        rfl
      · have short : offset + i * 20 + 20 > (front ++
            (e.toBytes ++ (others.flatMap MemoryEntry.toBytes ++ rest)).take cut).length := by
          rw [List.length_append, List.length_take]
          omega
        have none_left : cut / 20 = 0 := by omega
        rw [if_pos short, none_left]
        rfl

theorem readEntries_packed {entries : List MemoryEntry} {front rest : Bytes} {offset i : Nat}
    (at_i : front.length = offset + i * 20)
    (word : (front ++ (entries.flatMap MemoryEntry.toBytes ++ rest)).length < 2 ^ 64) :
    readEntries (front ++ (entries.flatMap MemoryEntry.toBytes ++ rest)) offset i entries.length =
      .ok entries := by
  have read := readEntries_cut (entries.flatMap MemoryEntry.toBytes ++ rest).length at_i word
  have all : entries.length ≤ (entries.flatMap MemoryEntry.toBytes ++ rest).length / 20 := by
    rw [List.length_append, length_entries]
    omega
  rwa [List.take_length, List.take_of_length_le all] at read

theorem toNat_ofNat_of_lt {n : Nat} (small : n < 2 ^ 32) : (UInt32.ofNat n).toNat = n :=
  UInt32.toNat_ofNat_of_lt' small

/-- A header is read back, whatever follows it. -/
theorem deserialize_header {args : BootArgs} {rest : Bytes} (magic : args.magic = bootArgsMagic)
    (offsets : args.dtOffset < 2 ^ 32) (tree : args.dtBytes.length < 2 ^ 32)
    (word : (packWords args.header ++ rest).length < 2 ^ 64) :
    deserializeBootArgs (packWords args.header ++ rest) = (do
      let entries ← readEntries (packWords args.header ++ rest) 56 0 args.memoryMap.entries.length
      let totalSize ← sumFrom 0 (entries.map (·.size.toNat))
      rejectIf (args.dtOffset > (packWords args.header ++ rest).length)
        (.handoff "command line extends beyond data")
      let commandLine ← index (packWords args.header ++ rest) args.cmdOffset args.dtOffset
      let deviceTree ← readDeviceTree (packWords args.header ++ rest) args.dtOffset
        args.dtBytes.length
      pure { args with
        memoryMap := ⟨entries, UInt64.ofNat totalSize⟩
        commandLine := fromUtf8Lossy commandLine
        deviceTree }) := by
  have size : (packWords args.header ++ rest).length = 56 + rest.length := by
    rw [List.length_append, args.length_header]
  have cmd : args.cmdOffset + (asBytes args.commandLine).length = args.dtOffset := rfl
  have map : 56 + 20 * args.memoryMap.entries.length = args.cmdOffset := rfl
  have count : 20 * args.memoryMap.entries.length / 20 = args.memoryMap.entries.length := by omega
  rw [deserializeBootArgs, rejectIf_of_not _ (by rw [headerSize]; omega), bind_ok,
    header_u32 0 0 rfl args.magic.toNat_lt rfl word, bind_ok, UInt32.ofNat_toNat,
    rejectIf_of_not _ (not_not.mpr magic), bind_ok,
    header_u32 1 4 rfl args.version.toNat_lt rfl word, bind_ok,
    header_u64 2 8 rfl args.flags.toNat_lt rfl word, bind_ok,
    header_u32 3 16 rfl (by decide) rfl word, bind_ok,
    header_u32 4 20 rfl (by omega) rfl word, bind_ok,
    header_u64 5 24 rfl args.kernelBase.toNat_lt rfl word, bind_ok,
    header_u64 6 32 rfl args.kernelSize.toNat_lt rfl word, bind_ok,
    header_u32 7 40 rfl (by omega) rfl word, bind_ok,
    header_u32 8 44 rfl (by omega) rfl word, bind_ok,
    header_u32 9 48 rfl offsets rfl word, bind_ok,
    header_u32 10 52 rfl tree rfl word, bind_ok,
    toNat_ofNat_of_lt (by decide), toNat_ofNat_of_lt (by omega), count,
    toNat_ofNat_of_lt (by omega), toNat_ofNat_of_lt (by omega), toNat_ofNat_of_lt offsets,
    toNat_ofNat_of_lt tree, add_of_lt (by omega), cmd]
  simp only [bind_ok, UInt32.ofNat_toNat, UInt64.ofNat_toNat]

/-! ### The round trip -/

/-- The boot arguments as the wire has them: a device tree without bytes is no device tree. -/
def BootArgs.onWire (args : BootArgs) : BootArgs :=
  { args with deviceTree := args.deviceTree.filter (·.data ≠ []) }

theorem readDeviceTree_back {front tree : Bytes} (word : (front ++ tree).length < 2 ^ 64) :
    readDeviceTree (front ++ tree) front.length tree.length =
      .ok (if tree = [] then none else some ⟨tree⟩) := by
  have size : (front ++ tree).length = front.length + tree.length := List.length_append
  rw [readDeviceTree]
  by_cases empty : tree = []
  · subst empty
    rfl
  · have positive : tree.length > 0 := List.length_pos_iff.mpr empty
    rw [if_pos positive, if_neg empty, add_of_lt (by omega), bind_ok,
      rejectIf_of_not _ (by omega), bind_ok, index_of_le (by omega) (by omega), bind_ok,
      Nat.add_sub_cancel_left, window_append_of_ge (Nat.le_refl _), Nat.sub_self, window_all rfl]
    rfl

theorem onWire_deviceTree (args : BootArgs) :
    args.onWire.deviceTree = if args.dtBytes = [] then none else some ⟨args.dtBytes⟩ := by
  rw [BootArgs.onWire, BootArgs.dtBytes]
  cases args.deviceTree with
  | none => rfl
  | some tree =>
      by_cases empty : tree.data = []
      · simp [Option.filter, empty]
      · simp [Option.filter, empty]

/-- What is written is read back field by field, when the parts fit the offsets and the total of
the memory map is the sum of its entries. -/
theorem deserialize_serialize {args : BootArgs} (magic : args.magic = bootArgsMagic)
    (fits : 56 + 20 * args.memoryMap.entries.length + (asBytes args.commandLine).length +
      args.dtBytes.length < 2 ^ 32)
    (sum : (args.memoryMap.entries.map (·.size.toNat)).sum < 2 ^ 64)
    (total : args.memoryMap.totalSize.toNat = (args.memoryMap.entries.map (·.size.toNat)).sum) :
    (serializeBootArgs args >>= deserializeBootArgs) = .ok args.onWire := by
  have size : (packWords args.header ++ args.body).length =
      56 + 20 * args.memoryMap.entries.length + (asBytes args.commandLine).length +
        args.dtBytes.length := by
    rw [List.length_append, args.length_header, args.length_body]
    rfl
  have word : (packWords args.header ++ args.body).length < 2 ^ 64 := by omega
  have dt : args.dtOffset < 2 ^ 32 := by
    rw [BootArgs.dtOffset, BootArgs.cmdOffset]
    omega
  have inside : args.dtOffset ≤ (packWords args.header ++ args.body).length := by
    rw [BootArgs.dtOffset, BootArgs.cmdOffset]
    omega
  have ordered : args.cmdOffset ≤ args.dtOffset := Nat.le_add_right _ _
  have length : args.dtOffset - args.cmdOffset = (asBytes args.commandLine).length :=
    Nat.add_sub_cancel_left _ _
  have entries : readEntries (packWords args.header ++ args.body) 56 0
      args.memoryMap.entries.length = .ok args.memoryMap.entries :=
    readEntries_packed args.length_header word
  have line : window (packWords args.header ++ args.body) args.cmdOffset
      (asBytes args.commandLine).length = asBytes args.commandLine := by
    have front : (packWords args.header ++
        args.memoryMap.entries.flatMap MemoryEntry.toBytes).length = args.cmdOffset := by
      rw [List.length_append, args.length_header, length_entries, BootArgs.cmdOffset]
    rw [BootArgs.body, ← List.append_assoc, ← front, window_append_of_ge (Nat.le_refl _),
      Nat.sub_self, window_append_of_le (by omega), window_all rfl]
  have tree : readDeviceTree (packWords args.header ++ args.body) args.dtOffset
      args.dtBytes.length = .ok (if args.dtBytes = [] then none else some ⟨args.dtBytes⟩) := by
    have front : (packWords args.header ++ (args.memoryMap.entries.flatMap MemoryEntry.toBytes ++
        asBytes args.commandLine)).length = args.dtOffset := by
      rw [List.length_append, List.length_append, args.length_header, length_entries,
        BootArgs.dtOffset, BootArgs.cmdOffset, Nat.add_assoc]
    rw [BootArgs.body, ← List.append_assoc (List.flatMap ..), ← List.append_assoc] at word ⊢
    rw [← front]
    exact readDeviceTree_back word
  rw [serializeBootArgs_eq fits, bind_ok, deserialize_header magic dt (by omega) word, entries,
    bind_ok, sumFrom_of_lt (by omega), bind_ok, rejectIf_of_not _ (Nat.not_lt.mpr inside), bind_ok,
    index_of_le ordered inside, bind_ok, length, line, tree, bind_ok, ← onWire_deviceTree,
    fromUtf8Lossy_asBytes, Nat.zero_add, ← total, UInt64.ofNat_toNat]
  rfl

/-- Two entries, a command line, and a device tree without bytes. -/
def sampleArgs : BootArgs where
  magic := bootArgsMagic
  version := 12
  flags := 0x100
  memoryMap := ⟨[⟨0x1000, 0x9000, .efiConventional⟩, ⟨0x20000000, 0x1000, .efiACPINVS⟩], 0xa000⟩
  kernelBase := 0xFFFFFF8000200000
  kernelSize := 0x1000000
  commandLine := "debug=0x100 -v"
  deviceTree := some ⟨[]⟩

theorem deserialize_serialize_sample :
    (serializeBootArgs sampleArgs >>= deserializeBootArgs) =
      .ok { sampleArgs with deviceTree := none } :=
  have same : sampleArgs.magic = bootArgsMagic := rfl
  deserialize_serialize same (by decide +kernel) (by decide) rfl

end Nextcore.BootHandoff
