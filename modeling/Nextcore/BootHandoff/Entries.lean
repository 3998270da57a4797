import Nextcore.BootHandoff.Wire

/-!
Which entries of the memory map are read.

Of the entries that the header declares those are read that lie whole in the data
(`readEntries_eq_ok`): where the map leaves the data, or its size is no multiple of an entry, the
rest is dropped without a word, unlike a command line or a device tree that leaves it.
`deserialize_keeps_iff` says for every buffer whether something is lost.
-/

namespace Nextcore.BootHandoff

open Checked Checked.Outcome

/-! ### The words of a buffer -/

section Words

variable (data : Bytes)

def mapOffset : Nat := wordAt 4 data 16
def mapSize : Nat := wordAt 4 data 20
def lineOffset : Nat := wordAt 4 data 40
def lineSize : Nat := wordAt 4 data 44
def treeOffset : Nat := wordAt 4 data 48
def treeSize : Nat := wordAt 4 data 52

variable (k : Nat)

/-- Where the `k`-th entry of the memory map starts. -/
def entryOffset : Nat := mapOffset data + k * 20

def baseAt : Nat := wordAt 8 data (entryOffset data k)
def sizeAt : Nat := wordAt 8 data (entryOffset data k + 8)
def kindAt : Nat := wordAt 4 data (entryOffset data k + 16)

/-- The `k`-th entry of the memory map, as it is on the wire. -/
def wireEntry : Nat × Nat × Nat := (baseAt data k, sizeAt data k, kindAt data k)

/-- How many entries have room in the data. -/
def roomFor : Nat := (data.length - mapOffset data) / 20

/-- How many of the declared entries lie in the data. -/
def entriesIn : Nat := min (mapSize data / 20) (roomFor data)

end Words

/-- An entry as it is on the wire. -/
def MemoryEntry.words (e : MemoryEntry) : Nat × Nat × Nat :=
  (e.base.toNat, e.size.toNat, e.kind.toU32.toNat)

theorem lt_roomFor {data : Bytes} {k : Nat} :
    k < roomFor data ↔ entryOffset data k + 20 ≤ data.length := by
  rw [roomFor, entryOffset, Nat.lt_div_iff_mul_lt (by decide)]
  omega

/-! ### Reading -/

theorem MemoryKind.fromU32_eq_some {v : UInt32} {kind : MemoryKind} :
    fromU32 v = some kind ↔ kind.toU32 = v := by
  constructor
  · intro found
    unfold fromU32 at found
    split at found <;> cases found <;> exact UInt32.toNat_inj.mp (Eq.symm ‹_›)
  · rintro rfl
    exact fromU32_toU32 kind

theorem MemoryKind.toU32_le (kind : MemoryKind) : kind.toU32.toNat ≤ 12 := by
  cases kind <;> decide

theorem MemoryKind.fromU32_eq_none {v : UInt32} : fromU32 v = none ↔ 12 < v.toNat := by
  constructor
  · intro unknown
    by_contra low
    have few : v.toNat < 13 := by omega
    have known : ∀ n < 13, fromU32 (UInt32.ofNat n) ≠ none := by decide
    rw [← UInt32.ofNat_toNat (x := v)] at unknown
    exact known _ few unknown
  · intro high
    cases found : fromU32 v with
    | none => rfl
    | some kind =>
        rw [← fromU32_eq_some.mp found] at high
        exact absurd kind.toU32_le (Nat.not_le.mpr high)

section Reading

variable {data : Bytes} {offset : Nat} (small : data.length < 2 ^ 63)
include small

theorem readU32Le_of_le (inside : offset + 4 ≤ data.length) :
    readU32Le data offset = .ok (UInt32.ofNat (wordAt 4 data offset)) := by
  rw [readU32Le, add_of_lt (by omega), bind_ok, rejectIf_of_not _ (by omega), bind_ok,
    index_of_le (by omega) inside, Nat.add_sub_cancel_left]
  rfl

theorem readU64Le_of_le (inside : offset + 8 ≤ data.length) :
    readU64Le data offset = .ok (UInt64.ofNat (wordAt 8 data offset)) := by
  rw [readU64Le, add_of_lt (by omega), bind_ok, rejectIf_of_not _ (by omega), bind_ok,
    index_of_le (by omega) inside, Nat.add_sub_cancel_left]
  rfl

/-- An entry in the data is read unless its kind is unknown. -/
theorem readEntry_cases {k : Nat} (inside : entryOffset data k + 20 ≤ data.length) :
    (∃ e, readEntry data (entryOffset data k) = .ok e ∧ kindAt data k ≤ 12 ∧
        e.words = wireEntry data k) ∨
      (∃ e, readEntry data (entryOffset data k) = .err e) ∧ 12 < kindAt data k := by
  have base : baseAt data k < 2 ^ 64 := wordAt_lt (by omega)
  have size : sizeAt data k < 2 ^ 64 := wordAt_lt (by omega)
  have kind : kindAt data k < 2 ^ 32 := wordAt_lt (by omega)
  have word : (UInt32.ofNat (kindAt data k)).toNat = kindAt data k :=
    UInt32.toNat_ofNat_of_lt' kind
  rw [readEntry, readU64Le_of_le small (by omega), bind_ok, add_of_lt (by omega), bind_ok,
    readU64Le_of_le small (by omega), bind_ok, add_of_lt (by omega), bind_ok,
    readU32Le_of_le small (by omega), bind_ok, ← kindAt, ← baseAt, ← sizeAt]
  cases found : MemoryKind.fromU32 (UInt32.ofNat (kindAt data k)) with
  | none =>
      rw [MemoryKind.fromU32_eq_none, word] at found
      exact .inr ⟨⟨_, rfl⟩, found⟩
  | some known =>
      left
      have eq := MemoryKind.fromU32_eq_some.mp found
      refine ⟨_, rfl, ?_, ?_⟩
      · rw [← word, ← eq]
        exact known.toU32_le
      · rw [MemoryEntry.words, eq, word, UInt64.toNat_ofNat_of_lt' base,
          UInt64.toNat_ofNat_of_lt' size]
        rfl

/-- The loop reads the entries that lie in the data, and fails where one of them is of an unknown
kind. -/
theorem readEntries_cases (header : 56 ≤ data.length) {i left : Nat}
    (short : i + left < 2 ^ 32) :
    (∃ entries, readEntries data (mapOffset data) i left = .ok entries ∧
        (∀ k, i ≤ k → k < i + left → k < roomFor data → kindAt data k ≤ 12) ∧
        entries.map MemoryEntry.words =
          (List.range' i (min left (roomFor data - i))).map (wireEntry data)) ∨
      (∃ e, readEntries data (mapOffset data) i left = .err e) ∧
        ∃ k, i ≤ k ∧ k < i + left ∧ k < roomFor data ∧ 12 < kindAt data k := by
  have word : mapOffset data < 2 ^ 32 := wordAt_lt (by omega)
  induction left generalizing i with
  | zero =>
      left
      refine ⟨[], rfl, fun k above below => absurd above (by omega), ?_⟩
      rw [Nat.zero_min]
      rfl
  | succ left ih =>
      rw [readEntries, mul_of_lt (by omega), bind_ok, add_of_lt (by omega), bind_ok,
        add_of_lt (by omega), bind_ok]
      by_cases room : i < roomFor data
      · have inside := lt_roomFor.mp room
        rw [if_neg (by rw [entryOffset] at inside; omega)]
        rcases readEntry_cases small inside with
          ⟨entry, read, known, words⟩ | ⟨⟨e, failed⟩, unknown⟩
        · rw [entryOffset] at read
          rw [read, bind_ok]
          rcases ih (i := i + 1) (by omega) with ⟨rest, others, kinds, rest_words⟩ |
            ⟨⟨e, failed⟩, k, above, below, k_room, unknown⟩
          · left
            rw [others, bind_ok]
            refine ⟨entry :: rest, rfl, fun k above below k_room => ?_, ?_⟩
            · rcases Nat.eq_or_lt_of_le above with rfl | later
              · exact known
              · exact kinds k later (by omega) k_room
            · have more : min (left + 1) (roomFor data - i) =
                  min left (roomFor data - (i + 1)) + 1 := by omega
              rw [List.map_cons, rest_words, more, List.range'_succ, List.map_cons, words]
          · right
            rw [failed, bind_err]
            exact ⟨⟨e, rfl⟩, k, by omega, by omega, k_room, unknown⟩
        · right
          rw [entryOffset] at failed
          rw [failed, bind_err]
          exact ⟨⟨e, rfl⟩, i, Nat.le_refl i, by omega, room, unknown⟩
      · left
        have outside : mapOffset data + i * 20 + 20 > data.length := by
          rw [lt_roomFor, entryOffset] at room
          omega
        have none : min (left + 1) (roomFor data - i) = 0 := by omega
        rw [if_pos outside, none]
        exact ⟨[], rfl, fun k above _ k_room => absurd k_room (by omega), rfl⟩

/-- What is done when the header has been read. -/
theorem deserialize_eq (header : 56 ≤ data.length)
    (magic : wordAt 4 data 0 = bootArgsMagic.toNat) :
    deserializeBootArgs data = (do
      let entries ← readEntries data (mapOffset data) 0 (mapSize data / 20)
      let totalSize ← sumFrom 0 (entries.map (·.size.toNat))
      rejectIf (lineOffset data + lineSize data > data.length)
        (.handoff "command line extends beyond data")
      let commandLine ← index data (lineOffset data) (lineOffset data + lineSize data)
      let deviceTree ← readDeviceTree data (treeOffset data) (treeSize data)
      pure
        { magic := bootArgsMagic
          version := UInt32.ofNat (wordAt 4 data 4)
          flags := UInt64.ofNat (wordAt 8 data 8)
          memoryMap := ⟨entries, UInt64.ofNat totalSize⟩
          kernelBase := UInt64.ofNat (wordAt 8 data 24)
          kernelSize := UInt64.ofNat (wordAt 8 data 32)
          commandLine := fromUtf8Lossy commandLine
          deviceTree }) := by
  have word {at' : Nat} (inside : at' + 4 ≤ data.length) :
      (UInt32.ofNat (wordAt 4 data at')).toNat = wordAt 4 data at' :=
    UInt32.toNat_ofNat_of_lt' (wordAt_lt inside)
  have line : lineOffset data < 2 ^ 32 := wordAt_lt (by omega)
  have line' : lineSize data < 2 ^ 32 := wordAt_lt (by omega)
  rw [deserializeBootArgs, rejectIf_of_not _ (by rw [headerSize]; omega), bind_ok,
    readU32Le_of_le small (by omega), bind_ok, magic, UInt32.ofNat_toNat,
    rejectIf_of_not _ (not_not.mpr rfl), bind_ok,
    readU32Le_of_le small (by omega), bind_ok, readU64Le_of_le small (by omega), bind_ok,
    readU32Le_of_le small (by omega), bind_ok, readU32Le_of_le small (by omega), bind_ok,
    readU64Le_of_le small (by omega), bind_ok, readU64Le_of_le small (by omega), bind_ok,
    readU32Le_of_le small (by omega), bind_ok, readU32Le_of_le small (by omega), bind_ok,
    readU32Le_of_le small (by omega), bind_ok, readU32Le_of_le small (by omega), bind_ok,
    word (by omega), word (by omega), word (by omega), word (by omega), word (by omega),
    word (by omega), ← lineOffset, ← lineSize, add_of_lt (by omega)]
  rfl

end Reading

/-! ### What is lost -/

section Lost

variable (data : Bytes)

/-- A buffer that is refused before the sizes of the entries are added up. -/
def Refused : Prop :=
  data.length < 56 ∨ wordAt 4 data 0 ≠ bootArgsMagic.toNat ∨
    ∃ k < entriesIn data, 12 < kindAt data k

/-- The sizes of the entries in the data have a sum. -/
def SizesFit : Prop := ((List.range (entriesIn data)).map (sizeAt data)).sum < 2 ^ 64

/-- The command line or the device tree leaves the data. -/
def Outside : Prop :=
  data.length < lineOffset data + lineSize data ∨
    0 < treeSize data ∧ data.length < treeOffset data + treeSize data

/-- The declared memory map is a list of entries in the data. -/
def WholeMap : Prop := 20 ∣ mapSize data ∧ mapOffset data + mapSize data ≤ data.length

/-- The buffer is read without an overflow, and with all its entries where it is accepted. -/
structure KeepsEntries : Prop where
  returns : deserializeBootArgs data ≠ .panic
  whole : ∀ args, deserializeBootArgs data = .ok args →
    WholeMap data ∧
      args.memoryMap.entries.map MemoryEntry.words =
        (List.range (mapSize data / 20)).map (wireEntry data) ∧
      args.memoryMap.totalSize.toNat = (args.memoryMap.entries.map (·.size.toNat)).sum

end Lost

section Verdict

variable {data : Bytes}

theorem keepsEntries_of_err {e : CoreError} (failed : deserializeBootArgs data = .err e) :
    KeepsEntries data where
  returns := by simp [failed]
  whole := by simp [failed]

/-- The sum of the entries that are read, from their words. -/
theorem sum_of_words {entries : List MemoryEntry} {n : Nat}
    (words : entries.map MemoryEntry.words = (List.range n).map (wireEntry data)) :
    (entries.map (·.size.toNat)).sum = ((List.range n).map (sizeAt data)).sum := by
  have sizes := congrArg (List.map (·.2.1)) words
  rw [List.map_map, List.map_map] at sizes
  exact congrArg List.sum sizes

theorem readDeviceTree_cases {offset size : Nat} (word : offset + size < 2 ^ 64) :
    (∃ tree, readDeviceTree data offset size = .ok tree) ∧
        ¬ (0 < size ∧ data.length < offset + size) ∨
      (∃ e, readDeviceTree data offset size = .err e) ∧
        0 < size ∧ data.length < offset + size := by
  rw [readDeviceTree]
  by_cases positive : size > 0
  · rw [if_pos positive, add_of_lt word, bind_ok]
    by_cases beyond : offset + size > data.length
    · rw [rejectIf_of _ beyond, bind_err]
      exact .inr ⟨⟨_, rfl⟩, positive, beyond⟩
    · rw [rejectIf_of_not _ beyond, bind_ok, index_of_le (by omega) (by omega), bind_ok]
      exact .inl ⟨⟨_, rfl⟩, fun both => beyond both.2⟩
  · rw [if_neg positive]
    exact .inl ⟨⟨_, rfl⟩, fun both => positive both.1⟩

theorem mapCount_lt (header : 56 ≤ data.length) : 0 + mapSize data / 20 < 2 ^ 32 := by
  have word : mapSize data < 2 ^ 32 := wordAt_lt (by omega)
  omega

/-- A refused buffer ends in an error. -/
theorem err_of_refused (small : data.length < 2 ^ 63) (refused : Refused data) :
    ∃ e, deserializeBootArgs data = .err e := by
  by_cases header : data.length < headerSize
  · exact ⟨_, by rw [deserializeBootArgs, rejectIf_of _ header, bind_err]⟩
  have long : 56 ≤ data.length := Nat.le_of_not_lt header
  by_cases magic : wordAt 4 data 0 = bootArgsMagic.toNat
  · rw [deserialize_eq small long magic]
    rcases readEntries_cases small long (mapCount_lt long) with
      ⟨entries, _, kinds, _⟩ | ⟨⟨e, failed⟩, _⟩
    · obtain ⟨k, below, unknown⟩ :=
        (refused.resolve_left (Nat.not_lt.mpr long)).resolve_left (not_not.mpr magic)
      rw [entriesIn] at below
      exact absurd (kinds k (Nat.zero_le k) (by omega) (by omega)) (Nat.not_le.mpr unknown)
    · exact ⟨e, by rw [failed, bind_err]⟩
  · have differs : UInt32.ofNat (wordAt 4 data 0) ≠ bootArgsMagic := by
      intro same
      rw [← UInt32.toNat_inj, UInt32.toNat_ofNat_of_lt' (wordAt_lt (by omega))] at same
      exact magic same
    rw [deserializeBootArgs, rejectIf_of_not _ header, bind_ok,
      readU32Le_of_le small (by omega), bind_ok, rejectIf_of _ differs, bind_err]
    exact ⟨_, rfl⟩

/-- Any other buffer has its entries read as far as they lie in it. -/
theorem entries_of_not_refused (small : data.length < 2 ^ 63) (taken : ¬ Refused data) :
    56 ≤ data.length ∧ wordAt 4 data 0 = bootArgsMagic.toNat ∧
      ∃ entries, readEntries data (mapOffset data) 0 (mapSize data / 20) = .ok entries ∧
        entries.map MemoryEntry.words = (List.range (entriesIn data)).map (wireEntry data) := by
  simp only [Refused, not_or, Nat.not_lt, not_not, not_exists, not_and] at taken
  obtain ⟨header, magic, known⟩ := taken
  refine ⟨header, magic, ?_⟩
  rcases readEntries_cases small header (mapCount_lt header) with
    ⟨entries, read, _, words⟩ | ⟨_, k, _, below, room, unknown⟩
  · refine ⟨entries, read, ?_⟩
    rw [words, entriesIn, List.range_eq_range', Nat.sub_zero]
  · have inside : k < entriesIn data := by
      rw [entriesIn]
      omega
    exact absurd unknown (Nat.not_lt.mpr (known k inside))

/-- A whole memory map lies in the data with all its entries. -/
theorem WholeMap.entriesIn_eq (whole : WholeMap data) : entriesIn data = mapSize data / 20 := by
  obtain ⟨multiple, inside⟩ := whole
  rw [entriesIn, roomFor]
  omega

/-- A buffer keeps its entries exactly where it is refused for another reason, or its memory map is
a list of entries in the data whose sizes have a sum. -/
theorem deserialize_keeps_iff (small : data.length < 2 ^ 63) :
    KeepsEntries data ↔ Refused data ∨ SizesFit data ∧ (Outside data ∨ WholeMap data) := by
  by_cases refused : Refused data
  · obtain ⟨e, failed⟩ := err_of_refused small refused
    exact iff_of_true (keepsEntries_of_err failed) (.inl refused)
  rw [or_iff_right refused]
  obtain ⟨header, magic, entries, read, words⟩ := entries_of_not_refused small refused
  have sum := sum_of_words words
  have parsed := deserialize_eq small header magic
  rw [read, bind_ok] at parsed
  by_cases fits : SizesFit data
  · rw [and_iff_right fits]
    rw [SizesFit, ← sum] at fits
    rw [sumFrom_of_lt (by omega), bind_ok, Nat.zero_add] at parsed
    have line : lineOffset data < 2 ^ 32 := wordAt_lt (by omega)
    have tree : treeOffset data < 2 ^ 32 := wordAt_lt (by omega)
    have tree' : treeSize data < 2 ^ 32 := wordAt_lt (by omega)
    by_cases beyond : lineOffset data + lineSize data > data.length
    · rw [rejectIf_of _ beyond, bind_err] at parsed
      exact iff_of_true (keepsEntries_of_err parsed) (.inl (.inl beyond))
    rw [rejectIf_of_not _ beyond, bind_ok,
      index_of_le (Nat.le_add_right _ _) (Nat.not_lt.mp beyond), bind_ok] at parsed
    have sum' : treeOffset data + treeSize data < 2 ^ 64 := by omega
    rcases readDeviceTree_cases sum' with
      ⟨⟨deviceTree, found⟩, inside⟩ | ⟨⟨e, failed⟩, outside⟩
    · rw [found, bind_ok] at parsed
      have within : ¬ Outside data := fun outside => outside.elim beyond inside
      rw [or_iff_right within]
      constructor
      · intro keeps
        exact (keeps.whole _ parsed).1
      · intro whole
        refine ⟨by simp [parsed], fun args returned => ?_⟩
        cases parsed.symm.trans returned
        rw [whole.entriesIn_eq] at words
        exact ⟨whole, words, UInt64.toNat_ofNat_of_lt' fits⟩
    · rw [failed, bind_err] at parsed
      exact iff_of_true (keepsEntries_of_err parsed) (.inl (.inr outside))
  · have passes : ¬ 0 + (entries.map (·.size.toNat)).sum < 2 ^ 64 := by
      rwa [Nat.zero_add, sum]
    rw [sumFrom_of_not_lt (by decide) passes, bind_panic] at parsed
    exact iff_of_false (fun keeps => keeps.returns parsed) fun both => fits both.1

end Verdict

/-- A header that declares `size` bytes of memory map at `offset`, with no command line and no
device tree, and what follows it. -/
def mapHeader (offset size : Nat) (rest : Bytes) : Bytes :=
  packWords [(4, bootArgsMagic.toNat), (4, 1), (8, 0), (4, offset), (4, size), (8, 0), (8, 0),
    (4, 0), (4, 0), (4, 0), (4, 0)] ++ rest

/-- A header that declares an entry which is not there is accepted with no entries, and one whose
entries have no sum is not returned from. -/
theorem deserialize_loses_entries :
    deserializeBootArgs (mapHeader 56 20 []) =
        .ok ⟨bootArgsMagic, 1, 0, ⟨[], 0⟩, 0, 0, "", none⟩ ∧
      ¬ KeepsEntries (mapHeader 56 20 []) ∧
        ¬ KeepsEntries (mapHeader 56 40 (packWords [(8, 0), (8, 2 ^ 63), (4, 7), (8, 0),
          (8, 2 ^ 63), (4, 7)])) := by
  have accepted : deserializeBootArgs (mapHeader 56 20 []) =
      .ok ⟨bootArgsMagic, 1, 0, ⟨[], 0⟩, 0, 0, "", none⟩ := by decide +kernel
  have panics : deserializeBootArgs (mapHeader 56 40 (packWords [(8, 0), (8, 2 ^ 63), (4, 7),
      (8, 0), (8, 2 ^ 63), (4, 7)])) = .panic := by decide +kernel
  refine ⟨accepted, fun keeps => ?_, fun keeps => keeps.returns panics⟩
  have inside := (keeps.whole _ accepted).1.2
  revert inside
  decide +kernel

/-- A map of one entry, which is there. -/
theorem deserialize_keeps_iff_sample :
    KeepsEntries (mapHeader 56 20 (packWords [(8, 0x1000), (8, 0x9000), (4, 7)])) := by
  refine (deserialize_keeps_iff (by decide)).mpr (.inr ⟨?_, .inr ⟨?_, ?_⟩⟩)
  · rw [SizesFit]
    decide +kernel
  · decide +kernel
  · decide +kernel

end Nextcore.BootHandoff
