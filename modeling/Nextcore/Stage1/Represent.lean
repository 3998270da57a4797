import Nextcore.Lib.Radix
import Nextcore.Stage1.Tables

/-!
What the bytes of the tables stand for.

The `n`-th page of the byte string is the `n`-th table of a radix forest of depth three, and
each of its slots encodes what the forest has there (`Represents`). One turn of the loop of
`mapPage` goes one level down in that forest (`descend_yields`), making a table if there is
none, and `mapPage` as a whole puts one value into it (`mapPage_yields`); both return exactly
when the new tables have room, and the leaf slot is free.
-/

namespace Nextcore.Stage1

open Checked Checked.Outcome Radix Arm64Stage1Tables

theorem and_pageSize {x : Nat} : x &&& (pageSize - 1) = 0 ↔ pageSize ∣ x :=
  and_two_pow_sub_one_eq_zero (k := 14)

/-- The slot that an address selects at one level. -/
def slotIndex (va shift : Nat) : Nat := (va >>> shift) % 2048

/-- The path to the leaf of an address, from one of the two root tables. -/
def leafPath (root va : Nat) : List Nat :=
  [slotIndex va 14, slotIndex va 25, slotIndex va 36, root]

/-- The descriptor for what a slot holds. -/
def encode (tableBase : Nat) : Entry Nat → Nat
  | .absent => 0
  | .table n => tableBase + n * pageSize + 3
  | .leaf pa => pa + 0x403

/-- The tables fit their bound, and the physical address space. -/
def Room (tableBase : Nat) (f : Forest Nat Nat) : Prop :=
  f.tables.length * pageSize ≤ maxTableBytes ∧
    tableBase + f.tables.length * pageSize ≤ paEnd

instance (tableBase : Nat) (f : Forest Nat Nat) : Decidable (Room tableBase f) :=
  inferInstanceAs (Decidable (_ ∧ _))

/-- The slots of the listed tables hold the given entries. -/
def SlotsHold (bytes : Bytes) (tableBase : Nat) (tables : List (List Nat))
    (entry : List Nat → Entry Nat) : Prop :=
  ∀ n k, tables[n]? = some k → ∀ i < 2048,
    fromLeBytes (window bytes (n * pageSize + i * 8) 8) = encode tableBase (entry (i :: k))

/-- The bytes stand for a forest. -/
structure Represents (t : Arm64Stage1Tables) (f : Forest Nat Nat) : Prop where
  length : t.bytes.length = f.tables.length * pageSize
  room : Room t.tableBase f
  aligned : pageSize ∣ t.tableBase
  closed : f.Closed 3
  low : f.tables[0]? = some [0]
  high : f.tables[1]? = some [1]
  roots : ∀ r, [r] ∈ f.tables → r < 2
  indices : ∀ i k, i :: k ∈ f.tables → k ≠ [] → i < 2048
  pages : ∀ k pa, (k, pa) ∈ f.leaves → pageSize ∣ pa ∧ pa < paEnd
  slots : SlotsHold t.bytes t.tableBase f.tables f.entry

theorem slotIndex_lt (va shift : Nat) : slotIndex va shift < 2048 :=
  Nat.mod_lt _ (by decide)

theorem writeSlot {bytes : Bytes} {slot : Nat} (value : Nat) (fits : slot + 8 ≤ bytes.length) :
    (copyFrom bytes slot (slot + 8) (toLeBytes 8 value) : Outcome Error Bytes) =
      .ok (overlay bytes slot (toLeBytes 8 value)) := by
  refine copyFrom_eq_ok.mpr ⟨⟨Nat.le_add_right _ _, fits, ?_⟩, rfl⟩
  rw [length_toLeBytes, Nat.add_sub_cancel_left]

section Slots

variable {bytes : Bytes} {tableBase n i : Nat} {k : List Nat} {tables : List (List Nat)}
  {entry entry' : List Nat → Entry Nat} {e : Entry Nat}

/-- A slot of a table ends inside the table. -/
theorem slot_fits (there : tables[n]? = some k) (below : i < 2048) :
    n * pageSize + i * 8 + 8 ≤ tables.length * pageSize := by
  obtain ⟨inside, _⟩ := List.getElem?_eq_some_iff.mp there
  have next : (n + 1) * pageSize ≤ tables.length * pageSize := Nat.mul_le_mul_right _ inside
  simp only [pageSize] at next ⊢
  omega

/-- A new page of zeros is a table with nothing in it. -/
theorem SlotsHold.grow (hold : SlotsHold bytes tableBase tables entry)
    (length : bytes.length = tables.length * pageSize) (vacant : ∀ i, entry (i :: k) = .absent) :
    SlotsHold (bytes ++ List.replicate pageSize 0) tableBase (tables ++ [k]) entry := by
  intro n k' there i below
  rw [List.getElem?_append] at there
  split at there
  · rw [window_append_of_le]
    · exact hold n k' there i below
    · rw [length]
      exact slot_fits there below
  · -- The page behind the others.
    rename_i past
    obtain ⟨at_zero, rfl⟩ := List.getElem?_eq_some_iff.mp there
    rw [List.length_singleton] at at_zero
    obtain rfl : n = tables.length := by omega
    simp only [Nat.sub_self, List.getElem_singleton]
    rw [vacant, window_append_of_ge (by omega), length, Nat.add_sub_cancel_left,
      window_replicate (by simp only [pageSize]; omega), encode, fromLeBytes_eq_zero]
    exact fun b mem => List.eq_of_mem_replicate mem

/-- Writing one slot leaves every other slot as it was. -/
theorem SlotsHold.write (hold : SlotsHold bytes tableBase tables entry)
    (length : bytes.length = tables.length * pageSize) (distinct : tables.Nodup)
    (there : tables[n]? = some k) (below : i < 2048) (word : encode tableBase e < 2 ^ 64)
    (changed : ∀ k', entry' k' = if k' = i :: k then e else entry k') :
    SlotsHold (overlay bytes (n * pageSize + i * 8) (toLeBytes 8 (encode tableBase e)))
      tableBase tables entry' := by
  intro m k' there' j below'
  have src : (toLeBytes 8 (encode tableBase e)).length = 8 := length_toLeBytes ..
  rw [changed]
  by_cases same : j :: k' = i :: k
  · cases same
    obtain ⟨inside, eq⟩ := List.getElem?_eq_some_iff.mp there
    obtain ⟨inside', eq'⟩ := List.getElem?_eq_some_iff.mp there'
    obtain rfl : m = n := distinct.getElem_inj_iff.mp (eq'.trans eq.symm)
    have fits := slot_fits there below
    have written := @window_overlay_self bytes (toLeBytes 8 (encode tableBase e))
      (m * pageSize + i * 8) (by omega)
    rw [src] at written
    rw [if_pos rfl, written, fromLeBytes_toLeBytes (by omega)]
  · rw [if_neg same, window_overlay_of_apart]
    · exact hold m k' there' j below'
    · -- Two slots are apart unless both their tables and their places in them are the same.
      have ne : m ≠ n ∨ j ≠ i := by
        by_contra both
        simp only [not_or, not_not] at both
        obtain ⟨rfl, rfl⟩ := both
        rw [there] at there'
        cases there'
        exact same rfl
      rw [src]
      simp only [pageSize]
      omega

end Slots

section Steps

variable {t : Arm64Stage1Tables} {f : Forest Nat Nat} {n va shift : Nat} {k : List Nat}

theorem Represents.tables_le (rep : Represents t f) : t.bytes.length ≤ maxTableBytes := by
  rw [rep.length]
  exact rep.room.1

/-- A slot with a leaf holds the listed page. -/
theorem Represents.page_of_leaf (rep : Represents t f) {pa : Nat} (holds : f.entry k = .leaf pa) :
    pageSize ∣ pa ∧ pa < paEnd :=
  rep.pages k pa ((Forest.leafAt_eq_some rep.closed.unique).mp (Forest.leafAt_of_entry holds))

/-- The slot of an address in a table. -/
theorem Represents.slotOf_eq (rep : Represents t f) (there : f.tables[n]? = some k) :
    slotOf (n * pageSize) va shift = .ok (n * pageSize + slotIndex va shift * 8) := by
  have fits := slot_fits there (slotIndex_lt va shift)
  have small := rep.room.1
  have low := slotIndex_lt va shift
  simp only [maxTableBytes] at small
  have masked : (va >>> shift) &&& 0x7ff = slotIndex va shift :=
    Nat.and_two_pow_sub_one_eq_mod _ 11
  rw [slotOf, masked, mul_of_lt (by omega), bind_ok, add_of_lt (by omega)]

/-- The end of the slot, and the descriptor in it. -/
theorem Represents.readSlot (rep : Represents t f) (there : f.tables[n]? = some k)
    {i : Nat} (below : i < 2048) :
    (add (n * pageSize + i * 8) 8 : Outcome Error Nat) = .ok (n * pageSize + i * 8 + 8) ∧
      (index t.bytes (n * pageSize + i * 8) (n * pageSize + i * 8 + 8) : Outcome Error Bytes) =
        .ok (window t.bytes (n * pageSize + i * 8) 8) := by
  have fits := slot_fits there below
  have small := rep.room.1
  simp only [maxTableBytes] at small
  refine ⟨add_of_lt (by omega), ?_⟩
  rw [index_of_le (Nat.le_add_right _ _) (by rw [rep.length]; exact fits), Nat.add_sub_cancel_left]

/-- A page behind the others is made exactly when there is room for it. -/
theorem allocateTable_yields (t : Arm64Stage1Tables) (small : t.bytes.length ≤ maxTableBytes) :
    Yields (t.bytes.length + pageSize ≤ maxTableBytes ∧
        t.tableBase + (t.bytes.length + pageSize) ≤ paEnd)
      (fun out => out = (t.bytes.length,
        { t with bytes := t.bytes ++ List.replicate pageSize 0 })) t.allocateTable := by
  have page : pageSize = 16384 := rfl
  have bound : maxTableBytes = 2097152 := rfl
  have grown : resize t.bytes (t.bytes.length + pageSize) =
      t.bytes ++ List.replicate pageSize 0 := by
    rw [resize_of_le (Nat.le_add_right _ _), Nat.add_sub_cancel_left]
  have wraps : ((checkedAdd t.tableBase (t.bytes.length + pageSize)).all
      fun address => paEnd < address) = true ↔
      paEnd < t.tableBase + (t.bytes.length + pageSize) := by
    unfold checkedAdd
    split
    · simp
    · simp only [paEnd, Option.all_none, true_iff]
      omega
  simp only [Arm64Stage1Tables.allocateTable]
  refine .after_ok (ofOption_eq_ok.mpr (checkedAdd_of_lt (by omega))) ?_
  rw [grown]
  refine Yields.congr ?_ ((yields_rejectIf _).bind (q := ¬ _ ∧ True) fun _ _ _ =>
    (yields_rejectIf _).bind fun _ _ _ => yields_ok rfl)
  rw [and_true, wraps, Nat.not_lt, Nat.not_lt]

theorem allocateTable_of_room {t : Arm64Stage1Tables}
    (fits : t.bytes.length + pageSize ≤ maxTableBytes)
    (below : t.tableBase + (t.bytes.length + pageSize) ≤ paEnd) :
    t.allocateTable = .ok (t.bytes.length,
      { t with bytes := t.bytes ++ List.replicate pageSize 0 }) := by
  obtain ⟨out, returned, rfl⟩ := (allocateTable_yields t (by omega)).1 ⟨fits, below⟩
  exact returned

/-- The room for one more table. -/
theorem Represents.room_addTable (rep : Represents t f) (k : List Nat) :
    t.bytes.length + pageSize ≤ maxTableBytes ∧
        t.tableBase + (t.bytes.length + pageSize) ≤ paEnd ↔
      Room t.tableBase (f.addTable k) := by
  rw [Room, Forest.addTable_tables, List.length_append, List.length_singleton, Nat.succ_mul,
    rep.length]

/-- The address bits of a descriptor. -/
theorem and_addressMask {x y : Nat} (page : pageSize ∣ x) (low : y < pageSize)
    (small : x + y < paEnd) : (x + y) &&& addressMask = x := by
  obtain ⟨a, rfl⟩ := page
  have mask : addressMask = (2 ^ 34 - 1) <<< 14 := by decide
  rw [mask, and_run (show pageSize * a + y < 2 ^ (14 + 34) from small), roundDown,
    show (2 : Nat) ^ 14 = pageSize from rfl, Nat.mul_add_div (by decide), Nat.div_eq_of_lt low,
    Nat.add_zero, Nat.mul_comm]

/-- The guest address of a table is a page in the physical address space. -/
theorem Represents.tableAddress (rep : Represents t f) (there : f.tables[n]? = some k) :
    pageSize ∣ t.tableBase + n * pageSize ∧
      t.tableBase + n * pageSize + pageSize ≤ paEnd := by
  obtain ⟨inside, _⟩ := List.getElem?_eq_some_iff.mp there
  have next : (n + 1) * pageSize ≤ f.tables.length * pageSize := Nat.mul_le_mul_right _ inside
  have below := rep.room.2
  rw [Nat.succ_mul] at next
  exact ⟨Nat.dvd_add rep.aligned (Nat.dvd_mul_left _ _), by omega⟩

/-- The address in the descriptor of a table. -/
theorem Represents.and_encode_table (rep : Represents t f) (there : f.tables[n]? = some k) :
    encode t.tableBase (.table n) &&& addressMask = t.tableBase + n * pageSize := by
  obtain ⟨multiple, below⟩ := rep.tableAddress there
  have page : pageSize = 16384 := rfl
  rw [encode, and_addressMask multiple (by omega) (by omega)]

theorem Represents.ne_nil (rep : Represents t f) (there : f.tables[n]? = some k) : k ≠ [] :=
  List.length_pos_iff.mp (rep.closed.shallow k (List.mem_of_getElem? there)).1

/-- A new table, and the descriptor that leads to it. -/
theorem Represents.makeTable {i : Nat} (rep : Represents t f) (there : f.tables[n]? = some k)
    (below : i < 2048) (new : i :: k ∉ f.tables) (upper : k.length < 3)
    (room : Room t.tableBase (f.addTable (i :: k))) :
    Represents
      { t with
        bytes := overlay (t.bytes ++ List.replicate pageSize 0) (n * pageSize + i * 8)
          (toLeBytes 8 (encode t.tableBase (.table f.tables.length))) }
      (f.addTable (i :: k)) where
  length := by
    rw [length_overlay, List.length_append, List.length_replicate, rep.length,
      Forest.addTable_tables, List.length_append, List.length_singleton, Nat.succ_mul]
  room := room
  aligned := rep.aligned
  closed := rep.closed.addTable (List.mem_of_getElem? there) new upper
  low := by
    obtain ⟨inside, _⟩ := List.getElem?_eq_some_iff.mp rep.low
    rw [Forest.addTable_tables, List.getElem?_append_left inside, rep.low]
  high := by
    obtain ⟨inside, _⟩ := List.getElem?_eq_some_iff.mp rep.high
    rw [Forest.addTable_tables, List.getElem?_append_left inside, rep.high]
  roots := by
    intro r mem
    rw [Forest.addTable_tables, List.mem_append, List.mem_singleton] at mem
    rcases mem with old | eq
    · exact rep.roots r old
    · cases eq
      exact absurd rfl (rep.ne_nil there)
  indices := by
    intro j k' mem proper
    rw [Forest.addTable_tables, List.mem_append, List.mem_singleton] at mem
    rcases mem with old | eq
    · exact rep.indices j k' old proper
    · cases eq
      exact below
  pages := rep.pages
  slots := by
    have grown := rep.slots.grow rep.length
      (fun j => rep.closed.entry_below (i := j) (List.cons_ne_nil i k) new)
    have closed := rep.closed.addTable (List.mem_of_getElem? there) new upper
    obtain ⟨inside, _⟩ := List.getElem?_eq_some_iff.mp there
    refine grown.write ?_ closed.distinct ?_ below ?_ fun k' => Forest.entry_addTable new
    · rw [List.length_append, List.length_replicate, rep.length, List.length_append,
        List.length_singleton, Nat.succ_mul]
    · rw [List.getElem?_append_left inside, there]
    · have last := room.2
      rw [Forest.addTable_tables, List.length_append, List.length_singleton] at last
      simp only [paEnd, pageSize] at last
      simp only [encode, pageSize]
      omega

/-- One level down: the table that the slot leads to, made exactly when it has room. -/
theorem descend_yields (rep : Represents t f) (there : f.tables[n]? = some k)
    (upper : k.length < 3) (va shift : Nat) :
    Yields (Room t.tableBase (f.descend (slotIndex va shift :: k)))
      (fun out => ∃ m, (f.descend (slotIndex va shift :: k)).tables[m]? =
          some (slotIndex va shift :: k) ∧ out.1 = m * pageSize ∧
        out.2 = { t with bytes := out.2.bytes } ∧
        Represents out.2 (f.descend (slotIndex va shift :: k)))
      (Arm64Stage1Tables.descend va (n * pageSize, t) shift) := by
  have below := slotIndex_lt va shift
  obtain ⟨stop_eq, read⟩ := rep.readSlot there below
  have holds := rep.slots n k there _ below
  simp only [Arm64Stage1Tables.descend, rep.slotOf_eq there, bind_ok, stop_eq, read, holds]
  by_cases mem : slotIndex va shift :: k ∈ f.tables
  · -- The slot leads to a table that is there.
    have at_m := List.getElem?_idxOf mem
    have same : f.descend (slotIndex va shift :: k) = f := if_pos mem
    rw [Forest.entry_of_mem mem, rep.and_encode_table at_m, if_neg (by rw [encode]; omega),
      sub_of_le (Nat.le_add_right _ _), Nat.add_sub_cancel_left, same]
    refine ⟨fun _ => ⟨_, rfl, _, at_m, rfl, rfl, rep⟩, fun _ _ => rep.room⟩
  · -- The slot is zero, and a table is made for it.
    have made : f.descend (slotIndex va shift :: k) = f.addTable (slotIndex va shift :: k) :=
      if_neg mem
    have vacant : f.entry (slotIndex va shift :: k) = .absent :=
      Forest.entry_eq_absent.mpr
        ⟨mem, rep.closed.leafAt_of_length (by rw [List.length_cons]; omega)⟩
    rw [vacant, encode, if_pos rfl, made]
    refine Yields.congr (p := _ ∧ True) (iff_of_eq (and_true _))
      (((allocateTable_yields t rep.tables_le).congr (rep.room_addTable _)).bind
        fun room out eq => ?_)
    rw [rep.length] at eq
    subst eq
    have last := room.2
    rw [Forest.addTable_tables, List.length_append, List.length_singleton, Nat.succ_mul] at last
    simp only [paEnd] at last
    have page : pageSize = 16384 := rfl
    have address : (t.tableBase + f.tables.length * pageSize) ||| 3 =
        encode t.tableBase (.table f.tables.length) :=
      or_eq_add (k := 14) (Nat.dvd_add rep.aligned (Nat.dvd_mul_left _ _)) (by decide)
    have fits := slot_fits there below
    refine .after_ok (add_of_lt (by dsimp only; omega)) ?_
    rw [address]
    refine .after_ok (writeSlot _ ?_) (yields_ok ?_)
    · rw [List.length_append, rep.length]
      omega
    refine ⟨f.tables.length, ?_, rfl, rfl, rep.makeTable there below mem upper room⟩
    rw [Forest.addTable_tables, List.getElem?_append_right (Nat.le_refl _), Nat.sub_self]
    rfl

/-- The descriptor of a page. -/
theorem or_eq_encode_leaf {pa : Nat} (page : pageSize ∣ pa) (tableBase : Nat) :
    pa ||| 0x403 = encode tableBase (.leaf pa) :=
  or_eq_add (k := 14) page (by decide)

/-- Below the lowest tables there are none. -/
theorem Represents.leaf_notMem (rep : Represents t f) (i : Nat) (last : k.length = 3) :
    i :: k ∉ f.tables := by
  intro mem
  have shallow := (rep.closed.shallow _ mem).2
  rw [List.length_cons] at shallow
  omega

/-- A value in a slot that is zero. -/
theorem Represents.placeLeaf {i pa : Nat} (rep : Represents t f) (there : f.tables[n]? = some k)
    (below : i < 2048) (last : k.length = 3) (free : f.leafAt (i :: k) = none)
    (page : pageSize ∣ pa) (small : pa < paEnd) :
    Represents
      { t with
        bytes := overlay t.bytes (n * pageSize + i * 8)
          (toLeBytes 8 (encode t.tableBase (.leaf pa))) }
      (f.addLeaf (i :: k) pa) where
  length := by rw [length_overlay, rep.length, Forest.addLeaf_tables]
  room := rep.room
  aligned := rep.aligned
  closed := rep.closed.addLeaf (List.mem_of_getElem? there) free last
  low := rep.low
  high := rep.high
  roots := rep.roots
  indices := rep.indices
  pages := by
    intro k' pa' mem
    rw [Forest.addLeaf_leaves, List.mem_append, List.mem_singleton] at mem
    rcases mem with old | eq
    · exact rep.pages k' pa' old
    · cases eq
      exact ⟨page, small⟩
  slots := by
    have new := rep.leaf_notMem i last
    refine rep.slots.write rep.length rep.closed.distinct there below ?_ fun k' =>
      Forest.entry_addLeaf (Forest.entry_eq_absent.mpr ⟨new, free⟩)
    simp only [paEnd] at small
    rw [encode]
    omega

/-- A leaf for an address, with every table on the way. -/
def mapLeaf (f : Forest Nat Nat) (root va pa : Nat) : Forest Nat Nat :=
  f.insert [root] [slotIndex va 36, slotIndex va 25] (slotIndex va 14) pa

@[simp] theorem mapLeaf_leaves (f : Forest Nat Nat) (root va pa : Nat) :
    (mapLeaf f root va pa).leaves = f.leaves ++ [(leafPath root va, pa)] :=
  Forest.insert_leaves ..

/-- The end of `mapPage`: a leaf is written exactly where its slot is free. -/
theorem writeLeaf_yields (va : Nat) {pa : Nat} (rep : Represents t f)
    (there : f.tables[n]? = some k)
    (last : k.length = 3) (page : pageSize ∣ pa) (small : pa < paEnd) :
    Yields (f.leafAt (slotIndex va 14 :: k) = none)
      (fun t' => t' = { t with bytes := t'.bytes } ∧
        Represents t' (f.addLeaf (slotIndex va 14 :: k) pa))
      (do
        let slot ← slotOf (n * pageSize) va 14
        let stop ← add slot 8
        let leaf ← index t.bytes slot stop
        rejectIf (leaf.any (· != 0)) .overlappingRange
        let bytes ← copyFrom t.bytes slot stop (toLeBytes 8 (pa ||| 0x403))
        pure { t with bytes }) := by
  have below := slotIndex_lt va 14
  obtain ⟨stop_eq, read⟩ := rep.readSlot there below
  have holds := rep.slots n k there _ below
  simp only [rep.slotOf_eq there, bind_ok, stop_eq, read, or_eq_encode_leaf page t.tableBase]
  -- A slot of the lowest level is zero exactly when it has no leaf.
  have new := rep.leaf_notMem (slotIndex va 14) last
  have free : ¬ (window t.bytes (n * pageSize + slotIndex va 14 * 8) 8).any (· != 0) = true ↔
      f.leafAt (slotIndex va 14 :: k) = none := by
    have zero : ¬ (window t.bytes (n * pageSize + slotIndex va 14 * 8) 8).any (· != 0) = true ↔
        encode t.tableBase (f.entry (slotIndex va 14 :: k)) = 0 := by
      rw [← holds, fromLeBytes_eq_zero]
      simp
    rw [zero, Forest.entry_of_notMem new]
    cases f.leafAt (slotIndex va 14 :: k) <;> simp [encode]
  refine Yields.congr (p := _ ∧ True) ((iff_of_eq (and_true _)).trans free)
    ((yields_rejectIf _).bind fun clear _ _ => ?_)
  have fits := slot_fits there below
  refine .after_ok (writeSlot _ (by rw [rep.length]; exact fits)) (yields_ok ⟨rfl, ?_⟩)
  exact rep.placeLeaf there below last (free.mp clear) page small

/-- A page is mapped exactly when the tables on the way have room and its slot is free. -/
theorem mapPage_yields (rep : Represents t f) {root pa : Nat}
    (there : f.tables[root]? = some [root]) (page : pageSize ∣ pa) (small : pa < paEnd) :
    Yields (Room t.tableBase (mapLeaf f root va pa) ∧ f.leafAt (leafPath root va) = none)
      (fun t' => t' = { t with bytes := t'.bytes } ∧ Represents t' (mapLeaf f root va pa))
      (t.mapPage (root * pageSize) va pa) := by
  simp only [mapPage, List.foldlM_cons, List.foldlM_nil, bind_assoc, pure_eq, bind_ok]
  have upper := descend_yields rep there (by simp) va 36
  refine Yields.congr ?_ (upper.bind (q := Room t.tableBase (mapLeaf f root va pa) ∧
    f.leafAt (leafPath root va) = none) fun _ out known => ?_)
  · -- The first table needs no more room than all of them.
    refine and_iff_right_of_imp fun fits => ?_
    have le := Forest.length_descend_le (f.descend [slotIndex va 36, root])
      [slotIndex va 25, slotIndex va 36, root]
    have le' := Nat.mul_le_mul_right pageSize le
    exact ⟨le'.trans fits.1.1, (Nat.add_le_add_left le' _).trans fits.1.2⟩
  obtain ⟨table, t₁⟩ := out
  obtain ⟨m, at_m, table_eq, same₁, rep₁⟩ := known
  dsimp only at table_eq same₁ rep₁ ⊢
  subst table_eq
  have lower := descend_yields rep₁ at_m (by simp) va 25
  rw [show t₁.tableBase = t.tableBase by rw [same₁]] at lower
  refine lower.bind fun _ out known => ?_
  obtain ⟨table, t₂⟩ := out
  obtain ⟨l, at_l, table_eq, same₂, rep₂⟩ := known
  dsimp only at table_eq same₂ rep₂ ⊢
  subst table_eq
  have leaf := writeLeaf_yields va rep₂ at_l rfl page small
  rw [← Forest.leafAt_reach f [root] [slotIndex va 36, slotIndex va 25]]
  refine leaf.imp fun t₃ written => ?_
  obtain ⟨same₃, rep₃⟩ := written
  refine ⟨?_, rep₃⟩
  rw [same₃, same₂, same₁]

end Steps

end Nextcore.Stage1
