import Nextcore.Stage1.Build

/-!
What the tables translate.

The walk over the bytes is the walk over the forest that they stand for
(`Represents.walk_eq`), and a leaf of that forest is a page of one of the requests. So a walk
finds exactly the intended addresses: RAM at its own addresses, RAM at the linear ones, and
each alias (`tables_translate`). The tables that a walk can reach are exactly the pages that
are owned (`reachable_iff`), so the form of their descriptors is known in every slot.
-/

namespace Nextcore.Stage1

open Checked Checked.Outcome Radix Arm64Stage1Tables

/-! ### The walk -/

section Walk

variable {t : Arm64Stage1Tables} {f : Forest Nat Nat} {n i : Nat} {k : List Nat}

theorem Represents.descriptorAt_eq (rep : Represents t f) (there : f.tables[n]? = some k)
    (below : i < 2048) :
    t.descriptorAt (t.tableBase + n * pageSize) i =
      some (encode t.tableBase (f.entry (i :: k))) := by
  have fits := slot_fits there below
  have read : getRange t.bytes (n * pageSize + i * 8) (n * pageSize + i * 8 + 8) =
      some (window t.bytes (n * pageSize + i * 8) 8) := by
    refine getRange_eq_some.mpr ⟨⟨Nat.le_add_right _ _, by rw [rep.length]; exact fits⟩, ?_⟩
    rw [Nat.add_sub_cancel_left]
  have offset : checkedSub (t.tableBase + n * pageSize) t.tableBase = some (n * pageSize) :=
    checkedSub_eq_some.mpr ⟨Nat.le_add_right _ _, Nat.add_sub_cancel_left ..⟩
  simp only [descriptorAt, offset, Option.bind_eq_bind, Option.bind_some, read,
    rep.slots n k there i below, Option.pure_def]

theorem and_three {x : Nat} (page : pageSize ∣ x) : (x + 3) &&& 3 = 3 ∧ (x + 0x403) &&& 3 = 3 := by
  obtain ⟨a, rfl⟩ := page
  have low (y : Nat) : y &&& 3 = y % 4 := Nat.and_two_pow_sub_one_eq_mod y 2
  rw [low, low, pageSize]
  omega

/-- The walk over the bytes is the walk over the forest. -/
theorem Represents.walkFrom_eq (rep : Represents t f) (va : Nat) {shifts : List Nat}
    (there : f.tables[n]? = some k) (depth : k.length + shifts.length = 4) :
    t.walkFrom va (t.tableBase + n * pageSize) shifts =
      (f.walk k (shifts.map (slotIndex va))).map (· + va % 16384) := by
  induction shifts generalizing n k with
  | nil => rfl
  | cons shift rest ih =>
      rw [List.length_cons] at depth
      have at_slot : t.descriptorAt (t.tableBase + n * pageSize) ((va >>> shift) % 2048) =
          some (encode t.tableBase (f.entry (slotIndex va shift :: k))) :=
        rep.descriptorAt_eq there (slotIndex_lt va shift)
      simp only [walkFrom, at_slot, Option.bind_eq_bind, Option.bind_some]
      cases holds : f.entry (slotIndex va shift :: k) with
      | absent =>
          obtain ⟨new, free⟩ := Forest.entry_eq_absent.mp holds
          rw [encode, if_pos (by decide)]
          cases rest with
          | nil => simp [Forest.walk, free]
          | cons next rest => simp [Forest.walk, new]
      | table m =>
          have at_m := (Forest.entry_eq_table rep.closed.distinct).mp holds
          have low := (and_three (rep.tableAddress at_m).1).1
          have mem := List.mem_of_getElem? at_m
          rw [if_neg (by rw [encode, low]; simp), rep.and_encode_table at_m]
          cases rest with
          | nil => exact absurd mem (rep.leaf_notMem _ (by simpa using depth))
          | cons next rest =>
              rw [List.map_cons, List.map_cons, Forest.walk, if_pos mem]
              · exact ih at_m (by rw [List.length_cons]; omega)
              · simp
      | leaf pa =>
          obtain ⟨page, small⟩ := rep.page_of_leaf holds
          have placed := Forest.leafAt_of_entry holds
          have deep := rep.closed.length_of_leaf holds
          rw [List.length_cons] at deep
          obtain rfl : rest = [] := List.length_eq_zero_iff.mp (by omega)
          have masked : (pa + 0x403) &&& addressMask = pa :=
            and_addressMask page (by decide) (by
              obtain ⟨a, rfl⟩ := page
              simp only [pageSize, paEnd] at small ⊢
              omega)
          rw [encode, if_neg (by rw [(and_three page).2]; simp), masked]
          simp [Forest.walk, placed]

/-- An address leads to the leaf with its path, in the half that it belongs to. -/
theorem Represents.walk_eq (rep : Represents t f) (va : Nat) :
    t.walk va =
      if va / 2 ^ 47 = 0 then (f.leafAt (leafPath 0 va)).map (· + va % 16384)
      else if va / 2 ^ 47 = 0x1ffff then (f.leafAt (leafPath 1 va)).map (· + va % 16384)
      else none := by
  have from_root {root : Nat} (there : f.tables[root]? = some [root]) :
      t.walkFrom va (t.tableBase + root * pageSize) [36, 25, 14] =
        (f.leafAt (leafPath root va)).map (· + va % 16384) := by
    rw [rep.walkFrom_eq va there rfl, Forest.walk_eq rep.closed (by simp)]
    rfl
  rw [walk, Nat.shiftRight_eq_div_pow, ← from_root rep.low, ← from_root rep.high, ttbr0, ttbr1,
    Nat.zero_mul, Nat.add_zero, Nat.one_mul]

end Walk

/-! ### The intended map -/

/-- The address is in a range of the given size, at the same displacement in both spaces. -/
def Linear (virtualBase physicalBase size va pa : Nat) : Prop :=
  virtualBase ≤ va ∧ va < virtualBase + size ∧ pa = physicalBase + (va - virtualBase)

/-- RAM at its own addresses, at the linear ones, and at those of each alias. -/
def Intended (physicalBase virtualBase memorySize : Nat) (aliases : List Stage1Alias)
    (va pa : Nat) : Prop :=
  Linear physicalBase physicalBase memorySize va pa ∨
    Linear virtualBase physicalBase memorySize va pa ∨
    ∃ a ∈ aliases, Linear a.virtualBase a.physicalBase a.bytes va pa

/-- In one half of the address space, paths are told apart by their pages. -/
theorem leafPath_eq_iff {root va va' : Nat} (half : va / 2 ^ 47 = va' / 2 ^ 47) :
    leafPath root va = leafPath root va' ↔ va / pageSize = va' / pageSize := by
  simp only [leafPath, slotIndex, Nat.shiftRight_eq_div_pow, List.cons.injEq, and_true, pageSize]
  omega

/-- Some page of a range has the page number of an address exactly when the address is in the
range. -/
theorem exists_page_iff {root virtualBase physicalBase size va pa : Nat}
    (virtual : pageSize ∣ virtualBase) (sized : pageSize ∣ size) :
    (∃ r ∈ rangeRequests root virtualBase physicalBase size,
        va / pageSize = r.va / pageSize ∧ r.pa + va % pageSize = pa) ↔
      Linear virtualBase physicalBase size va pa := by
  simp only [rangeRequests, List.mem_map, exists_exists_and_eq_and,
    mem_stepBy (show 0 < pageSize by decide)]
  obtain ⟨v, rfl⟩ := virtual
  obtain ⟨s, rfl⟩ := sized
  simp only [pageSize, Linear]
  constructor
  · rintro ⟨o, ⟨⟨n, rfl⟩, below⟩, same, rfl⟩
    omega
  · rintro ⟨above, below, rfl⟩
    refine ⟨16384 * (va / 16384 - v), ⟨⟨_, rfl⟩, ?_⟩, ?_, ?_⟩ <;> omega

/-- The upper bits of the addresses that a root table serves. -/
def half (root : Nat) : Nat := if root = 0 then 0 else 0x1ffff

/-- A leaf of the forest is the page of a request. -/
theorem leafAt_mapAll {f : Forest Nat Nat} {requests : List Request} {k : List Nat} {pa : Nat}
    (empty : f.leaves = []) (unique : ((mapAll f requests).leaves.map Prod.fst).Nodup) :
    (mapAll f requests).leafAt k = some pa ↔
      ∃ r ∈ requests, leafPath r.root r.va = k ∧ r.pa = pa := by
  rw [Forest.leafAt_eq_some unique, mapAll_leaves, empty, List.nil_append, List.mem_map]
  simp only [Prod.mk.injEq]

/-- An address leads to the page that a request gave to its page number. -/
theorem walk_eq_some {t : Arm64Stage1Tables} {requests : List Request}
    (rep : Represents t (mapAll roots requests)) (placed : ∀ r ∈ requests, r.root < 2 ∧
      r.va / 2 ^ 47 = half r.root) (va pa : Nat) :
    t.walk va = some pa ↔
      ∃ r ∈ requests, va / pageSize = r.va / pageSize ∧ r.pa + va % pageSize = pa := by
  have unique := rep.closed.unique
  have in_half (root : Nat) (below : root < 2) (upper : va / 2 ^ 47 = half root) :
      ((mapAll roots requests).leafAt (leafPath root va)).map (· + va % 16384) = some pa ↔
        ∃ r ∈ requests, va / pageSize = r.va / pageSize ∧ r.pa + va % pageSize = pa := by
    simp only [Option.map_eq_some_iff, leafAt_mapAll rfl unique, pageSize]
    constructor
    · rintro ⟨page, ⟨r, mem, path, rfl⟩, rfl⟩
      obtain ⟨r_below, r_half⟩ := placed r mem
      have root_eq : r.root = root := by simpa [leafPath] using congrArg List.getLast? path
      rw [root_eq] at path r_half
      refine ⟨r, mem, ((leafPath_eq_iff (r_half.trans upper.symm)).mp path).symm, rfl⟩
    · rintro ⟨r, mem, same, rfl⟩
      obtain ⟨r_below, r_half⟩ := placed r mem
      -- Addresses with one page number are in one half.
      have halves : r.va / 2 ^ 47 = va / 2 ^ 47 := by omega
      have root_eq : r.root = root := by
        rw [halves, upper] at r_half
        unfold half at r_half
        split at r_half <;> split at r_half <;> omega
      refine ⟨r.pa, ⟨r, mem, ?_, rfl⟩, rfl⟩
      rw [root_eq]
      exact (leafPath_eq_iff halves).mpr same.symm
  rw [rep.walk_eq]
  split
  · exact in_half 0 (by decide) ‹_›
  · split
    · exact in_half 1 (by decide) ‹_›
    · -- Other addresses share no page number with any request.
      simp only [reduceCtorEq, false_iff, not_exists, not_and, pageSize]
      intro r mem same
      obtain ⟨r_below, r_half⟩ := placed r mem
      have halves : r.va / 2 ^ 47 = va / 2 ^ 47 := by omega
      unfold half at r_half
      split at r_half <;> omega

section Requests

variable {physicalBase virtualBase memorySize : Nat} {aliases : List Stage1Alias}

/-- The requests of a construction, range by range. -/
theorem mem_requests_iff {r : Request} :
    r ∈ ramRequests physicalBase virtualBase memorySize ++ aliasRequests aliases ↔
      r ∈ rangeRequests 0 physicalBase physicalBase memorySize ∨
        r ∈ rangeRequests 1 virtualBase physicalBase memorySize ∨
        ∃ a ∈ aliases, r ∈ rangeRequests 1 a.virtualBase a.physicalBase a.bytes := by
  simp only [ramRequests, aliasRequests, List.mem_append, List.mem_flatMap, List.mem_cons,
    List.not_mem_nil, or_false, and_or_left, exists_or, or_assoc]
  simp only [rangeRequests, List.mem_map, eq_comm]

theorem exists_request_iff {P : Request → Prop} :
    (∃ r ∈ ramRequests physicalBase virtualBase memorySize ++ aliasRequests aliases, P r) ↔
      (∃ r ∈ rangeRequests 0 physicalBase physicalBase memorySize, P r) ∨
        (∃ r ∈ rangeRequests 1 virtualBase physicalBase memorySize, P r) ∨
        ∃ a ∈ aliases, ∃ r ∈ rangeRequests 1 a.virtualBase a.physicalBase a.bytes, P r := by
  simp only [mem_requests_iff, or_and_right, exists_or]
  refine or_congr_right (or_congr_right ⟨?_, ?_⟩)
  · rintro ⟨r, ⟨a, a_mem, mem⟩, holds⟩
    exact ⟨a, a_mem, r, mem, holds⟩
  · rintro ⟨a, a_mem, r, mem, holds⟩
    exact ⟨r, ⟨a, a_mem, mem⟩, holds⟩

/-- Every request is for the root table that serves its address. -/
theorem requests_placed (ok : RamOk physicalBase virtualBase memorySize)
    (oks : ∀ a ∈ aliases, AliasOk physicalBase virtualBase memorySize a) :
    ∀ r ∈ ramRequests physicalBase virtualBase memorySize ++ aliasRequests aliases,
      r.root < 2 ∧ r.va / 2 ^ 47 = half r.root := by
  have range {root virtualBase size physicalBase : Nat} (below : root < 2)
      (inside : ∀ o < size, (virtualBase + o) / 2 ^ 47 = half root) :
      ∀ r ∈ rangeRequests root virtualBase physicalBase size,
        r.root < 2 ∧ r.va / 2 ^ 47 = half r.root := by
    intro r mem
    obtain ⟨o, o_mem, rfl⟩ := List.mem_map.mp mem
    exact ⟨below, inside o ((mem_stepBy (by decide)).mp o_mem).2⟩
  have low := ok.low
  have high := ok.high
  have word := ok.word
  simp only [lowEnd, highStart] at low high
  intro r mem
  rcases mem_requests_iff.mp mem with identity | linear | ⟨a, a_mem, aliased⟩
  · refine range Nat.zero_lt_two (fun o below => ?_) r identity
    rw [half, if_pos rfl]
    omega
  · refine range Nat.one_lt_two (fun o below => ?_) r linear
    rw [half, if_neg (by decide)]
    omega
  · have a_high := (oks a a_mem).high
    have a_word := (oks a a_mem).word
    simp only [highStart] at a_high
    refine range Nat.one_lt_two (fun o below => ?_) r aliased
    rw [half, if_neg (by decide)]
    omega

/-- The walk leads exactly where the construction intends. -/
theorem walk_iff_intended {t : Arm64Stage1Tables}
    (ok : RamOk physicalBase virtualBase memorySize)
    (oks : ∀ a ∈ aliases, AliasOk physicalBase virtualBase memorySize a)
    (rep : Represents t (mapAll roots
      (ramRequests physicalBase virtualBase memorySize ++ aliasRequests aliases))) (va pa : Nat) :
    t.walk va = some pa ↔ Intended physicalBase virtualBase memorySize aliases va pa := by
  rw [walk_eq_some rep (requests_placed ok oks), exists_request_iff, Intended]
  refine or_congr (exists_page_iff ok.physical_page ok.size_page)
    (or_congr (exists_page_iff ok.virtual_page ok.size_page) ?_)
  refine exists_congr fun a => and_congr_right fun mem => ?_
  exact exists_page_iff (oks a mem).virtual_page (oks a mem).size_page

/-- What is intended leads into RAM. -/
theorem Intended.in_ram (oks : ∀ a ∈ aliases, AliasOk physicalBase virtualBase memorySize a)
    {va pa : Nat} (intended : Intended physicalBase virtualBase memorySize aliases va pa) :
    physicalBase ≤ pa ∧ pa < physicalBase + memorySize := by
  rcases intended with ⟨above, below, rfl⟩ | ⟨above, below, rfl⟩ | ⟨a, mem, above, below, rfl⟩
  · omega
  · omega
  · have inside := (oks a mem).above
    have inside' := (oks a mem).below
    omega

end Requests

/-! ### Every owned page -/

/-- The tables that a walk can come to, with their level. -/
inductive Reachable (t : Arm64Stage1Tables) : Nat → Nat → Prop where
  | ttbr0 : Reachable t 1 t.ttbr0
  | ttbr1 : Reachable t 1 t.ttbr1
  | next {level base i descriptor : Nat} (here : Reachable t level base) (upper : level < 3)
      (slot : i < 2048) (read : t.descriptorAt base i = some descriptor)
      (present : descriptor &&& 3 = 3) : Reachable t (level + 1) (descriptor &&& addressMask)

section Reachable

variable {t : Arm64Stage1Tables} {f : Forest Nat Nat}

/-- A walk comes to the tables of the forest only. -/
theorem Reachable.table {level base : Nat} (reachable : Reachable t level base)
    (rep : Represents t f) :
    ∃ n k, f.tables[n]? = some k ∧ k.length = level ∧ base = t.tableBase + n * pageSize := by
  induction reachable with
  | ttbr0 => exact ⟨0, [0], rep.low, rfl, by rw [Arm64Stage1Tables.ttbr0, Nat.zero_mul]; rfl⟩
  | ttbr1 => exact ⟨1, [1], rep.high, rfl, by rw [Arm64Stage1Tables.ttbr1, Nat.one_mul]⟩
  | @next level base i descriptor here upper slot read present ih =>
      obtain ⟨n, k, there, length, rfl⟩ := ih
      rw [rep.descriptorAt_eq there slot, Option.some.injEq] at read
      subst read
      cases holds : f.entry (i :: k) with
      | absent =>
          rw [holds, encode] at present
          exact absurd present (by decide)
      | table m =>
          have at_m := (Forest.entry_eq_table rep.closed.distinct).mp holds
          exact ⟨m, i :: k, at_m, by rw [List.length_cons, length], rep.and_encode_table at_m⟩
      | leaf pa =>
          have deep := rep.closed.length_of_leaf holds
          rw [List.length_cons] at deep
          omega

/-- A walk comes to every table of the forest. -/
theorem Represents.reachable (rep : Represents t f) {n : Nat} {k : List Nat}
    (there : f.tables[n]? = some k) : Reachable t k.length (t.tableBase + n * pageSize) := by
  induction k generalizing n with
  | nil => exact absurd rfl (rep.ne_nil there)
  | cons i k ih =>
      have mem := List.mem_of_getElem? there
      have index_eq {m : Nat} (at_m : f.tables[m]? = some (i :: k)) : n = m := by
        obtain ⟨inside, eq⟩ := List.getElem?_eq_some_iff.mp there
        obtain ⟨inside', eq'⟩ := List.getElem?_eq_some_iff.mp at_m
        exact rep.closed.distinct.getElem_inj_iff.mp (eq.trans eq'.symm)
      rcases rep.closed.rooted i k mem with rfl | parent
      · have below := rep.roots i mem
        obtain rfl | rfl : i = 0 ∨ i = 1 := by omega
        · rw [index_eq rep.low, Nat.zero_mul]
          exact .ttbr0
        · rw [index_eq rep.high, Nat.one_mul]
          exact .ttbr1
      · obtain ⟨m, at_m⟩ := List.mem_iff_getElem?.mp parent
        have slot := rep.indices i k mem (rep.ne_nil at_m)
        have holds := (Forest.entry_eq_table rep.closed.distinct).mpr there
        have read := rep.descriptorAt_eq at_m slot
        have shallow := (rep.closed.shallow _ mem).2
        rw [List.length_cons] at shallow ⊢
        rw [holds] at read
        rw [← rep.and_encode_table there]
        exact .next (ih at_m) (by omega) slot read (and_three (rep.tableAddress there).1).1

end Reachable

/-! ### The tables as a whole -/

/-- What a set of tables must be for the ranges that it was made for. -/
structure Translates (t : Arm64Stage1Tables) (physicalBase virtualBase memorySize : Nat)
    (aliases : List Stage1Alias) : Prop where
  /-- The walk leads where it should, and nowhere else. -/
  walk : ∀ va pa, t.walk va = some pa ↔
    Intended physicalBase virtualBase memorySize aliases va pa
  /-- A slot of an upper level is zero or leads to an owned table. -/
  ancestors : ∀ level base, level < 3 → Reachable t level base → ∀ i < 2048,
    ∃ d, t.descriptorAt base i = some d ∧
      (d = 0 ∨ ∃ n, n * pageSize + pageSize ≤ t.bytes.length ∧
        d = t.tableBase + n * pageSize + 3)
  /-- A slot of the lowest level is zero or leads to a page of RAM. -/
  leaves : ∀ base, Reachable t 3 base → ∀ i < 2048,
    ∃ d, t.descriptorAt base i = some d ∧
      (d = 0 ∨ ∃ page, pageSize ∣ page ∧ physicalBase ≤ page ∧
        page + pageSize ≤ physicalBase + memorySize ∧ d = page + 0x403)
  /-- The bytes are whole tables, and a walk can come to each of them. -/
  whole : pageSize ∣ t.bytes.length
  owned : ∀ n, n * pageSize < t.bytes.length →
    ∃ level ≤ 3, Reachable t level (t.tableBase + n * pageSize)
  levels : ∀ level base, Reachable t level base → 0 < level ∧ level ≤ 3
  /-- The tables lie behind RAM, and no address leads to them. -/
  behind : t.tableBase = physicalBase + memorySize
  unmapped : ∀ va pa, t.walk va = some pa →
    ¬ (t.tableBase ≤ pa ∧ pa < t.tableBase + t.bytes.length)
  /-- On RAM, `virtualAddress` is the inverse of the walk over the linear range. -/
  inverse : ∀ pa, physicalBase ≤ pa → pa < physicalBase + memorySize →
    ∃ va, t.virtualAddress pa = .ok va ∧ t.walk va = some pa
  inverse' : ∀ va pa, virtualBase ≤ va → va < virtualBase + memorySize → t.walk va = some pa →
    t.virtualAddress pa = .ok va

section Whole

variable {physicalBase virtualBase memorySize : Nat} {aliases : List Stage1Alias}
  {t : Arm64Stage1Tables}

/-- A RAM address has the linear address at the same displacement. -/
theorem virtualAddress_of_built {f : Forest Nat Nat}
    (built : Built physicalBase virtualBase memorySize f t)
    (ok : RamOk physicalBase virtualBase memorySize) {pa : Nat} (above : physicalBase ≤ pa)
    (below : pa < physicalBase + memorySize) :
    t.virtualAddress pa = .ok (virtualBase + (pa - physicalBase)) := by
  have word := ok.word
  have offset : checkedSub pa t.ramBase = some (pa - physicalBase) := by
    rw [built.ramBase]
    exact checkedSub_eq_some.mpr ⟨above, rfl⟩
  rw [virtualAddress, offset, ofOption_some, bind_ok, built.memorySize,
    rejectIf_of_not _ (by omega), bind_ok, built.virtualBase, checkedAdd_of_lt (by omega),
    ofOption_some]

/-- A leaf is a page of RAM. -/
theorem leaf_in_ram (ok : RamOk physicalBase virtualBase memorySize)
    (oks : ∀ a ∈ aliases, AliasOk physicalBase virtualBase memorySize a) {r : Request}
    (mem : r ∈ ramRequests physicalBase virtualBase memorySize ++ aliasRequests aliases) :
    pageSize ∣ r.pa ∧ physicalBase ≤ r.pa ∧ r.pa + pageSize ≤ physicalBase + memorySize := by
  have range {root base virtual size : Nat} (page : pageSize ∣ base) (sized : pageSize ∣ size)
      (above : physicalBase ≤ base) (below : base + size ≤ physicalBase + memorySize)
      (mem : r ∈ rangeRequests root virtual base size) :
      pageSize ∣ r.pa ∧ physicalBase ≤ r.pa ∧ r.pa + pageSize ≤ physicalBase + memorySize := by
    obtain ⟨o, o_mem, rfl⟩ := List.mem_map.mp mem
    obtain ⟨multiple, inside⟩ := (mem_stepBy (by decide)).mp o_mem
    refine ⟨Nat.dvd_add page multiple, above.trans (Nat.le_add_right _ _), ?_⟩
    obtain ⟨n, rfl⟩ := multiple
    obtain ⟨m, rfl⟩ := sized
    simp only [pageSize] at inside below ⊢
    omega
  rcases mem_requests_iff.mp mem with identity | linear | ⟨a, a_mem, aliased⟩
  · exact range ok.physical_page ok.size_page (Nat.le_refl _) (Nat.le_refl _) identity
  · exact range ok.physical_page ok.size_page (Nat.le_refl _) (Nat.le_refl _) linear
  · exact range (oks a a_mem).physical_page (oks a a_mem).size_page (oks a a_mem).above
      (oks a a_mem).below aliased

/-- Tables that stand for the requests of a construction translate its ranges. -/
theorem translates_of_built (ok : RamOk physicalBase virtualBase memorySize)
    (oks : ∀ a ∈ aliases, AliasOk physicalBase virtualBase memorySize a)
    (built : Built physicalBase virtualBase memorySize (mapAll roots
      (ramRequests physicalBase virtualBase memorySize ++ aliasRequests aliases)) t) :
    Translates t physicalBase virtualBase memorySize aliases := by
  have rep := built.represents
  have walk := walk_iff_intended ok oks rep
  refine ⟨walk, ?_, ?_, ⟨_, (rep.length.trans (Nat.mul_comm _ _))⟩, ?_, ?_, built.tableBase,
    ?_, ?_, ?_⟩
  · intro level base upper reachable i below
    obtain ⟨n, k, there, rfl, rfl⟩ := reachable.table rep
    refine ⟨_, rep.descriptorAt_eq there below, ?_⟩
    cases holds : (mapAll roots _).entry (i :: k) with
    | absent => exact .inl rfl
    | table m =>
        have at_m := (Forest.entry_eq_table rep.closed.distinct).mp holds
        obtain ⟨inside, _⟩ := List.getElem?_eq_some_iff.mp at_m
        refine .inr ⟨m, ?_, rfl⟩
        rw [rep.length, ← Nat.succ_mul]
        exact Nat.mul_le_mul_right _ inside
    | leaf pa =>
        have deep := rep.closed.length_of_leaf holds
        rw [List.length_cons] at deep
        omega
  · intro base reachable i below
    obtain ⟨n, k, there, length, rfl⟩ := reachable.table rep
    refine ⟨_, rep.descriptorAt_eq there below, ?_⟩
    cases holds : (mapAll roots _).entry (i :: k) with
    | absent => exact .inl rfl
    | table m =>
        have at_m := (Forest.entry_eq_table rep.closed.distinct).mp holds
        exact absurd (List.mem_of_getElem? at_m) (rep.leaf_notMem i length)
    | leaf pa =>
        obtain ⟨r, mem, _, rfl⟩ := (leafAt_mapAll rfl rep.closed.unique).mp
          (Forest.leafAt_of_entry holds)
        obtain ⟨page, above, inside⟩ := leaf_in_ram ok oks mem
        exact .inr ⟨r.pa, page, above, inside, rfl⟩
  · intro n inside
    rw [rep.length] at inside
    have below := Nat.lt_of_mul_lt_mul_right inside
    have there := List.getElem?_eq_getElem below
    exact ⟨_, (rep.closed.shallow _ (List.getElem_mem below)).2, rep.reachable there⟩
  · intro level base reachable
    obtain ⟨n, k, there, rfl, rfl⟩ := reachable.table rep
    exact rep.closed.shallow k (List.mem_of_getElem? there)
  · intro va pa leads
    have inside := Intended.in_ram oks ((walk va pa).mp leads)
    rw [built.tableBase]
    omega
  · intro pa above below
    refine ⟨_, virtualAddress_of_built built ok above below, (walk _ _).mpr (.inr (.inl ?_))⟩
    exact ⟨by omega, by omega, by omega⟩
  · intro va pa above below leads
    have linear : t.walk va = some (physicalBase + (va - virtualBase)) :=
      (walk _ _).mpr (.inr (.inl ⟨above, below, rfl⟩))
    rw [linear] at leads
    obtain rfl := Option.some.inj leads
    rw [virtualAddress_of_built built ok (by omega) (by omega)]
    congr 1
    omega

/-- Tables that were made, with or without aliases, translate the ranges they were made for. -/
theorem tables_translate (made : new physicalBase virtualBase memorySize = .ok t ∧ aliases = [] ∨
    newWithAliases physicalBase virtualBase memorySize aliases = .ok t) :
    Translates t physicalBase virtualBase memorySize aliases := by
  rcases made with ⟨made, rfl⟩ | made
  · obtain ⟨⟨ok, _⟩, built⟩ := (new_yields _ _ _).post_of_ok made
    refine translates_of_built ok (by simp) ?_
    rwa [aliasRequests, List.flatMap_nil, List.append_nil]
  · obtain ⟨⟨_, ok, oks, _, _⟩, built⟩ := (newWithAliases_yields _ _ _ _).post_of_ok made
    exact translates_of_built ok oks built

/-- One page of RAM, with an alias of it. -/
theorem tables_translate_sample :
    ∃ t, newWithAliases 0x40000000 0xfffffe0000000000 0x4000
        [⟨0xfffffff010000000, 0x40000000, 0x4000⟩] = .ok t ∧
      Translates t 0x40000000 0xfffffe0000000000 0x4000
        [⟨0xfffffff010000000, 0x40000000, 0x4000⟩] := by
  have ok : RamOk 0x40000000 0xfffffe0000000000 0x4000 := by
    constructor <;> decide
  have oks : AliasOk 0x40000000 0xfffffe0000000000 0x4000
      ⟨0xfffffff010000000, 0x40000000, 0x4000⟩ := by
    constructor <;> decide
  obtain ⟨t, made, _⟩ := (newWithAliases_yields 0x40000000 0xfffffe0000000000 0x4000
    [⟨0xfffffff010000000, 0x40000000, 0x4000⟩]).1
    ⟨by decide, ok, by simpa using oks, List.pairwise_singleton .., by decide +kernel⟩
  exact ⟨t, made, tables_translate (.inr made)⟩

end Whole

end Nextcore.Stage1
