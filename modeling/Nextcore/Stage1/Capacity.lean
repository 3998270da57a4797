import Nextcore.Stage1.Translate

/-!
The construction cannot fail behind its checks.

A range of addresses touches few blocks of a given size, so the tables that its pages need
can be listed beforehand (`rangeTables`), and the list for the largest RAM with two largest
aliases is shorter than the bound on the tables. The ranges are apart, so no page finds its
slot taken (`requests_apart`). What is left are the checks: each constructor ends as its
checks do (`construction_total`).
-/

namespace Nextcore.Stage1

open Checked Checked.Outcome Radix Arm64Stage1Tables

/-! ### Room -/

/-- The tables that a request needs below its root table. -/
def Request.way (r : Request) : List (List Nat) :=
  Forest.way [r.root] [slotIndex r.va 36, slotIndex r.va 25]

/-- The blocks of `2 ^ shift` bytes that a range can touch. -/
def blocks (base size shift : Nat) : List Nat :=
  List.range' (base / 2 ^ shift) (size / 2 ^ shift + 2)

/-- The tables that the pages of a range can need. -/
def rangeTables (root base size : Nat) : List (List Nat) :=
  (blocks base size 36).map (fun q => [q % 2048, root]) ++
    (blocks base size 25).map fun q => [q % 2048, q / 2048 % 2048, root]

/-- The tables that a construction can need. -/
def allTables (physicalBase virtualBase memorySize : Nat) (aliases : List Stage1Alias) :
    List (List Nat) :=
  [[0], [1]] ++ rangeTables 0 physicalBase memorySize ++ rangeTables 1 virtualBase memorySize ++
    aliases.flatMap fun a => rangeTables 1 a.virtualBase a.bytes

theorem mem_blocks {base size shift o : Nat} (below : o < size) :
    (base + o) / 2 ^ shift ∈ blocks base size shift := by
  have positive : 0 < 2 ^ shift := Nat.two_pow_pos shift
  rw [blocks, List.mem_range'_1]
  constructor
  · exact Nat.div_le_div_right (Nat.le_add_right base o)
  · -- Two remainders make up less than two blocks.
    have split := Nat.div_add_mod base (2 ^ shift)
    have split' := Nat.div_add_mod size (2 ^ shift)
    have rest := Nat.mod_lt base positive
    have rest' := Nat.mod_lt size positive
    rw [Nat.div_lt_iff_lt_mul positive, Nat.add_mul, Nat.add_mul]
    rw [Nat.mul_comm] at split split'
    omega

theorem way_subset_rangeTables {root base physicalBase size : Nat} :
    ∀ r ∈ rangeRequests root base physicalBase size, r.way ⊆ rangeTables root base size := by
  intro r mem k k_mem
  obtain ⟨o, o_mem, rfl⟩ := List.mem_map.mp mem
  have below := ((mem_stepBy (by decide)).mp o_mem).2
  simp only [Request.way, Forest.way, slotIndex, Nat.shiftRight_eq_div_pow, List.mem_cons,
    List.not_mem_nil, or_false] at k_mem
  rw [rangeTables, List.mem_append, List.mem_map, List.mem_map]
  rcases k_mem with rfl | rfl
  · exact .inl ⟨_, mem_blocks below, rfl⟩
  · refine .inr ⟨_, mem_blocks below, ?_⟩
    -- A block of the upper level has 2048 of the lower one.
    rw [Nat.div_div_eq_div_mul, show 2 ^ 25 * 2048 = 2 ^ 36 by decide]

theorem length_rangeTables (root base size : Nat) :
    (rangeTables root base size).length = size / 2 ^ 36 + size / 2 ^ 25 + 4 := by
  simp only [rangeTables, blocks, List.length_append, List.length_map, List.length_range']
  omega

/-- Requests are mappable where their tables are among few and their leaves are their own. -/
theorem mappable_of_cover {tableBase : Nat} {f : Forest Nat Nat} {requests : List Request}
    {cover : List (List Nat)} (distinct : f.tables.Nodup) (covered : f.tables ⊆ cover)
    (ways : ∀ r ∈ requests, r.way ⊆ cover)
    (apart : (f.leaves.map Prod.fst ++ requests.map fun r => leafPath r.root r.va).Nodup)
    (small : cover.length * pageSize ≤ maxTableBytes)
    (below : tableBase + cover.length * pageSize ≤ paEnd) : Mappable tableBase f requests := by
  induction requests generalizing f with
  | nil => trivial
  | cons r rest ih =>
      obtain ⟨way, rest_ways⟩ := List.forall_mem_cons.mp ways
      have tables : (mapLeaf f r.root r.va r.pa).tables =
          (f.reach [r.root] [slotIndex r.va 36, slotIndex r.va 25]).tables := rfl
      have distinct' : (mapLeaf f r.root r.va r.pa).tables.Nodup := by
        rw [tables]
        exact Forest.nodup_reach distinct _ _
      have covered' : (mapLeaf f r.root r.va r.pa).tables ⊆ cover := by
        intro k mem
        rw [tables, Forest.mem_reach] at mem
        cases mem with
        | inl old => exact covered old
        | inr new => exact way new
      have few := Nat.mul_le_mul_right pageSize (distinct'.length_le_of_subset covered')
      have free : f.leafAt (leafPath r.root r.va) = none := by
        rw [Forest.leafAt_eq_none]
        intro mem
        rw [List.nodup_append] at apart
        exact apart.2.2 _ mem _ List.mem_cons_self rfl
      have apart' : ((mapLeaf f r.root r.va r.pa).leaves.map Prod.fst ++
          rest.map fun r => leafPath r.root r.va).Nodup := by
        rwa [mapLeaf_leaves, List.map_append, List.append_assoc, List.map_singleton,
          List.singleton_append]
      refine ⟨⟨⟨few.trans small, ?_⟩, free⟩, ih distinct' covered' rest_ways apart'⟩
      exact (Nat.add_le_add_left few tableBase).trans below

/-! ### Free slots -/

/-- Placed requests with one path are for one page. -/
theorem va_eq_of_leafPath {r s : Request} (r_half : r.va / 2 ^ 47 = half r.root)
    (s_half : s.va / 2 ^ 47 = half s.root) (r_page : pageSize ∣ r.va) (s_page : pageSize ∣ s.va)
    (same : leafPath r.root r.va = leafPath s.root s.va) : r.va = s.va := by
  have root_eq : r.root = s.root := by simpa [leafPath] using congrArg List.getLast? same
  rw [root_eq] at same r_half
  have page_eq := (leafPath_eq_iff (r_half.trans s_half.symm)).mp same
  rw [← Nat.div_mul_cancel r_page, page_eq, Nat.div_mul_cancel s_page]

theorem nodup_stepBy {step : Nat} (positive : 0 < step) (stop : Nat) : (stepBy stop step).Nodup :=
  List.nodup_range.map fun _ _ same => Nat.eq_of_mul_eq_mul_right positive same

section Requests

variable {physicalBase virtualBase memorySize : Nat} {aliases : List Stage1Alias}

/-- A request of a range is for a page in it. -/
theorem mem_rangeRequests {root base physicalBase size : Nat} {r : Request}
    (mem : r ∈ rangeRequests root base physicalBase size) :
    pageSize ∣ r.va - base ∧ base ≤ r.va ∧ r.va < base + size := by
  obtain ⟨o, o_mem, rfl⟩ := List.mem_map.mp mem
  obtain ⟨page, below⟩ := (mem_stepBy (by decide)).mp o_mem
  dsimp only
  rw [Nat.add_sub_cancel_left]
  exact ⟨page, by omega, by omega⟩

/-- The pages of a range are told apart. -/
theorem pairwise_rangeRequests (root base physicalBase size : Nat) :
    (rangeRequests root base physicalBase size).Pairwise fun r s => r.va ≠ s.va := by
  rw [rangeRequests, List.pairwise_map]
  refine (nodup_stepBy (by decide) size).imp ?_
  intro o o' ne same
  exact ne (Nat.add_left_cancel same)

/-- The pages of RAM are told apart at both of their addresses. -/
theorem pairwise_ramRequests (ok : RamOk physicalBase virtualBase memorySize) :
    (ramRequests physicalBase virtualBase memorySize).Pairwise fun r s => r.va ≠ s.va := by
  have low := ok.low
  have high := ok.high
  simp only [lowEnd, highStart] at low high
  rw [ramRequests, List.pairwise_flatMap]
  constructor
  · intro o _
    simp only [List.pairwise_pair]
    omega
  · refine (nodup_stepBy (by decide) memorySize).imp_of_mem ?_
    intro o o' mem mem' ne
    have below := ((mem_stepBy (by decide)).mp mem).2
    have below' := ((mem_stepBy (by decide)).mp mem').2
    simp only [List.forall_mem_cons, List.not_mem_nil, false_implies, implies_true, and_true]
    omega

/-- No two requests of a construction are for one page. -/
theorem requests_apart (ok : RamOk physicalBase virtualBase memorySize)
    (oks : ∀ a ∈ aliases, AliasOk physicalBase virtualBase memorySize a)
    (clear : aliases.Pairwise fun b a => Clear a b) :
    (ramRequests physicalBase virtualBase memorySize ++ aliasRequests aliases).Pairwise
      fun r s => r.va ≠ s.va := by
  have low := ok.low
  simp only [lowEnd] at low
  rw [List.pairwise_append]
  refine ⟨pairwise_ramRequests ok, ?_, ?_⟩
  · rw [aliasRequests, List.pairwise_flatMap]
    refine ⟨fun a _ => pairwise_rangeRequests 1 a.virtualBase a.physicalBase a.bytes, ?_⟩
    refine clear.imp ?_
    intro b a apart s s_mem r r_mem same
    obtain ⟨-, s_above, s_below⟩ := mem_rangeRequests s_mem
    obtain ⟨-, r_above, r_below⟩ := mem_rangeRequests r_mem
    simp only [Clear, rangesOverlap] at apart
    omega
  · intro r r_mem s s_mem same
    obtain ⟨a, a_mem, s_mem⟩ := List.mem_flatMap.mp s_mem
    obtain ⟨-, s_above, s_below⟩ := mem_rangeRequests s_mem
    have a_high := (oks a a_mem).high
    have apart := (oks a a_mem).apart
    simp only [highStart, rangesOverlap] at a_high apart
    rcases mem_requests_iff.mp (List.mem_append_left (aliasRequests []) r_mem) with
      identity | linear | ⟨b, b_mem, _⟩
    · obtain ⟨-, r_above, r_below⟩ := mem_rangeRequests identity
      omega
    · obtain ⟨-, r_above, r_below⟩ := mem_rangeRequests linear
      omega
    · cases b_mem

/-- Every request of a construction is for an aligned page. -/
theorem requests_aligned (ok : RamOk physicalBase virtualBase memorySize)
    (oks : ∀ a ∈ aliases, AliasOk physicalBase virtualBase memorySize a) :
    ∀ r ∈ ramRequests physicalBase virtualBase memorySize ++ aliasRequests aliases,
      pageSize ∣ r.va := by
  have range {root base physicalBase size : Nat} (aligned : pageSize ∣ base) :
      ∀ r ∈ rangeRequests root base physicalBase size, pageSize ∣ r.va := by
    intro r mem
    obtain ⟨page, above, -⟩ := mem_rangeRequests mem
    have sum := Nat.dvd_add aligned page
    rwa [Nat.add_sub_cancel' above] at sum
  intro r mem
  rcases mem_requests_iff.mp mem with identity | linear | ⟨a, a_mem, aliased⟩
  · exact range ok.physical_page r identity
  · exact range ok.virtual_page r linear
  · exact range (oks a a_mem).virtual_page r aliased

theorem requests_covered :
    ∀ r ∈ ramRequests physicalBase virtualBase memorySize ++ aliasRequests aliases,
      r.way ⊆ allTables physicalBase virtualBase memorySize aliases := by
  intro r mem k k_mem
  simp only [allTables, List.mem_append]
  rcases mem_requests_iff.mp mem with identity | linear | ⟨a, a_mem, aliased⟩
  · exact .inl (.inl (.inr (way_subset_rangeTables r identity k_mem)))
  · exact .inl (.inr (way_subset_rangeTables r linear k_mem))
  · exact .inr (List.mem_flatMap.mpr ⟨a, a_mem, way_subset_rangeTables r aliased k_mem⟩)

theorem length_aliasTables_le (oks : ∀ a ∈ aliases, a.bytes ≤ maxAliasBytes) :
    (aliases.flatMap fun a => rangeTables 1 a.virtualBase a.bytes).length ≤
      aliases.length * 8 := by
  induction aliases with
  | nil => exact Nat.le_refl _
  | cons a rest ih =>
      obtain ⟨bounded, rest_oks⟩ := List.forall_mem_cons.mp oks
      have few := ih rest_oks
      simp only [maxAliasBytes] at bounded
      rw [List.flatMap_cons, List.length_append, length_rangeTables, List.length_cons]
      omega

/-- The largest ranges need 90 tables. -/
theorem length_allTables_le (few : aliases.length ≤ 2)
    (ok : RamOk physicalBase virtualBase memorySize)
    (oks : ∀ a ∈ aliases, AliasOk physicalBase virtualBase memorySize a) :
    (allTables physicalBase virtualBase memorySize aliases).length ≤ 90 := by
  have alias_tables := length_aliasTables_le fun a mem => (oks a mem).bounded
  have bounded := ok.bounded
  simp only [maxMemorySize] at bounded
  simp only [allTables, List.length_append, length_rangeTables, List.length_cons, List.length_nil]
  omega

/-- Every page of an accepted construction can be mapped. -/
theorem mappable_of_accepted (few : aliases.length ≤ 2)
    (ok : RamOk physicalBase virtualBase memorySize)
    (oks : ∀ a ∈ aliases, AliasOk physicalBase virtualBase memorySize a)
    (clear : aliases.Pairwise fun b a => Clear a b) :
    Mappable (physicalBase + memorySize) roots
      (ramRequests physicalBase virtualBase memorySize ++ aliasRequests aliases) := by
  have count := length_allTables_le few ok oks
  have low := ok.low
  simp only [lowEnd] at low
  have placed := requests_placed ok oks
  have aligned := requests_aligned ok oks
  refine mappable_of_cover (by decide) ?_ requests_covered ?_ ?_ ?_
  · intro k mem
    exact List.mem_append_left _ (List.mem_append_left _ (List.mem_append_left _ mem))
  · rw [show roots.leaves.map Prod.fst = [] from rfl, List.nil_append, List.Nodup,
      List.pairwise_map]
    refine (requests_apart ok oks clear).imp_of_mem ?_
    intro r s r_mem s_mem ne same
    exact ne (va_eq_of_leafPath (placed r r_mem).2 (placed s s_mem).2 (aligned r r_mem)
      (aligned s s_mem) same)
  · simp only [pageSize, maxTableBytes]
    omega
  · simp only [pageSize, paEnd]
    omega

end Requests

/-! ### The checks -/

/-- The checks at the head of `new`. -/
def checkRam (physicalBase virtualBase memorySize : Nat) : Outcome Error Unit := do
  rejectIf ((physicalBase ||| virtualBase ||| memorySize) &&& (pageSize - 1) ≠ 0) .alignment
  rejectIf (memorySize = 0 ∨ maxMemorySize < memorySize) .invalidRange
  let tableBase ← ofOption .addressOverflow (checkedAdd physicalBase memorySize)
  let _ ← ofOption .addressOverflow (checkedAdd virtualBase memorySize)
  rejectIf (lowEnd < tableBase ∨ virtualBase < highStart) .invalidRange

/-- The checks at the head of `newWithAliases`, with those of `new` behind them. -/
def checkRanges (physicalBase virtualBase memorySize : Nat) (aliases : List Stage1Alias) :
    Outcome Error Unit := do
  rejectIf (2 < aliases.length) .invalidRange
  let physicalEnd ← ofOption .addressOverflow (checkedAdd physicalBase memorySize)
  let linearEnd ← ofOption .addressOverflow (checkedAdd virtualBase memorySize)
  checkAliases physicalBase physicalEnd virtualBase linearEnd [] aliases
  checkRam physicalBase virtualBase memorySize

section Checks

variable {physicalBase virtualBase memorySize : Nat} {aliases : List Stage1Alias}

/-- A part that returns a value wherever its checks pass ends as they do. -/
theorem discard_eq {check : Outcome Error Unit} {made rest : Outcome Error Arm64Stage1Tables}
    (split : made = check >>= fun _ => rest) (total : check = .ok () → ∃ t, made = .ok t) :
    (do let _ ← made; pure ()) = check := by
  cases ended : check with
  | ok =>
      obtain ⟨t, returned⟩ := total ended
      rw [returned, bind_ok, pure_eq]
  | err e => rw [split, ended, bind_err, bind_err]
  | panic => rw [split, ended, bind_panic, bind_panic]

theorem checkRam_yields (physicalBase virtualBase memorySize : Nat) :
    Yields (RamOk physicalBase virtualBase memorySize) (fun _ => True)
      (checkRam physicalBase virtualBase memorySize) := by
  refine Yields.congr ?_ (Yields.guard fun _ => Yields.guard fun _ =>
    (yields_checkedAdd _ _ _).bind_eq fun _ => (yields_checkedAdd _ _ _).bind_eq fun _ =>
    yields_rejectIf _)
  rw [not_not, or_and_eq_zero, or_and_eq_zero, and_pageSize, and_pageSize, and_pageSize]
  constructor
  · rintro ⟨⟨⟨physical, virtual⟩, size⟩, sized, -, word, placed⟩
    exact ⟨physical, virtual, size, by omega, by omega, word, by omega, by omega⟩
  · intro ok
    have positive := ok.positive
    have bounded := ok.bounded
    have low := ok.low
    have high := ok.high
    have low_word : lowEnd < 2 ^ 64 := by decide
    exact ⟨⟨⟨ok.physical_page, ok.virtual_page⟩, ok.size_page⟩, by omega, by omega, ok.word,
      by omega⟩

theorem checkRanges_yields (physicalBase virtualBase memorySize : Nat)
    (aliases : List Stage1Alias) :
    Yields (aliases.length ≤ 2 ∧ RamOk physicalBase virtualBase memorySize ∧
        (∀ a ∈ aliases, AliasOk physicalBase virtualBase memorySize a) ∧
        aliases.Pairwise fun b a => Clear a b)
      (fun _ => True) (checkRanges physicalBase virtualBase memorySize aliases) := by
  refine Yields.congr ?_ (Yields.guard fun few => (yields_checkedAdd _ _ _).bind_eq fun fits =>
    (yields_checkedAdd _ _ _).bind_eq fun _ =>
    (checkAliases_yields fits [] aliases (by simp)).bind fun _ _ _ =>
    checkRam_yields physicalBase virtualBase memorySize)
  constructor
  · rintro ⟨few, -, -, ⟨oks, -, clear⟩, ok⟩
    exact ⟨by omega, ok, oks, clear⟩
  · rintro ⟨few, ok, oks, clear⟩
    have low := ok.low
    have low_word : lowEnd < 2 ^ 64 := by decide
    exact ⟨by omega, by omega, ok.word, ⟨oks, by simp, clear⟩, ok⟩

/-- The checks of `new` come before the rest of it. -/
theorem new_eq_bind (physicalBase virtualBase memorySize : Nat) :
    ∃ rest, new physicalBase virtualBase memorySize =
      checkRam physicalBase virtualBase memorySize >>= fun _ => rest := by
  refine ⟨allocateTable ⟨[], physicalBase + memorySize, physicalBase, virtualBase, memorySize⟩ >>=
    fun low => allocateTable low.2 >>=
      fun high => (stepBy memorySize pageSize).foldlM (mapBoth physicalBase virtualBase) high.2, ?_⟩
  simp only [new, checkRam, bind_assoc]
  cases sum : checkedAdd physicalBase memorySize with
  | none => simp only [ofOption_none, bind_err]
  | some tableBase =>
      obtain rfl := (checkedAdd_eq_some.mp sum).2
      simp only [ofOption_some, bind_ok]

theorem newWithAliases_eq_bind (physicalBase virtualBase memorySize : Nat)
    (aliases : List Stage1Alias) :
    ∃ rest, newWithAliases physicalBase virtualBase memorySize aliases =
      checkRanges physicalBase virtualBase memorySize aliases >>= fun _ => rest := by
  obtain ⟨fill, split⟩ := new_eq_bind physicalBase virtualBase memorySize
  refine ⟨fill >>= aliases.foldlM mapAlias, ?_⟩
  simp only [newWithAliases, checkRanges, split, bind_assoc]

/-- `new` goes through wherever its ranges are accepted. -/
theorem new_total (ok : RamOk physicalBase virtualBase memorySize) :
    ∃ t, new physicalBase virtualBase memorySize = .ok t := by
  have mappable := @mappable_of_accepted _ _ _ [] (Nat.zero_le 2) ok
    (List.forall_mem_nil _) .nil
  rw [aliasRequests, List.flatMap_nil, List.append_nil] at mappable
  obtain ⟨t, returned, -⟩ := (new_yields physicalBase virtualBase memorySize).1 ⟨ok, mappable⟩
  exact ⟨t, returned⟩

end Checks

/-- Each constructor returns tables exactly for ranges that its checks accept, and otherwise
fails as they do: no table lacks room, and no page finds its slot taken. The tables keep to
their bound. -/
theorem construction_total (physicalBase virtualBase memorySize : Nat)
    (aliases : List Stage1Alias) :
    ((do let _ ← new physicalBase virtualBase memorySize; pure ()) =
        checkRam physicalBase virtualBase memorySize ∧
      ((∃ t, new physicalBase virtualBase memorySize = .ok t) ↔
        RamOk physicalBase virtualBase memorySize)) ∧
    ((do let _ ← newWithAliases physicalBase virtualBase memorySize aliases; pure ()) =
        checkRanges physicalBase virtualBase memorySize aliases ∧
      ((∃ t, newWithAliases physicalBase virtualBase memorySize aliases = .ok t) ↔
        aliases.length ≤ 2 ∧ RamOk physicalBase virtualBase memorySize ∧
          (∀ a ∈ aliases, AliasOk physicalBase virtualBase memorySize a) ∧
          aliases.Pairwise fun b a => Clear a b)) ∧
    ∀ t, new physicalBase virtualBase memorySize = .ok t ∨
        newWithAliases physicalBase virtualBase memorySize aliases = .ok t →
      t.bytes.length ≤ maxTableBytes := by
  have made := new_yields physicalBase virtualBase memorySize
  have made' := newWithAliases_yields physicalBase virtualBase memorySize aliases
  have total' : (aliases.length ≤ 2 ∧ RamOk physicalBase virtualBase memorySize ∧
      (∀ a ∈ aliases, AliasOk physicalBase virtualBase memorySize a) ∧
      aliases.Pairwise fun b a => Clear a b) →
      ∃ t, newWithAliases physicalBase virtualBase memorySize aliases = .ok t := by
    rintro ⟨few, ok, oks, clear⟩
    obtain ⟨t, returned, -⟩ :=
      made'.1 ⟨few, ok, oks, clear, mappable_of_accepted few ok oks clear⟩
    exact ⟨t, returned⟩
  refine ⟨⟨?_, ?_, new_total⟩, ⟨?_, ?_, total'⟩, ?_⟩
  · obtain ⟨rest, split⟩ := new_eq_bind physicalBase virtualBase memorySize
    exact discard_eq split fun passed => new_total ((checkRam_yields _ _ _).2 () passed)
  · rintro ⟨t, returned⟩
    exact (made.2 t returned).1
  · obtain ⟨rest, split⟩ := newWithAliases_eq_bind physicalBase virtualBase memorySize aliases
    exact discard_eq split fun passed => total' ((checkRanges_yields _ _ _ _).2 () passed)
  · rintro ⟨t, returned⟩
    obtain ⟨few, ok, oks, clear, -⟩ := made'.2 t returned
    exact ⟨few, ok, oks, clear⟩
  · rintro t (returned | returned)
    · exact (made.post_of_ok returned).2.represents.tables_le
    · exact (made'.post_of_ok returned).2.represents.tables_le

end Nextcore.Stage1
