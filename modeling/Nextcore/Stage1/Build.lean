import Nextcore.Stage1.Represent

/-!
The construction of the tables.

`new` and `newWithAliases` check their ranges and then map one page after the other, so a
run of the loops is a list of requests carried out in order (`mapRequests_yields`). `new_yields`
and `newWithAliases_yields` say when each of them returns tables, and what these stand for:
the checks pass (`RamOk`, `AliasOk`), every table on the way has room, and every page is
mapped once (`Mappable`).
-/

namespace Nextcore.Stage1

open Checked Checked.Outcome Radix Arm64Stage1Tables

/-- One call of `mapPage`: the root is the first or the second table. -/
structure Request where
  root : Nat
  va : Nat
  pa : Nat
  deriving DecidableEq, Repr

/-- What a request must be for its descriptor to be readable. -/
structure Request.Ok (r : Request) : Prop where
  root : r.root < 2
  page : pageSize ∣ r.pa
  small : r.pa < paEnd

/-- The forest after a list of requests. -/
def mapAll (f : Forest Nat Nat) (requests : List Request) : Forest Nat Nat :=
  requests.foldl (fun f r => mapLeaf f r.root r.va r.pa) f

/-- Each request in its turn has room and a free slot. -/
def Mappable (tableBase : Nat) (f : Forest Nat Nat) : List Request → Prop
  | [] => True
  | r :: rest =>
    (Room tableBase (mapLeaf f r.root r.va r.pa) ∧ f.leafAt (leafPath r.root r.va) = none) ∧
      Mappable tableBase (mapLeaf f r.root r.va r.pa) rest

instance decidableMappable (tableBase : Nat) :
    ∀ (f : Forest Nat Nat) (requests : List Request), Decidable (Mappable tableBase f requests)
  | _, [] => inferInstanceAs (Decidable True)
  | f, r :: rest =>
    have := decidableMappable tableBase (mapLeaf f r.root r.va r.pa) rest
    inferInstanceAs (Decidable ((_ ∧ _) ∧ _))

/-- The calls for one range of pages. -/
def rangeRequests (root virtualBase physicalBase size : Nat) : List Request :=
  (stepBy size pageSize).map fun offset => ⟨root, virtualBase + offset, physicalBase + offset⟩

/-- The calls of the loop of `new`. -/
def ramRequests (physicalBase virtualBase memorySize : Nat) : List Request :=
  (stepBy memorySize pageSize).flatMap fun offset =>
    [⟨0, physicalBase + offset, physicalBase + offset⟩,
      ⟨1, virtualBase + offset, physicalBase + offset⟩]

/-- The calls of the loops of `newWithAliases`, after those of `new`. -/
def aliasRequests (aliases : List Stage1Alias) : List Request :=
  aliases.flatMap fun a => rangeRequests 1 a.virtualBase a.physicalBase a.bytes

theorem mapAll_append (f : Forest Nat Nat) (requests requests' : List Request) :
    mapAll f (requests ++ requests') = mapAll (mapAll f requests) requests' :=
  List.foldl_append

/-- Every request leaves one leaf. -/
theorem mapAll_leaves (f : Forest Nat Nat) (requests : List Request) :
    (mapAll f requests).leaves =
      f.leaves ++ requests.map fun r => (leafPath r.root r.va, r.pa) := by
  induction requests generalizing f with
  | nil => simp [mapAll]
  | cons r rest ih =>
      rw [mapAll, List.foldl_cons, ← mapAll, ih, mapLeaf_leaves, List.append_assoc,
        List.map_cons, List.singleton_append]

theorem mappable_append {tableBase : Nat} {f : Forest Nat Nat} {requests requests' : List Request} :
    Mappable tableBase f (requests ++ requests') ↔
      Mappable tableBase f requests ∧ Mappable tableBase (mapAll f requests) requests' := by
  induction requests generalizing f with
  | nil => simp [Mappable, mapAll]
  | cons r rest ih =>
      rw [List.cons_append, Mappable, Mappable, ih, ← and_assoc]
      rfl

theorem mem_stepBy {o stop step : Nat} (positive : 0 < step) :
    o ∈ stepBy stop step ↔ step ∣ o ∧ o < stop := by
  simp only [stepBy, List.mem_map, List.mem_range, divCeil]
  constructor
  · rintro ⟨i, below, rfl⟩
    refine ⟨Nat.dvd_mul_left _ _, ?_⟩
    have le := (Nat.le_div_iff_mul_le positive).mp (Nat.succ_le_of_lt below)
    rw [Nat.succ_mul] at le
    omega
  · rintro ⟨⟨i, rfl⟩, below⟩
    refine ⟨i, (Nat.le_div_iff_mul_le positive).mpr ?_, Nat.mul_comm _ _⟩
    rw [Nat.succ_mul, Nat.mul_comm]
    omega

section Run

variable {t : Arm64Stage1Tables} {f : Forest Nat Nat}

/-- A list of requests, carried out in order. -/
def mapRequests (t : Arm64Stage1Tables) (requests : List Request) :
    Outcome Error Arm64Stage1Tables :=
  requests.foldlM (fun t r => t.mapPage (r.root * pageSize) r.va r.pa) t

/-- A run of requests goes through exactly when each of them is mappable in its turn. -/
theorem mapRequests_yields {requests : List Request} (rep : Represents t f)
    (ok : ∀ r ∈ requests, r.Ok) :
    Yields (Mappable t.tableBase f requests)
      (fun t' => t' = { t with bytes := t'.bytes } ∧ Represents t' (mapAll f requests))
      (mapRequests t requests) := by
  induction requests generalizing t f with
  | nil => exact yields_ok ⟨rfl, rep⟩
  | cons r rest ih =>
      obtain ⟨r_ok, rest_ok⟩ := List.forall_mem_cons.mp ok
      have there : f.tables[r.root]? = some [r.root] := by
        have small := r_ok.root
        obtain zero | one : r.root = 0 ∨ r.root = 1 := by omega
        · rw [zero, rep.low]
        · rw [one, rep.high]
      rw [mapRequests, List.foldlM_cons]
      refine (mapPage_yields rep there r_ok.page r_ok.small).bind fun _ t' ⟨same, rep'⟩ => ?_
      have rest' := ih rep' rest_ok
      rw [show t'.tableBase = t.tableBase by rw [same]] at rest'
      refine rest'.imp fun t'' ⟨same', rep''⟩ => ⟨?_, rep''⟩
      rw [same', same]

/-- The loop of `new` is a run of requests. -/
theorem foldlM_mapBoth {physicalBase virtualBase : Nat} {offsets : List Nat}
    (words : ∀ o ∈ offsets, physicalBase + o < 2 ^ 64 ∧ virtualBase + o < 2 ^ 64) :
    offsets.foldlM (mapBoth physicalBase virtualBase) t =
      mapRequests t (offsets.flatMap fun offset =>
        [⟨0, physicalBase + offset, physicalBase + offset⟩,
          ⟨1, virtualBase + offset, physicalBase + offset⟩]) := by
  induction offsets generalizing t with
  | nil => rfl
  | cons o rest ih =>
      obtain ⟨⟨pa_word, va_word⟩, rest_words⟩ := List.forall_mem_cons.mp words
      have step : mapBoth physicalBase virtualBase t o =
          mapRequests t [⟨0, physicalBase + o, physicalBase + o⟩,
            ⟨1, virtualBase + o, physicalBase + o⟩] := by
        simp only [mapBoth, mapRequests, List.foldlM_cons, List.foldlM_nil, add_of_lt pa_word,
          add_of_lt va_word, bind_ok, Nat.zero_mul, Nat.one_mul, bind_pure]
      rw [List.foldlM_cons, step, List.flatMap_cons, mapRequests, mapRequests,
        List.foldlM_append]
      congr 1
      funext t'
      exact ih rest_words

/-- The loop over the pages of an alias is a run of requests. -/
theorem foldlM_mapAliasPage {a : Stage1Alias} {offsets : List Nat}
    (words : ∀ o ∈ offsets, a.virtualBase + o < 2 ^ 64 ∧ a.physicalBase + o < 2 ^ 64) :
    offsets.foldlM (mapAliasPage a) t =
      mapRequests t (offsets.map fun offset =>
        ⟨1, a.virtualBase + offset, a.physicalBase + offset⟩) := by
  induction offsets generalizing t with
  | nil => rfl
  | cons o rest ih =>
      obtain ⟨⟨va_word, pa_word⟩, rest_words⟩ := List.forall_mem_cons.mp words
      have step : mapAliasPage a t o =
          t.mapPage (1 * pageSize) (a.virtualBase + o) (a.physicalBase + o) := by
        simp only [mapAliasPage, add_of_lt pa_word, add_of_lt va_word, bind_ok, Nat.one_mul]
      rw [List.foldlM_cons, step, List.map_cons, mapRequests, List.foldlM_cons]
      congr 1
      funext t'
      exact ih rest_words

end Run

/-! ### The two constructors -/

/-- The ranges that `new` accepts. -/
structure RamOk (physicalBase virtualBase memorySize : Nat) : Prop where
  physical_page : pageSize ∣ physicalBase
  virtual_page : pageSize ∣ virtualBase
  size_page : pageSize ∣ memorySize
  positive : 0 < memorySize
  bounded : memorySize ≤ maxMemorySize
  word : virtualBase + memorySize < 2 ^ 64
  low : physicalBase + memorySize ≤ lowEnd
  high : highStart ≤ virtualBase

/-- The two root tables, with nothing in them. -/
def roots : Forest Nat Nat := { tables := [[0], [1]], leaves := [] }

/-- The tables of a run over the given RAM. -/
structure Built (physicalBase virtualBase memorySize : Nat) (f : Forest Nat Nat)
    (t : Arm64Stage1Tables) : Prop where
  tableBase : t.tableBase = physicalBase + memorySize
  ramBase : t.ramBase = physicalBase
  virtualBase : t.virtualBase = virtualBase
  memorySize : t.memorySize = memorySize
  represents : Represents t f

section Constructors

variable {physicalBase virtualBase memorySize : Nat}

theorem RamOk.requests_ok (ok : RamOk physicalBase virtualBase memorySize) :
    ∀ r ∈ ramRequests physicalBase virtualBase memorySize, r.Ok := by
  intro r mem
  obtain ⟨o, o_mem, r_mem⟩ := List.mem_flatMap.mp mem
  obtain ⟨page, below⟩ := (mem_stepBy (by decide)).mp o_mem
  have low := ok.low
  simp only [lowEnd] at low
  have pa_page := Nat.dvd_add ok.physical_page page
  have pa_small : physicalBase + o < paEnd := by
    simp only [paEnd]
    omega
  simp only [List.mem_cons, List.not_mem_nil, or_false] at r_mem
  obtain rfl | rfl := r_mem
  · exact ⟨Nat.zero_lt_two, pa_page, pa_small⟩
  · exact ⟨Nat.one_lt_two, pa_page, pa_small⟩

/-- Two zeroed root tables stand for a forest with nothing in it. -/
theorem represents_roots {t : Arm64Stage1Tables}
    (bytes : t.bytes = List.replicate pageSize 0 ++ List.replicate pageSize 0)
    (aligned : pageSize ∣ t.tableBase) (room : Room t.tableBase roots) : Represents t roots where
  length := by
    rw [bytes, List.length_append, List.length_replicate]
    rfl
  room := room
  aligned := aligned
  closed := by
    refine ⟨by decide, ?_, by decide, ?_, ?_, by decide⟩
    · intro i k mem
      simp only [roots, List.mem_cons, List.cons.injEq, List.not_mem_nil, or_false] at mem
      rcases mem with ⟨_, nil⟩ | ⟨_, nil⟩ <;> exact .inl nil
    · intro i k a mem
      cases mem
    · intro k a mem
      cases mem
  low := rfl
  high := rfl
  roots := by
    intro r mem
    simp only [roots, List.mem_cons, List.cons.injEq, and_true, List.not_mem_nil, or_false] at mem
    omega
  indices := by
    intro i k mem proper
    simp only [roots, List.mem_cons, List.cons.injEq, List.not_mem_nil, or_false] at mem
    rcases mem with ⟨_, nil⟩ | ⟨_, nil⟩ <;> exact absurd nil proper
  pages := by
    intro k pa mem
    cases mem
  slots := by
    intro n k there i below
    have fits := slot_fits there below
    rw [show roots.tables.length = 2 from rfl] at fits
    have vacant : roots.entry (i :: k) = .absent := by
      refine Forest.entry_eq_absent.mpr ⟨fun mem => ?_, rfl⟩
      simp only [roots, List.mem_cons, List.cons.injEq, List.not_mem_nil, or_false] at mem
      have deep : k ≠ [] := by
        rintro rfl
        simp [roots, List.getElem?_cons] at there
        split at there <;> simp at there
      rcases mem with ⟨_, nil⟩ | ⟨_, nil⟩ <;> exact deep nil
    rw [vacant, encode, bytes, ← List.replicate_add, window_replicate (by omega),
      fromLeBytes_eq_zero]
    exact fun b mem => List.eq_of_mem_replicate mem

/-- The two root tables are made one behind the other. -/
theorem allocateRoots {t : Arm64Stage1Tables} (empty : t.bytes = [])
    (room : Room t.tableBase roots) :
    t.allocateTable = .ok (0, { t with bytes := List.replicate pageSize 0 }) ∧
      allocateTable { t with bytes := List.replicate pageSize 0 } = .ok (pageSize,
        { t with bytes := List.replicate pageSize 0 ++ List.replicate pageSize 0 }) := by
  have below := room.2
  rw [show roots.tables.length * pageSize = pageSize + pageSize from rfl] at below
  constructor
  · rw [allocateTable_of_room (by rw [empty]; decide) (by rw [empty, List.length_nil]; omega),
      empty]
    rfl
  · have length : (List.replicate pageSize (0 : UInt8)).length = pageSize :=
      List.length_replicate
    rw [allocateTable_of_room (by rw [length]; decide) (by rw [length]; exact below), length]

/-- `new` returns tables exactly for ranges that it accepts and whose pages can be mapped. -/
theorem new_yields (physicalBase virtualBase memorySize : Nat) :
    Yields (RamOk physicalBase virtualBase memorySize ∧
        Mappable (physicalBase + memorySize) roots
          (ramRequests physicalBase virtualBase memorySize))
      (Built physicalBase virtualBase memorySize
        (mapAll roots (ramRequests physicalBase virtualBase memorySize)))
      (new physicalBase virtualBase memorySize) := by
  refine Yields.congr ?_ (Yields.guard fun aligned => Yields.guard fun sized =>
    (yields_checkedAdd _ _ _).bind_eq fun word => (yields_checkedAdd _ _ _).bind_eq fun word' =>
    Yields.guard (q := Mappable (physicalBase + memorySize) roots
      (ramRequests physicalBase virtualBase memorySize)) fun placed => ?_)
  · -- The tests, one by one, are the conditions.
    rw [not_not, or_and_eq_zero, or_and_eq_zero, and_pageSize, and_pageSize, and_pageSize]
    constructor
    · rintro ⟨⟨⟨physical, virtual⟩, size⟩, sized, -, word, placed, mappable⟩
      exact ⟨⟨physical, virtual, size, by omega, by omega, word, by omega, by omega⟩, mappable⟩
    · rintro ⟨ok, mappable⟩
      have positive := ok.positive
      have bounded := ok.bounded
      have low := ok.low
      have high := ok.high
      have low_word : lowEnd < 2 ^ 64 := by decide
      exact ⟨⟨⟨ok.physical_page, ok.virtual_page⟩, ok.size_page⟩, by omega, by omega, ok.word,
        by omega, mappable⟩
  · rw [not_not, or_and_eq_zero, or_and_eq_zero, and_pageSize, and_pageSize, and_pageSize]
      at aligned
    obtain ⟨⟨physical, virtual⟩, size⟩ := aligned
    have ok : RamOk physicalBase virtualBase memorySize :=
      ⟨physical, virtual, size, by omega, by omega, word', by omega, by omega⟩
    have low := ok.low
    have room : Room (physicalBase + memorySize) roots := by
      refine ⟨by decide, ?_⟩
      rw [show roots.tables.length * pageSize = 32768 from rfl]
      simp only [lowEnd, paEnd] at low ⊢
      omega
    have zeroed := allocateRoots
      (t := ⟨[], physicalBase + memorySize, physicalBase, virtualBase, memorySize⟩) rfl room
    refine .after_ok zeroed.1 (.after_ok zeroed.2 ?_)
    have words : ∀ o ∈ stepBy memorySize pageSize,
        physicalBase + o < 2 ^ 64 ∧ virtualBase + o < 2 ^ 64 := by
      intro o mem
      have below := ((mem_stepBy (by decide)).mp mem).2
      omega
    dsimp only
    rw [foldlM_mapBoth words]
    have start := represents_roots
      (t := ⟨_, physicalBase + memorySize, physicalBase, virtualBase, memorySize⟩) rfl
      (Nat.dvd_add physical size) room
    refine (mapRequests_yields start ok.requests_ok).imp ?_
    rintro t ⟨same, rep⟩
    exact ⟨by rw [same], by rw [same], by rw [same], by rw [same], rep⟩

/-- The aliases that `newWithAliases` accepts, one by one. -/
structure AliasOk (physicalBase virtualBase memorySize : Nat) (a : Stage1Alias) : Prop where
  virtual_page : pageSize ∣ a.virtualBase
  physical_page : pageSize ∣ a.physicalBase
  size_page : pageSize ∣ a.bytes
  positive : 0 < a.bytes
  bounded : a.bytes ≤ maxAliasBytes
  high : highStart ≤ a.virtualBase
  word : a.virtualBase + a.bytes < 2 ^ 64
  above : physicalBase ≤ a.physicalBase
  below : a.physicalBase + a.bytes ≤ physicalBase + memorySize
  apart : ¬ rangesOverlap a.virtualBase (a.virtualBase + a.bytes) virtualBase
    (virtualBase + memorySize)

/-- Two aliases that the check for overlaps lets pass. -/
def Clear (a b : Stage1Alias) : Prop :=
  ¬ rangesOverlap a.virtualBase (a.virtualBase + a.bytes) b.virtualBase (b.virtualBase + b.bytes)

section Aliases

variable {earlier : List Stage1Alias} {a : Stage1Alias}

/-- The check for overlaps never fails, and finds one exactly when there is one. -/
theorem overlapsAny_eq (words : ∀ b ∈ earlier, b.virtualBase + b.bytes < 2 ^ 64)
    (virtualBase linearEnd : Nat) :
    ∃ overlaps, overlapsAny virtualBase linearEnd earlier a (a.virtualBase + a.bytes) =
        .ok overlaps ∧
      (¬ overlaps = true ↔
        ¬ rangesOverlap a.virtualBase (a.virtualBase + a.bytes) virtualBase linearEnd ∧
          ∀ b ∈ earlier, Clear a b) := by
  have each : ∀ b ∈ earlier, overlapsEarlier a (a.virtualBase + a.bytes) b =
      .ok (decide (rangesOverlap a.virtualBase (a.virtualBase + a.bytes) b.virtualBase
        (b.virtualBase + b.bytes))) := by
    intro b mem
    rw [overlapsEarlier, add_of_lt (words b mem), bind_ok, pure_eq]
  unfold overlapsAny
  split
  · exact ⟨true, rfl, by simp [*]⟩
  · refine ⟨_, anyM_of each, ?_⟩
    rw [List.any_eq_true, not_exists]
    simp only [decide_eq_true_eq, not_and, Clear, *, not_false_eq_true, true_and]

theorem checkAlias_yields (fits : physicalBase + memorySize < 2 ^ 64)
    (words : ∀ b ∈ earlier, b.virtualBase + b.bytes < 2 ^ 64) :
    Yields (AliasOk physicalBase virtualBase memorySize a ∧ ∀ b ∈ earlier, Clear a b)
      (fun _ => True)
      (checkAlias physicalBase (physicalBase + memorySize) virtualBase (virtualBase + memorySize)
        earlier a) := by
  obtain ⟨overlaps, found, clear⟩ := overlapsAny_eq (a := a) words virtualBase
    (virtualBase + memorySize)
  refine Yields.congr ?_ (Yields.guard fun _ => Yields.guard fun _ =>
    (yields_checkedAdd _ _ _).bind_eq fun _ => (yields_checkedAdd _ _ _).bind_eq fun _ =>
    Yields.guard fun _ => .after_ok found (yields_rejectIf _))
  rw [not_not, or_and_eq_zero, or_and_eq_zero, and_pageSize, and_pageSize, and_pageSize, clear]
  constructor
  · rintro ⟨⟨⟨virtual, physical⟩, size⟩, sized, word, -, within, apart, others⟩
    exact ⟨⟨virtual, physical, size, by omega, by omega, by omega, word, by omega, by omega,
      apart⟩, others⟩
  · rintro ⟨ok, others⟩
    have positive := ok.positive
    have bounded := ok.bounded
    have high := ok.high
    have above := ok.above
    have below := ok.below
    exact ⟨⟨⟨ok.virtual_page, ok.physical_page⟩, ok.size_page⟩, by omega, ok.word, by omega,
      by omega, ok.apart, others⟩

/-- The loop over the aliases passes exactly when each of them is accepted and clear of the
earlier ones. -/
theorem checkAliases_yields (fits : physicalBase + memorySize < 2 ^ 64)
    (earlier aliases : List Stage1Alias) (words : ∀ b ∈ earlier, b.virtualBase + b.bytes < 2 ^ 64) :
    Yields ((∀ a ∈ aliases, AliasOk physicalBase virtualBase memorySize a) ∧
        (∀ a ∈ aliases, ∀ b ∈ earlier, Clear a b) ∧ aliases.Pairwise fun b a => Clear a b)
      (fun _ => True)
      (checkAliases physicalBase (physicalBase + memorySize) virtualBase
        (virtualBase + memorySize) earlier aliases) := by
  induction aliases generalizing earlier with
  | nil =>
      refine Yields.congr ?_ (yields_ok trivial)
      simp
  | cons a rest ih =>
      rw [checkAliases]
      refine Yields.congr ?_ ((checkAlias_yields fits words).bind fun passed _ _ =>
        ih (earlier ++ [a]) ?_)
      · -- What is clear of the earlier ones and of `a` is clear of all that come before.
        simp only [List.forall_mem_cons, List.forall_mem_append, List.pairwise_cons,
          List.not_mem_nil, false_implies, implies_true, and_true]
        constructor
        · rintro ⟨⟨ok, clear⟩, oks, clears, pairs⟩
          exact ⟨⟨ok, oks⟩, ⟨clear, fun b mem => (clears b mem).1⟩,
            fun b mem => (clears b mem).2, pairs⟩
        · rintro ⟨⟨ok, oks⟩, ⟨clear, clears⟩, heads, pairs⟩
          exact ⟨⟨ok, clear⟩, oks, fun b mem => ⟨clears b mem, heads b mem⟩, pairs⟩
      · rw [List.forall_mem_append]
        exact ⟨words, List.forall_mem_singleton.mpr passed.1.word⟩

theorem AliasOk.requests_ok (low : physicalBase + memorySize ≤ lowEnd)
    (ok : AliasOk physicalBase virtualBase memorySize a) :
    ∀ r ∈ rangeRequests 1 a.virtualBase a.physicalBase a.bytes, r.Ok := by
  intro r mem
  obtain ⟨o, o_mem, rfl⟩ := List.mem_map.mp mem
  obtain ⟨page, below⟩ := (mem_stepBy (by decide)).mp o_mem
  have inside := ok.below
  simp only [lowEnd] at low
  refine ⟨Nat.one_lt_two, Nat.dvd_add ok.physical_page page, ?_⟩
  simp only [paEnd]
  omega

/-- The loop over the aliases is a run of requests. -/
theorem foldlM_mapAlias {t : Arm64Stage1Tables} {aliases : List Stage1Alias}
    (words : ∀ a ∈ aliases, a.virtualBase + a.bytes < 2 ^ 64 ∧ a.physicalBase + a.bytes < 2 ^ 64) :
    aliases.foldlM mapAlias t = mapRequests t (aliasRequests aliases) := by
  induction aliases generalizing t with
  | nil => rfl
  | cons a rest ih =>
      obtain ⟨⟨va_word, pa_word⟩, rest_words⟩ := List.forall_mem_cons.mp words
      have offsets : ∀ o ∈ stepBy a.bytes pageSize,
          a.virtualBase + o < 2 ^ 64 ∧ a.physicalBase + o < 2 ^ 64 := by
        intro o mem
        have below := ((mem_stepBy (by decide)).mp mem).2
        omega
      rw [List.foldlM_cons, mapAlias, foldlM_mapAliasPage offsets, aliasRequests,
        List.flatMap_cons, mapRequests, mapRequests, List.foldlM_append]
      congr 1
      funext t'
      exact ih rest_words

end Aliases

/-- `newWithAliases` returns tables exactly for at most two aliases that it accepts, of RAM
that `new` accepts, when every page of both can be mapped. -/
theorem newWithAliases_yields (physicalBase virtualBase memorySize : Nat)
    (aliases : List Stage1Alias) :
    Yields (aliases.length ≤ 2 ∧ RamOk physicalBase virtualBase memorySize ∧
        (∀ a ∈ aliases, AliasOk physicalBase virtualBase memorySize a) ∧
        (aliases.Pairwise fun b a => Clear a b) ∧
        Mappable (physicalBase + memorySize) roots
          (ramRequests physicalBase virtualBase memorySize ++ aliasRequests aliases))
      (Built physicalBase virtualBase memorySize
        (mapAll roots (ramRequests physicalBase virtualBase memorySize ++ aliasRequests aliases)))
      (newWithAliases physicalBase virtualBase memorySize aliases) := by
  refine Yields.congr ?_ (Yields.guard fun few => (yields_checkedAdd _ _ _).bind_eq fun fits =>
    (yields_checkedAdd _ _ _).bind_eq fun _ =>
    (checkAliases_yields fits [] aliases (by simp)).bind fun passed _ _ =>
    (new_yields physicalBase virtualBase memorySize).bind (q := Mappable
      (physicalBase + memorySize) (mapAll roots (ramRequests physicalBase virtualBase memorySize))
      (aliasRequests aliases)) fun made t built => ?_)
  · rw [mappable_append]
    constructor
    · rintro ⟨few, -, -, ⟨oks, -, pairs⟩, ⟨ok, mappable⟩, mappable'⟩
      exact ⟨by omega, ok, oks, pairs, mappable, mappable'⟩
    · rintro ⟨few, ok, oks, pairs, mappable, mappable'⟩
      have low := ok.low
      have low_word : lowEnd < 2 ^ 64 := by decide
      exact ⟨by omega, by omega, ok.word, ⟨oks, by simp, pairs⟩, ⟨ok, mappable⟩, mappable'⟩
  · obtain ⟨oks, -, -⟩ := passed
    have low := made.1.low
    have words : ∀ a ∈ aliases,
        a.virtualBase + a.bytes < 2 ^ 64 ∧ a.physicalBase + a.bytes < 2 ^ 64 := by
      intro a mem
      have below := (oks a mem).below
      exact ⟨(oks a mem).word, by omega⟩
    have requests_ok : ∀ r ∈ aliasRequests aliases, r.Ok := by
      intro r mem
      obtain ⟨a, a_mem, r_mem⟩ := List.mem_flatMap.mp mem
      exact (oks a a_mem).requests_ok low r r_mem
    rw [foldlM_mapAlias words, mapAll_append, ← built.tableBase]
    refine (mapRequests_yields built.represents requests_ok).imp fun t' ⟨same, rep⟩ => ?_
    exact ⟨by rw [same, built.tableBase], by rw [same, built.ramBase],
      by rw [same, built.virtualBase], by rw [same, built.memorySize], rep⟩

end Constructors

end Nextcore.Stage1
