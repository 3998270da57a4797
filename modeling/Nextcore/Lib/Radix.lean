import Mathlib.Data.List.Basic
import Mathlib.Data.List.Nodup
import Mathlib.Tactic.Common

/-!
Radix tables: a forest of tables, each slot of which is empty, holds a table of the
next level, or holds a value.

A table or a value is named by the path that leads to it, innermost slot first: what slot
`i` of the table at `k` holds is named `i :: k`, and the root tables have paths of length
one. A `Forest` lists the tables in the order in which they were made, and the values with
their paths; `entry` reads a slot back from that. Making tables on the way to a slot
(`descend`, `reach`) and putting a value there (`insert`) keep it closed, and in a closed
forest walking down from a root finds exactly the listed values (`walk_eq`).
-/

namespace Radix

/-- What a slot holds: nothing, the `n`-th table, or a value. -/
inductive Entry (α : Type) where
  | absent
  | table (n : Nat)
  | leaf (value : α)
  deriving DecidableEq, Repr

structure Forest (ι α : Type) where
  tables : List (List ι)
  leaves : List (List ι × α)

namespace Forest

variable {ι α : Type}

def addTable (f : Forest ι α) (k : List ι) : Forest ι α := { f with tables := f.tables ++ [k] }

def addLeaf (f : Forest ι α) (k : List ι) (a : α) : Forest ι α :=
  { f with leaves := f.leaves ++ [(k, a)] }

@[simp] theorem addTable_tables (f : Forest ι α) (k : List ι) :
    (f.addTable k).tables = f.tables ++ [k] := rfl
@[simp] theorem addTable_leaves (f : Forest ι α) (k : List ι) :
    (f.addTable k).leaves = f.leaves := rfl
@[simp] theorem addLeaf_tables (f : Forest ι α) (k : List ι) (a : α) :
    (f.addLeaf k a).tables = f.tables := rfl
@[simp] theorem addLeaf_leaves (f : Forest ι α) (k : List ι) (a : α) :
    (f.addLeaf k a).leaves = f.leaves ++ [(k, a)] := rfl

variable [DecidableEq ι]

/-- The value at a path. -/
def leafAt (f : Forest ι α) (k : List ι) : Option α := f.leaves.lookup k

/-- What the slot with this path holds. -/
def entry (f : Forest ι α) (k : List ι) : Entry α :=
  if k ∈ f.tables then .table (f.tables.idxOf k)
  else match f.leafAt k with
    | some a => .leaf a
    | none => .absent

/-- Make the table at `k` unless it is there. -/
def descend (f : Forest ι α) (k : List ι) : Forest ι α :=
  if k ∈ f.tables then f else f.addTable k

/-- Make every table on the way down from `k`. -/
def reach (f : Forest ι α) (k : List ι) : List ι → Forest ι α
  | [] => f
  | i :: rest => (f.descend (i :: k)).reach (i :: k) rest

/-- The tables on the way down from `k`. -/
def way (k : List ι) : List ι → List (List ι)
  | [] => []
  | i :: rest => (i :: k) :: way (i :: k) rest

/-- Follow a path down from the table at `k`. -/
def walk (f : Forest ι α) (k : List ι) : List ι → Option α
  | [] => none
  | [i] => f.leafAt (i :: k)
  | i :: rest => if i :: k ∈ f.tables then f.walk (i :: k) rest else none

/-- Put a value in slot `i` of the table at the end of a path, with every table on the way. -/
def insert (f : Forest ι α) (k path : List ι) (i : ι) (a : α) : Forest ι α :=
  (f.reach k path).addLeaf (i :: (path.reverse ++ k)) a

/-- Tables hang below tables down to the depth, and values below tables of that depth, each
path being used once. -/
structure Closed (depth : Nat) (f : Forest ι α) : Prop where
  distinct : f.tables.Nodup
  rooted : ∀ i k, i :: k ∈ f.tables → k = [] ∨ k ∈ f.tables
  shallow : ∀ k ∈ f.tables, 0 < k.length ∧ k.length ≤ depth
  placed : ∀ i k a, (i :: k, a) ∈ f.leaves → k ∈ f.tables
  deep : ∀ k a, (k, a) ∈ f.leaves → k.length = depth + 1
  unique : (f.leaves.map Prod.fst).Nodup

section Reading

variable {f : Forest ι α} {k k' : List ι} {a : α} {depth : Nat}

theorem entry_of_mem (mem : k ∈ f.tables) : f.entry k = .table (f.tables.idxOf k) := if_pos mem

theorem entry_of_notMem (new : k ∉ f.tables) :
    f.entry k = match f.leafAt k with
      | some a => .leaf a
      | none => .absent :=
  if_neg new

theorem entry_eq_absent : f.entry k = .absent ↔ k ∉ f.tables ∧ f.leafAt k = none := by
  unfold entry
  split
  · simp_all
  · split <;> simp_all

theorem leafAt_of_entry (holds : f.entry k = .leaf a) : f.leafAt k = some a := by
  unfold entry at holds
  split at holds
  · cases holds
  · split at holds
    · cases holds
      assumption
    · cases holds

/-- A slot that holds a table holds the one with its path. -/
theorem entry_eq_table {n : Nat} (distinct : f.tables.Nodup) :
    f.entry k = .table n ↔ f.tables[n]? = some k := by
  constructor
  · intro holds
    unfold entry at holds
    split at holds
    · rename_i mem
      cases holds
      exact List.getElem?_idxOf mem
    · split at holds <;> cases holds
  · intro there
    obtain ⟨below, rfl⟩ := List.getElem?_eq_some_iff.mp there
    rw [entry_of_mem (List.getElem_mem below), distinct.idxOf_getElem]

theorem leafAt_eq_some (unique : (f.leaves.map Prod.fst).Nodup) :
    f.leafAt k = some a ↔ (k, a) ∈ f.leaves := by
  rw [leafAt, List.lookup_eq_some_iff]
  constructor
  · rintro ⟨before, after, eq, _⟩
    rw [eq]
    simp
  · intro mem
    obtain ⟨before, after, eq⟩ := List.append_of_mem mem
    refine ⟨before, after, eq, fun p p_mem => ?_⟩
    rw [eq, List.map_append, List.map_cons, List.nodup_append] at unique
    have ne := unique.2.2 p.1 (List.mem_map_of_mem p_mem) k (by simp)
    simpa using ne.symm

theorem leafAt_eq_none : f.leafAt k = none ↔ k ∉ f.leaves.map Prod.fst := by
  rw [leafAt, List.lookup_eq_none_iff]
  simp only [List.mem_map, not_exists, not_and, bne_iff_ne, ne_eq]
  exact ⟨fun all p mem eq => all p mem eq.symm, fun all p mem eq => all p mem eq.symm⟩

theorem Closed.leafAt_of_length (closed : f.Closed depth) (short : k.length ≠ depth + 1) :
    f.leafAt k = none := by
  rw [leafAt_eq_none]
  intro placed
  obtain ⟨⟨k', a⟩, leaf_mem, rfl⟩ := List.mem_map.mp placed
  exact short (closed.deep k' a leaf_mem)

/-- A slot with a value is one of the lowest. -/
theorem Closed.length_of_leaf (closed : f.Closed depth) (holds : f.entry k = .leaf a) :
    k.length = depth + 1 :=
  closed.deep k a ((leafAt_eq_some closed.unique).mp (leafAt_of_entry holds))

/-- Below a path that has no table there is nothing. -/
theorem Closed.entry_below (closed : f.Closed depth) {i : ι} (proper : k ≠ [])
    (new : k ∉ f.tables) : f.entry (i :: k) = .absent := by
  rw [entry_eq_absent, leafAt_eq_none]
  constructor
  · intro mem
    exact (closed.rooted i k mem).elim proper new
  · intro placed
    obtain ⟨⟨k', a⟩, leaf_mem, rfl⟩ := List.mem_map.mp placed
    exact new (closed.placed i k a leaf_mem)

/-- Walking down finds the value at the end of the path. -/
theorem walk_eq (closed : f.Closed depth) {path : List ι} (some' : path ≠ []) :
    f.walk k path = f.leafAt (path.reverse ++ k) := by
  fun_induction f.walk k path with
  | case1 => exact absurd rfl some'
  | case2 k i => rfl
  | case3 k i rest not_last mem ih =>
      rw [ih not_last, List.reverse_cons, List.append_assoc, List.singleton_append]
  | case4 k i rest not_last new =>
      -- A value below would have its tables all the way up.
      rw [eq_comm, leafAt_eq_none]
      intro placed
      obtain ⟨⟨key, a⟩, leaf_mem, eq⟩ := List.mem_map.mp placed
      dsimp only at eq
      have above : ∀ way : List ι, way ++ i :: k ∈ f.tables → i :: k ∈ f.tables := by
        intro way
        induction way with
        | nil => exact id
        | cons j way ih =>
            intro mem
            rcases closed.rooted j _ mem with none | mem'
            · simp at none
            · exact ih mem'
      rw [List.reverse_cons, List.append_assoc, List.singleton_append] at eq
      obtain ⟨j, way, way_eq⟩ : ∃ j way, rest.reverse = j :: way := by
        cases rev : rest.reverse with
        | nil => exact absurd (List.reverse_eq_nil_iff.mp rev) not_last
        | cons j way => exact ⟨j, way, rfl⟩
      rw [way_eq, List.cons_append] at eq
      subst eq
      exact new (above way (closed.placed j _ a leaf_mem))

end Reading

/-! ### Growing -/

section Growing

variable {f : Forest ι α} {k k' : List ι} {a : α} {depth : Nat}

/-- A new table shows in the slot that leads to it, and no other slot changes. -/
theorem entry_addTable (new : k ∉ f.tables) :
    (f.addTable k).entry k' = if k' = k then .table f.tables.length else f.entry k' := by
  unfold entry
  rw [addTable_tables]
  by_cases same : k' = k
  · subst same
    rw [if_pos (by simp), if_pos rfl, List.idxOf_append_of_notMem new, List.idxOf_cons_self,
      Nat.add_zero]
  · rw [if_neg same]
    by_cases mem : k' ∈ f.tables
    · rw [if_pos (List.mem_append_left _ mem), if_pos mem, List.idxOf_append_of_mem mem]
    · rw [if_neg (by simp [mem, same]), if_neg mem]
      rfl

/-- A new value shows in its slot, and no other slot changes. -/
theorem entry_addLeaf (vacant : f.entry k = .absent) :
    (f.addLeaf k a).entry k' = if k' = k then .leaf a else f.entry k' := by
  obtain ⟨new, free⟩ := entry_eq_absent.mp vacant
  have lookup : (f.addLeaf k a).leafAt k' =
      (f.leafAt k').or (if k' = k then some a else none) := by
    rw [leafAt, addLeaf_leaves, List.lookup_append, leafAt]
    by_cases same : k' = k
    · subst same
      rw [List.lookup_cons_self, if_pos rfl]
    · rw [List.lookup_cons, beq_eq_false_iff_ne.mpr same, if_neg same, List.lookup_nil]
  unfold entry
  rw [addLeaf_tables, lookup]
  by_cases same : k' = k
  · subst same
    simp [new, free]
  · simp [same]

omit [DecidableEq ι] in
theorem Closed.addTable (closed : f.Closed depth) {i : ι} {k : List ι} (parent : k ∈ f.tables)
    (new : i :: k ∉ f.tables) (room : k.length < depth) : (f.addTable (i :: k)).Closed depth where
  distinct := by
    rw [addTable_tables, List.nodup_append]
    refine ⟨closed.distinct, List.nodup_singleton _, ?_⟩
    rintro a mem b b_mem rfl
    rw [List.mem_singleton] at b_mem
    exact new (b_mem ▸ mem)
  rooted := by
    intro j k' mem
    rw [addTable_tables, List.mem_append, List.mem_singleton] at mem ⊢
    rcases mem with old | eq
    · exact (closed.rooted j k' old).imp id .inl
    · cases eq
      exact .inr (.inl parent)
  shallow := by
    intro k' mem
    rw [addTable_tables, List.mem_append, List.mem_singleton] at mem
    rcases mem with old | rfl
    · exact closed.shallow k' old
    · rw [List.length_cons]
      omega
  placed := fun j k' a mem => List.mem_append_left _ (closed.placed j k' a mem)
  deep := closed.deep
  unique := closed.unique

theorem Closed.addLeaf (closed : f.Closed depth) {i : ι} {k : List ι} (parent : k ∈ f.tables)
    (free : f.leafAt (i :: k) = none) (last : k.length = depth) :
    (f.addLeaf (i :: k) a).Closed depth where
  distinct := closed.distinct
  rooted := closed.rooted
  shallow := closed.shallow
  placed := by
    intro j k' b mem
    rw [addLeaf_leaves, List.mem_append, List.mem_singleton] at mem
    rcases mem with old | eq
    · exact closed.placed j k' b old
    · cases eq
      exact parent
  deep := by
    intro k' b mem
    rw [addLeaf_leaves, List.mem_append, List.mem_singleton] at mem
    rcases mem with old | eq
    · exact closed.deep k' b old
    · cases eq
      rw [List.length_cons, last]
  unique := by
    rw [addLeaf_leaves, List.map_append, List.nodup_append]
    refine ⟨closed.unique, List.nodup_singleton _, ?_⟩
    rintro b mem c c_mem rfl
    rw [List.map_singleton, List.mem_singleton] at c_mem
    subst c_mem
    exact leafAt_eq_none.mp free mem

/-- Going one level down keeps the forest closed, and the table is there afterwards. -/
theorem Closed.descend (closed : f.Closed depth) {i : ι} {k : List ι} (parent : k ∈ f.tables)
    (room : k.length < depth) :
    (f.descend (i :: k)).Closed depth ∧ i :: k ∈ (f.descend (i :: k)).tables := by
  unfold Forest.descend
  split
  · exact ⟨closed, ‹_›⟩
  · exact ⟨closed.addTable parent ‹_› room, by simp⟩

@[simp] theorem descend_leaves (f : Forest ι α) (k : List ι) : (f.descend k).leaves = f.leaves := by
  unfold descend
  split <;> rfl

theorem length_descend_le (f : Forest ι α) (k : List ι) :
    f.tables.length ≤ (f.descend k).tables.length := by
  unfold descend
  split <;> simp

@[simp] theorem reach_leaves (f : Forest ι α) (k path : List ι) :
    (f.reach k path).leaves = f.leaves := by
  induction path generalizing f k with
  | nil => rfl
  | cons i rest ih => rw [reach, ih, descend_leaves]

theorem mem_descend : k' ∈ (f.descend k).tables ↔ k' ∈ f.tables ∨ k' = k := by
  unfold descend
  split
  · rename_i mem
    constructor
    · exact .inl
    · rintro (old | rfl)
      · exact old
      · exact mem
  · rw [addTable_tables, List.mem_append, List.mem_singleton]

/-- The tables afterwards are those before and those on the way. -/
theorem mem_reach {path : List ι} :
    k' ∈ (f.reach k path).tables ↔ k' ∈ f.tables ∨ k' ∈ way k path := by
  induction path generalizing f k with
  | nil => simp [reach, way]
  | cons i rest ih => rw [reach, ih, mem_descend, way, List.mem_cons, or_assoc]

theorem nodup_descend (distinct : f.tables.Nodup) (k : List ι) : (f.descend k).tables.Nodup := by
  unfold descend
  split
  · exact distinct
  · rw [addTable_tables]
    exact List.nodup_append_comm.mp (List.nodup_cons.mpr ⟨‹_›, distinct⟩)

theorem nodup_reach (distinct : f.tables.Nodup) (k path : List ι) :
    (f.reach k path).tables.Nodup := by
  induction path generalizing f k with
  | nil => exact distinct
  | cons i rest ih => exact ih (nodup_descend distinct _) _

/-- Going down a path keeps the forest closed, and its last table is there afterwards. -/
theorem Closed.reach (closed : f.Closed depth) {k path : List ι} (parent : k ∈ f.tables)
    (room : k.length + path.length ≤ depth) :
    (f.reach k path).Closed depth ∧ path.reverse ++ k ∈ (f.reach k path).tables := by
  induction path generalizing f k with
  | nil => exact ⟨closed, parent⟩
  | cons i rest ih =>
      rw [List.length_cons] at room
      obtain ⟨closed', there⟩ := closed.descend (i := i) parent (by omega)
      rw [Forest.reach, List.reverse_cons, List.append_assoc, List.singleton_append]
      exact ih closed' there (by rw [List.length_cons]; omega)

@[simp] theorem insert_leaves (f : Forest ι α) (k path : List ι) (i : ι) (a : α) :
    (f.insert k path i a).leaves = f.leaves ++ [(i :: (path.reverse ++ k), a)] := by
  rw [insert, addLeaf_leaves, reach_leaves]

theorem leafAt_reach (f : Forest ι α) (k path k' : List ι) :
    (f.reach k path).leafAt k' = f.leafAt k' := by
  rw [leafAt, reach_leaves, leafAt]

/-- A value at a path that has none keeps the forest closed. -/
theorem Closed.insert (closed : f.Closed depth) {k path : List ι} {i : ι} (parent : k ∈ f.tables)
    (room : k.length + path.length = depth)
    (free : f.leafAt (i :: (path.reverse ++ k)) = none) :
    (f.insert k path i a).Closed depth := by
  obtain ⟨closed', there⟩ := closed.reach parent (Nat.le_of_eq room)
  refine closed'.addLeaf there ?_ ?_
  · rw [leafAt_reach, free]
  · rw [List.length_append, List.length_reverse, Nat.add_comm, room]

end Growing

end Forest

end Radix
