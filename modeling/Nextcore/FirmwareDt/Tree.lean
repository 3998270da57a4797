import Nextcore.FirmwareDt.Parse
import Nextcore.Lib.Prefix
import Mathlib.Algebra.Order.BigOperators.Group.List
import Mathlib.Algebra.Order.Ring.Nat

/-!
Firmware trees, apart from the parser.

`serialize` writes a parsed tree back. `PlacedAt` says that every offset in a tree is where its
node or property stands when the tree is written from a given place on, and `statisticsOf` counts
what the parser counts. A `Grammatical` tree satisfies the format everywhere and stays within the
limits.
-/

namespace Nextcore.FirmwareDt

open Checked

/-! ### Serialization -/

def FirmwareProperty.serialize (p : FirmwareProperty) : Bytes :=
  p.rawName ++ toLeBytes 4 p.rawLength ++ p.value ++ p.padding

/-- What stands in front of the children of a node. -/
def serializeHeader (properties : List FirmwareProperty) (children : Nat) : Bytes :=
  toLeBytes 4 properties.length ++ toLeBytes 4 children ++
    properties.flatMap FirmwareProperty.serialize

mutual

def FirmwareNode.serialize : FirmwareNode → Bytes
  | ⟨_, properties, children⟩ =>
    serializeHeader properties children.length ++ serializeAll children

/-- The nodes one behind the other. -/
def serializeAll : List FirmwareNode → Bytes
  | [] => []
  | node :: rest => node.serialize ++ serializeAll rest

end

theorem length_serializeHeader {properties : List FirmwareProperty} {children : Nat} :
    (serializeHeader properties children).length =
      8 + (properties.flatMap FirmwareProperty.serialize).length := by
  simp only [serializeHeader, List.length_append, length_toLeBytes]

/-! ### Positions -/

/-- The properties stand one behind the other from `start` on. -/
def PropertiesPlacedAt : List FirmwareProperty → (start : Nat) → Prop
  | [], _ => True
  | p :: rest, start => p.offset = start ∧ PropertiesPlacedAt rest (start + p.serialize.length)

mutual

/-- The node stands at `start`, its properties behind its two counts, and its children behind
its properties. -/
def FirmwareNode.PlacedAt : FirmwareNode → (start : Nat) → Prop
  | ⟨offset, properties, children⟩, start =>
    offset = start ∧ PropertiesPlacedAt properties (start + 8) ∧
      AllPlacedAt children (start + (serializeHeader properties children.length).length)

def AllPlacedAt : List FirmwareNode → (start : Nat) → Prop
  | [], _ => True
  | node :: rest, start => node.PlacedAt start ∧ AllPlacedAt rest (start + node.serialize.length)

end

mutual

/-- The offsets of a tree, in document order: a node, its properties, its children. -/
def FirmwareNode.offsets : FirmwareNode → List Nat
  | ⟨offset, properties, children⟩ =>
    offset :: (properties.map (·.offset) ++ allOffsets children)

def allOffsets : List FirmwareNode → List Nat
  | [] => []
  | node :: rest => node.offsets ++ allOffsets rest

end

/-- Offsets that ascend within a range. -/
structure Ascending (offsets : List Nat) (start stop : Nat) : Prop where
  ordered : offsets.Pairwise (· < ·)
  within : ∀ offset ∈ offsets, start ≤ offset ∧ offset < stop

theorem Ascending.append {front back : List Nat} {start middle stop : Nat}
    (before : Ascending front start middle) (behind : Ascending back middle stop)
    (forward : start ≤ middle) (onward : middle ≤ stop) : Ascending (front ++ back) start stop where
  ordered := by
    refine List.pairwise_append.mpr ⟨before.ordered, behind.ordered, fun a ha b hb => ?_⟩
    exact Nat.lt_of_lt_of_le (before.within a ha).2 (behind.within b hb).1
  within := by
    refine List.forall_mem_append.mpr ⟨fun a ha => ?_, fun b hb => ?_⟩
    · exact ⟨(before.within a ha).1, Nat.lt_of_lt_of_le (before.within a ha).2 onward⟩
    · exact ⟨forward.trans (behind.within b hb).1, (behind.within b hb).2⟩

theorem ascending_nil (start stop : Nat) : Ascending [] start stop :=
  ⟨List.Pairwise.nil, by simp⟩

theorem ascending_singleton {start stop : Nat} (inside : start < stop) :
    Ascending [start] start stop :=
  ⟨List.pairwise_singleton .., by simpa using inside⟩

theorem ascending_properties {properties : List FirmwareProperty} {start : Nat}
    (placed : PropertiesPlacedAt properties start) :
    Ascending (properties.map (·.offset)) start
      (start + (properties.flatMap FirmwareProperty.serialize).length) := by
  induction properties generalizing start with
  | nil => exact ascending_nil ..
  | cons p rest ih =>
      obtain ⟨here, placed⟩ := placed
      have some : 4 ≤ p.serialize.length := by
        simp only [FirmwareProperty.serialize, List.length_append, length_toLeBytes]
        omega
      rw [List.map_cons, here, List.flatMap_cons, List.length_append, ← Nat.add_assoc]
      exact (ascending_singleton (by omega)).append (ih placed) (Nat.le_add_right ..)
        (Nat.le_add_right ..)

mutual

theorem ascending_node : ∀ (node : FirmwareNode) {start : Nat}, node.PlacedAt start →
    Ascending node.offsets start (start + node.serialize.length)
  | ⟨offset, properties, children⟩, start, placed => by
    rw [FirmwareNode.PlacedAt] at placed
    obtain ⟨rfl, listed, below⟩ := placed
    have own := ascending_properties listed
    have others := ascending_all children below
    rw [length_serializeHeader, ← Nat.add_assoc] at others
    rw [FirmwareNode.offsets, FirmwareNode.serialize, List.length_append, length_serializeHeader,
      ← Nat.add_assoc, ← Nat.add_assoc, ← List.singleton_append]
    refine (ascending_singleton (by omega : offset < offset + 8)).append ?_ (Nat.le_add_right ..)
      (by omega)
    exact own.append others (Nat.le_add_right ..) (Nat.le_add_right ..)

theorem ascending_all : ∀ (nodes : List FirmwareNode) {start : Nat}, AllPlacedAt nodes start →
    Ascending (allOffsets nodes) start (start + (serializeAll nodes).length)
  | [], start, _ => ascending_nil ..
  | node :: rest, start, placed => by
    rw [AllPlacedAt] at placed
    rw [allOffsets, serializeAll, List.length_append, ← Nat.add_assoc]
    exact (ascending_node node placed.1).append (ascending_all rest placed.2)
      (Nat.le_add_right ..) (Nat.le_add_right ..)

end

/-! ### Statistics -/

mutual

/-- The nodes of a tree whose root is at the given depth, in document order, with their depths. -/
def FirmwareNode.nodesFrom : FirmwareNode → (depth : Nat) → List (Nat × FirmwareNode)
  | ⟨offset, properties, children⟩, depth =>
    (depth, ⟨offset, properties, children⟩) :: allNodesFrom children (depth + 1)

def allNodesFrom : List FirmwareNode → (depth : Nat) → List (Nat × FirmwareNode)
  | [], _ => []
  | node :: rest, depth => node.nodesFrom depth ++ allNodesFrom rest depth

end

def templatesIn (properties : List FirmwareProperty) : Nat :=
  properties.countP fun p => p.kind = .template

/-- The statistics of some nodes, from the nodes themselves. -/
def statisticsOf (nodes : List (Nat × FirmwareNode)) : FirmwareDtStatistics where
  nodes := nodes.length
  properties := (nodes.map fun entry => entry.2.properties.length).sum
  templates := (nodes.map fun entry => templatesIn entry.2.properties).sum
  maximumDepth := (nodes.map (·.1)).foldr max 0

/-- Statistics of two parts, together. -/
def FirmwareDtStatistics.plus (a b : FirmwareDtStatistics) : FirmwareDtStatistics where
  nodes := a.nodes + b.nodes
  properties := a.properties + b.properties
  templates := a.templates + b.templates
  maximumDepth := max a.maximumDepth b.maximumDepth

theorem FirmwareDtStatistics.plus_assoc (a b c : FirmwareDtStatistics) :
    (a.plus b).plus c = a.plus (b.plus c) := by
  simp only [plus, Nat.add_assoc, Nat.max_assoc]

@[simp] theorem FirmwareDtStatistics.empty_plus (a : FirmwareDtStatistics) : empty.plus a = a := by
  simp [plus, empty]

@[simp] theorem FirmwareDtStatistics.plus_empty (a : FirmwareDtStatistics) : a.plus empty = a := by
  simp [plus, empty]

@[simp] theorem statisticsOf_nil : statisticsOf [] = .empty := rfl

theorem foldr_max (list : List Nat) (bound : Nat) :
    list.foldr max bound = max (list.foldr max 0) bound := by
  induction list with
  | nil => simp
  | cons a rest ih => rw [List.foldr_cons, List.foldr_cons, ih, Nat.max_assoc]

theorem statisticsOf_append (nodes nodes' : List (Nat × FirmwareNode)) :
    statisticsOf (nodes ++ nodes') = (statisticsOf nodes).plus (statisticsOf nodes') := by
  simp only [statisticsOf, FirmwareDtStatistics.plus, List.length_append, List.map_append,
    List.sum_append, List.foldr_append]
  rw [foldr_max]

theorem templatesIn_le (properties : List FirmwareProperty) :
    templatesIn properties ≤ properties.length := List.countP_le_length

/-- Templates are properties. -/
theorem templates_le_properties (nodes : List (Nat × FirmwareNode)) :
    (statisticsOf nodes).templates ≤ (statisticsOf nodes).properties :=
  List.sum_le_sum fun entry _ => templatesIn_le entry.2.properties

/-! ### All properties -/

theorem kind_eq_literal {p : FirmwareProperty} (word : p.rawLength < 2 ^ 32) :
    p.kind = .literal ↔ p.rawLength < 2 ^ 31 := by
  have flagged : p.rawLength &&& templateFlag ≠ 0 ↔ 2 ^ 31 ≤ p.rawLength := and_top_ne_zero word
  rw [FirmwareProperty.kind, ← Nat.not_le, ← flagged]
  split
  · exact iff_of_false (by simp) (not_not.mpr ‹_›)
  · exact iff_of_true rfl ‹_›

theorem kind_eq_literal_or_template (p : FirmwareProperty) :
    p.kind = .literal ∨ p.kind = .template := by
  cases p.kind with
  | literal => exact .inl rfl
  | template => exact .inr rfl

mutual

/-- The properties of a tree, in document order. -/
def FirmwareNode.allProperties : FirmwareNode → List FirmwareProperty
  | ⟨_, properties, children⟩ => properties ++ propertiesOfAll children

def propertiesOfAll : List FirmwareNode → List FirmwareProperty
  | [] => []
  | node :: rest => node.allProperties ++ propertiesOfAll rest

end

mutual

theorem FirmwareNode.allProperties_eq : ∀ (node : FirmwareNode) (depth : Nat),
    node.allProperties = (node.nodesFrom depth).flatMap (·.2.properties)
  | ⟨offset, properties, children⟩, depth => by
    rw [FirmwareNode.allProperties, FirmwareNode.nodesFrom, List.flatMap_cons,
      propertiesOfAll_eq children (depth + 1)]

theorem propertiesOfAll_eq : ∀ (nodes : List FirmwareNode) (depth : Nat),
    propertiesOfAll nodes = (allNodesFrom nodes depth).flatMap (·.2.properties)
  | [], _ => rfl
  | node :: rest, depth => by
    rw [propertiesOfAll, allNodesFrom, List.flatMap_append, node.allProperties_eq depth,
      propertiesOfAll_eq rest depth]

end

/-- The templates of a tree, in document order. -/
def FirmwareNode.templates (node : FirmwareNode) : List FirmwareProperty :=
  node.allProperties.filter fun p => p.kind = .template

theorem templates_statisticsOf (node : FirmwareNode) (depth : Nat) :
    (statisticsOf (node.nodesFrom depth)).templates = node.templates.length := by
  rw [FirmwareNode.templates, node.allProperties_eq depth, ← List.countP_eq_length_filter,
    List.countP_flatMap]
  rfl

/-! ### The grammar -/

/-- A printable name of 1 to 32 bytes. -/
structure NameOk (name : Bytes) : Prop where
  nonempty : name ≠ []
  short : name.length ≤ 32
  printable : printable name = true

structure PropertyOk (p : FirmwareProperty) : Prop where
  name : NameOk (asBytes p.name)
  rawName : p.rawName = padded 32 (asBytes p.name)
  rawLength : p.rawLength < 2 ^ 32
  value : p.value.length = andNot p.rawLength templateFlag
  padding : p.padding.length = (4 - p.value.length % 4) % 4

/-- What the format asks of one node at its depth. -/
structure NodeOk (depth : Nat) (node : FirmwareNode) : Prop where
  shallow : depth ≤ maxDepth
  few : node.properties.length ≤ maxPropertiesPerNode
  few_children : node.children.length ≤ maxChildrenPerNode
  each : ∀ p ∈ node.properties, PropertyOk p

structure FirmwareDtStatistics.Within (statistics : FirmwareDtStatistics) : Prop where
  nodes : statistics.nodes ≤ maxNodes
  properties : statistics.properties ≤ maxProperties

/-- A tree of the format, with its offsets. -/
structure Grammatical (root : FirmwareNode) : Prop where
  each : ∀ entry ∈ root.nodesFrom 0, NodeOk entry.1 entry.2
  within : (statisticsOf (root.nodesFrom 0)).Within
  bytes : root.serialize.length ≤ maxInputBytes
  placed : root.PlacedAt 0

theorem Grammatical.few_words {root : FirmwareNode} (ok : Grammatical root) :
    ∀ entry ∈ root.nodesFrom 0, entry.2.properties.length < 2 ^ 32 ∧
      entry.2.children.length < 2 ^ 32 := by
  intro entry mem
  obtain ⟨_, few, few_children, _⟩ := ok.each entry mem
  exact ⟨Nat.lt_of_le_of_lt few (by decide), Nat.lt_of_le_of_lt few_children (by decide)⟩

/-- The value of a property is shorter than the flag. -/
theorem PropertyOk.small {p : FirmwareProperty} (ok : PropertyOk p) :
    p.value.length < 2 ^ 31 := by
  have cleared : andNot p.rawLength templateFlag = p.rawLength % 2 ^ 31 := andNot_top ok.rawLength
  rw [ok.value, cleared]
  exact Nat.mod_lt _ (by decide)

theorem Grammatical.propertyOk {root : FirmwareNode} (ok : Grammatical root) :
    ∀ p ∈ root.allProperties, PropertyOk p := by
  rw [root.allProperties_eq 0]
  intro p mem
  obtain ⟨entry, among, listed⟩ := List.mem_flatMap.mp mem
  exact (ok.each entry among).each p listed

theorem PropertyOk.length {p : FirmwareProperty} (ok : PropertyOk p) :
    p.serialize.length = 36 + roundUp 4 p.value.length := by
  simp only [FirmwareProperty.serialize, List.length_append, length_toLeBytes, ok.rawName,
    length_padded ok.name.short, ok.padding, roundUp, roundDown]
  omega

theorem length_properties {properties : List FirmwareProperty}
    (each : ∀ p ∈ properties, PropertyOk p) :
    properties.length * 36 ≤ (properties.flatMap FirmwareProperty.serialize).length := by
  induction properties with
  | nil => exact Nat.zero_le _
  | cons p rest ih =>
      obtain ⟨ok, each⟩ := List.forall_mem_cons.mp each
      have others := ih each
      have own := ok.length
      rw [List.flatMap_cons, List.length_append, List.length_cons]
      omega

theorem length_children (nodes : List FirmwareNode) :
    nodes.length * 8 ≤ (serializeAll nodes).length := by
  induction nodes with
  | nil => exact Nat.zero_le _
  | cons node rest ih =>
      obtain ⟨offset, properties, children⟩ := node
      rw [serializeAll, FirmwareNode.serialize, List.length_append, List.length_append,
        length_serializeHeader, List.length_cons]
      omega

theorem length_le_allNodesFrom (nodes : List FirmwareNode) (depth : Nat) :
    nodes.length ≤ (allNodesFrom nodes depth).length := by
  induction nodes with
  | nil => exact Nat.zero_le _
  | cons node rest ih =>
      obtain ⟨offset, properties, children⟩ := node
      rw [allNodesFrom, FirmwareNode.nodesFrom, List.length_append, List.length_cons,
        List.length_cons]
      omega

end Nextcore.FirmwareDt
