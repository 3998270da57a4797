import Nextcore.FlatDt.Codec
import Nextcore.Lib.Prefix

/-!
The format of a flattened device tree, as a grammar.

A `WireNode` is a node as it stands in the bytes: its name is one of its properties. `serialize`
writes it, `NodeOk` is what the format asks of one node at its depth, and a `Grammatical` tree
satisfies that everywhere and stays within the limits. The counts in front of everything make
the format unambiguous (`unambiguous_serialize`).
-/

namespace Nextcore.FlatDt

open Checked

/-- A property on the wire. -/
structure WireProperty where
  name : Bytes
  value : Bytes
  deriving DecidableEq

/-- A node on the wire. -/
structure WireNode where
  properties : List WireProperty
  children : List WireNode

/-! ### Serialization -/

/-- The bytes that align a value of the given size. -/
def alignment (size : Nat) : Bytes := List.replicate ((4 - size % 4) % 4) 0

def WireProperty.serialize (p : WireProperty) : Bytes :=
  padded 32 p.name ++ toLeBytes 4 p.value.length ++ p.value ++ alignment p.value.length

/-- What stands in front of the children of a node. -/
def serializeHeader (properties : List WireProperty) (children : Nat) : Bytes :=
  toLeBytes 4 properties.length ++ toLeBytes 4 children ++
    properties.flatMap WireProperty.serialize

mutual

def WireNode.serialize : WireNode → Bytes
  | ⟨properties, children⟩ =>
    serializeHeader properties children.length ++ serializeAll children

/-- The nodes one behind the other. -/
def serializeAll : List WireNode → Bytes
  | [] => []
  | node :: rest => node.serialize ++ serializeAll rest

end

mutual

/-- The nodes of a tree whose root is at the given depth, in document order, with their depths. -/
def WireNode.nodesFrom : WireNode → (depth : Nat) → List (Nat × WireNode)
  | ⟨properties, children⟩, depth =>
    (depth, ⟨properties, children⟩) :: allNodesFrom children (depth + 1)

def allNodesFrom : List WireNode → (depth : Nat) → List (Nat × WireNode)
  | [], _ => []
  | node :: rest, depth => node.nodesFrom depth ++ allNodesFrom rest depth

end

theorem WireNode.mem_nodesFrom (node : WireNode) (depth : Nat) :
    (depth, node) ∈ node.nodesFrom depth := by
  obtain ⟨properties, children⟩ := node
  rw [nodesFrom]
  exact List.mem_cons_self

/-- The number of properties of all the nodes. -/
def propertyCount (nodes : List (Nat × WireNode)) : Nat :=
  (nodes.map fun entry => entry.2.properties.length).sum

/-- The name in the property called `name`. -/
def nameIn (properties : List WireProperty) : Option Bytes :=
  (properties.find? (·.name = asBytes "name")).map (·.value.dropLast)

def WireNode.name? (node : WireNode) : Option Bytes := nameIn node.properties

/-! ### The grammar -/

/-- A printable name of 1 to 31 bytes. -/
structure PropertyNameOk (name : Bytes) : Prop where
  nonempty : name ≠ []
  short : name.length ≤ maxPropertyName
  printable : printable name = true

/-- A printable name of at most 63 bytes, which is empty at the root only. -/
structure NodeNameOk (depth : Nat) (name : Bytes) : Prop where
  short : name.length ≤ maxNodeName
  nonempty : depth ≠ 0 → name ≠ []
  printable : printable name = true

/-- A property, at the depth of its node: a value called `name` is a node's name with a NUL. -/
structure PropertyOk (depth : Nat) (p : WireProperty) : Prop where
  name : PropertyNameOk p.name
  value : p.name = asBytes "name" → ∃ name, p.value = name ++ [0] ∧ NodeNameOk depth name

/-- The properties of a node at its depth. -/
structure PropertiesOk (depth : Nat) (properties : List WireProperty) : Prop where
  some : properties ≠ []
  few : properties.length ≤ maxPropertiesPerNode
  each : ∀ p ∈ properties, PropertyOk depth p
  distinct : (properties.map (·.name)).Nodup
  named : ∃ p ∈ properties, p.name = asBytes "name"

/-- What the format asks of one node at its depth. -/
structure NodeOk (depth : Nat) (node : WireNode) : Prop where
  shallow : depth ≤ maxDepth
  properties : PropertiesOk depth node.properties
  few : node.children.length ≤ maxChildrenPerNode
  distinct : (node.children.map WireNode.name?).Nodup

/-- A tree of the format. -/
structure Grammatical (root : WireNode) : Prop where
  each : ∀ entry ∈ root.nodesFrom 0, NodeOk entry.1 entry.2
  nodes : (root.nodesFrom 0).length ≤ maxNodes
  properties : propertyCount (root.nodesFrom 0) ≤ maxProperties
  bytes : root.serialize.length ≤ maxSerializedSize

/-! ### Lengths -/

theorem length_alignment (size : Nat) : size + (alignment size).length = roundUp 4 size := by
  rw [alignment, List.length_replicate, roundUp, roundDown]
  omega

/-- A property lies where its name, its length, its value and the padding lie. -/
theorem holds_serializeProperty {bytes : Bytes} {cursor : Nat} {p : WireProperty}
    (short : p.name.length ≤ 32) :
    Holds bytes cursor p.serialize ↔
      Holds bytes cursor (padded 32 p.name) ∧
        Holds bytes (cursor + 32) (toLeBytes 4 p.value.length) ∧
        Holds bytes (cursor + 32 + 4) p.value ∧
        Holds bytes (cursor + 32 + 4 + p.value.length) (alignment p.value.length) := by
  simp only [WireProperty.serialize, holds_append, List.length_append, length_padded short,
    length_toLeBytes, and_assoc, Nat.add_assoc]

theorem length_serializeProperty {p : WireProperty} (short : p.name.length ≤ 32) :
    p.serialize.length = 36 + roundUp 4 p.value.length := by
  rw [← length_alignment]
  simp only [WireProperty.serialize, List.length_append, length_padded short, length_toLeBytes]
  omega

theorem length_serializeHeader {properties : List WireProperty} {children : Nat} :
    (serializeHeader properties children).length =
      8 + (properties.flatMap WireProperty.serialize).length := by
  simp only [serializeHeader, List.length_append, length_toLeBytes]

theorem holds_serializeHeader {bytes : Bytes} {cursor : Nat} {properties : List WireProperty}
    {children : Nat} :
    Holds bytes cursor (serializeHeader properties children) ↔
      Holds bytes cursor (toLeBytes 4 properties.length) ∧
        Holds bytes (cursor + 4) (toLeBytes 4 children) ∧
        Holds bytes (cursor + 4 + 4) (properties.flatMap WireProperty.serialize) := by
  simp only [serializeHeader, holds_append, List.length_append, length_toLeBytes, and_assoc,
    Nat.add_assoc]

theorem printable_iff {name : Bytes} :
    printable name = true ↔ ∀ b ∈ name, 0x20 ≤ b ∧ b ≤ 0x7e := by
  simp [printable]

theorem zero_notMem_of_printable {name : Bytes} (shown : printable name = true) : 0 ∉ name :=
  fun mem => absurd (printable_iff.mp shown 0 mem).1 (by decide)

/-- With distinct names there is one property called `name`, and that is the one found. -/
theorem nameIn_eq_some {properties : List WireProperty} {p : WireProperty} (mem : p ∈ properties)
    (distinct : (properties.map (·.name)).Nodup) (called : p.name = asBytes "name") :
    nameIn properties = some p.value.dropLast := by
  induction properties with
  | nil => cases mem
  | cons q rest ih =>
      rw [List.map_cons, List.nodup_cons] at distinct
      rcases List.mem_cons.mp mem with rfl | later
      · rw [nameIn, List.find?_cons_of_pos (by simpa using called), Option.map_some]
      · have other : q.name ≠ asBytes "name" := by
          intro same
          refine distinct.1 ?_
          rw [same, ← called]
          exact List.mem_map_of_mem later
        rw [nameIn, List.find?_cons_of_neg (by simpa using other)]
        exact ih later distinct.2

theorem exists_of_nameIn {properties : List WireProperty} {name : Bytes}
    (named : nameIn properties = some name) : ∃ p ∈ properties, p.name = asBytes "name" := by
  obtain ⟨p, found, _⟩ := Option.map_eq_some_iff.mp named
  have called := List.find?_some found
  exact ⟨p, List.mem_of_find?_eq_some found, of_decide_eq_true called⟩

/-! ### Unambiguity -/

/-- What serialization needs of a property to be split again. -/
structure PropertyFramed (p : WireProperty) : Prop where
  name : 0 ∉ p.name ∧ p.name.length < 32
  value : p.value.length < 2 ^ 32

/-- What serialization needs of a node to be split again. -/
structure NodeFramed (node : WireNode) : Prop where
  properties : node.properties.length < 2 ^ 32
  each : ∀ p ∈ node.properties, PropertyFramed p
  children : node.children.length < 2 ^ 32

theorem unambiguous_serializeProperty : Unambiguous PropertyFramed WireProperty.serialize := by
  intro p q hp hq x y same
  simp only [WireProperty.serialize, List.append_assoc] at same
  obtain ⟨name, same⟩ := unambiguous_padded 32 hp.name hq.name same
  obtain ⟨length, same⟩ := unambiguous_toLeBytes 4 hp.value hq.value same
  obtain ⟨value, same⟩ := List.append_inj same length
  rw [length] at same
  obtain ⟨_, rest⟩ := List.append_inj same rfl
  obtain ⟨_, _⟩ := p
  obtain ⟨_, _⟩ := q
  subst name value
  exact ⟨rfl, rest⟩

/-- The part in front of the children gives the properties and the number of children. -/
theorem serializeHeader_append_inj {properties properties' : List WireProperty} {count count' : Nat}
    (few : properties.length < 2 ^ 32) (few' : properties'.length < 2 ^ 32)
    (each : ∀ p ∈ properties, PropertyFramed p) (each' : ∀ p ∈ properties', PropertyFramed p)
    (children : count < 2 ^ 32) (children' : count' < 2 ^ 32) {x y : Bytes}
    (same : serializeHeader properties count ++ x = serializeHeader properties' count' ++ y) :
    properties = properties' ∧ count = count' ∧ x = y := by
  simp only [serializeHeader, List.append_assoc] at same
  obtain ⟨length, same⟩ := unambiguous_toLeBytes 4 few few' same
  obtain ⟨number, same⟩ := unambiguous_toLeBytes 4 children children' same
  obtain ⟨equal, rest⟩ := unambiguous_serializeProperty.flatMap each each' length same
  exact ⟨equal, number, rest⟩

mutual

theorem WireNode.serialize_append_inj : ∀ (a b : WireNode) {depth : Nat} {x y : Bytes},
    (∀ entry ∈ a.nodesFrom depth, NodeFramed entry.2) →
    (∀ entry ∈ b.nodesFrom depth, NodeFramed entry.2) →
    a.serialize ++ x = b.serialize ++ y → a = b ∧ x = y
  | ⟨properties, children⟩, ⟨properties', children'⟩, depth, x, y, ha, hb, same => by
    rw [WireNode.nodesFrom, List.forall_mem_cons] at ha hb
    rw [WireNode.serialize, WireNode.serialize, List.append_assoc, List.append_assoc] at same
    obtain ⟨equal, number, same⟩ := serializeHeader_append_inj ha.1.properties hb.1.properties
      ha.1.each hb.1.each ha.1.children hb.1.children same
    obtain ⟨others, rest⟩ := serializeAll_append_inj children children' ha.2 hb.2 number same
    exact ⟨congrArg₂ WireNode.mk equal others, rest⟩

theorem serializeAll_append_inj : ∀ (as bs : List WireNode) {depth : Nat} {x y : Bytes},
    (∀ entry ∈ allNodesFrom as depth, NodeFramed entry.2) →
    (∀ entry ∈ allNodesFrom bs depth, NodeFramed entry.2) → as.length = bs.length →
    serializeAll as ++ x = serializeAll bs ++ y → as = bs ∧ x = y
  | [], [], _, _, _, _, _, _, same => ⟨rfl, same⟩
  | a :: as, b :: bs, depth, x, y, has, hbs, length, same => by
    rw [allNodesFrom, List.forall_mem_append] at has hbs
    rw [serializeAll, serializeAll, List.append_assoc, List.append_assoc] at same
    obtain ⟨first, same⟩ := WireNode.serialize_append_inj a b has.1 hbs.1 same
    obtain ⟨others, rest⟩ := serializeAll_append_inj as bs has.2 hbs.2 (Nat.succ.inj length) same
    exact ⟨by rw [first, others], rest⟩

end

theorem PropertyOk.framed {depth : Nat} {p : WireProperty} (ok : PropertyOk depth p)
    (small : p.value.length < 2 ^ 32) : PropertyFramed p where
  name := ⟨zero_notMem_of_printable ok.name.printable, Nat.lt_succ_of_le ok.name.short⟩
  value := small

end Nextcore.FlatDt
