import Nextcore.FirmwareDt.Lossless
import Nextcore.FlatDt.Accepted

/-!
The runtime format is a part of the firmware format.

A tree that the runtime validator finds in some bytes is turned into one of the firmware format,
with the offsets at which its parts stand (`ofWireNode`). It is written as the same bytes, has no
template, and every limit of the runtime format is one of the firmware format
(`grammatical_of_wire`); so the firmware parser finds it in the bytes, and hands them on as they
are.
-/

namespace Nextcore.FirmwareDt

open Checked Checked.Outcome
open FlatDt (WireProperty WireNode alignment)

/-! ### The tree of the firmware format -/

/-- A property of the runtime format that stands at `start`. -/
def ofWireProperty (p : WireProperty) (start : Nat) : FirmwareProperty where
  offset := start
  rawName := padded 32 p.name
  name := (fromUtf8 p.name).getD ""
  rawLength := p.value.length
  value := p.value
  padding := alignment p.value.length

def ofWireProperties : List WireProperty → (start : Nat) → List FirmwareProperty
  | [], _ => []
  | p :: rest, start =>
    ofWireProperty p start :: ofWireProperties rest (start + p.serialize.length)

mutual

def ofWireNode : WireNode → (start : Nat) → FirmwareNode
  | ⟨properties, children⟩, start =>
    ⟨start, ofWireProperties properties (start + 8),
      ofWireAll children
        (start + (FlatDt.serializeHeader properties children.length).length)⟩

def ofWireAll : List WireNode → (start : Nat) → List FirmwareNode
  | [], _ => []
  | node :: rest, start =>
    ofWireNode node start :: ofWireAll rest (start + node.serialize.length)

end

/-! ### What is written -/

@[simp] theorem serialize_ofWireProperty (p : WireProperty) (start : Nat) :
    (ofWireProperty p start).serialize = p.serialize := rfl

@[simp] theorem length_ofWireProperties (properties : List WireProperty) (start : Nat) :
    (ofWireProperties properties start).length = properties.length := by
  induction properties generalizing start with
  | nil => rfl
  | cons p rest ih => rw [ofWireProperties, List.length_cons, ih, List.length_cons]

@[simp] theorem length_ofWireAll (nodes : List WireNode) (start : Nat) :
    (ofWireAll nodes start).length = nodes.length := by
  induction nodes generalizing start with
  | nil => rfl
  | cons node rest ih => rw [ofWireAll, List.length_cons, ih, List.length_cons]

theorem flatMap_ofWireProperties (properties : List WireProperty) (start : Nat) :
    (ofWireProperties properties start).flatMap FirmwareProperty.serialize =
      properties.flatMap WireProperty.serialize := by
  induction properties generalizing start with
  | nil => rfl
  | cons p rest ih =>
      rw [ofWireProperties, List.flatMap_cons, ih, serialize_ofWireProperty, List.flatMap_cons]

theorem serializeHeader_ofWire (properties : List WireProperty) (start children : Nat) :
    serializeHeader (ofWireProperties properties start) children =
      FlatDt.serializeHeader properties children := by
  rw [serializeHeader, FlatDt.serializeHeader, length_ofWireProperties, flatMap_ofWireProperties]

mutual

/-- The bytes are those of the tree of the runtime format. -/
theorem serialize_ofWireNode : ∀ (node : WireNode) (start : Nat),
    (ofWireNode node start).serialize = node.serialize
  | ⟨properties, children⟩, start => by
    rw [ofWireNode, FirmwareNode.serialize, WireNode.serialize, length_ofWireAll,
      serializeHeader_ofWire, serializeAll_ofWireAll children]

theorem serializeAll_ofWireAll : ∀ (nodes : List WireNode) (start : Nat),
    serializeAll (ofWireAll nodes start) = FlatDt.serializeAll nodes
  | [], _ => rfl
  | node :: rest, start => by
    rw [ofWireAll, serializeAll, FlatDt.serializeAll, serialize_ofWireNode node,
      serializeAll_ofWireAll rest]

end

theorem propertiesPlacedAt_ofWire (properties : List WireProperty) (start : Nat) :
    PropertiesPlacedAt (ofWireProperties properties start) start := by
  induction properties generalizing start with
  | nil => trivial
  | cons p rest ih => exact ⟨rfl, ih _⟩

mutual

theorem placedAt_ofWireNode : ∀ (node : WireNode) (start : Nat),
    (ofWireNode node start).PlacedAt start
  | ⟨properties, children⟩, start => by
    rw [ofWireNode, FirmwareNode.PlacedAt, length_ofWireAll, serializeHeader_ofWire]
    exact ⟨rfl, propertiesPlacedAt_ofWire properties _, allPlacedAt_ofWireAll children _⟩

theorem allPlacedAt_ofWireAll : ∀ (nodes : List WireNode) (start : Nat),
    AllPlacedAt (ofWireAll nodes start) start
  | [], _ => by
    rw [ofWireAll, AllPlacedAt]
    trivial
  | node :: rest, start => by
    rw [ofWireAll, AllPlacedAt, serialize_ofWireNode node]
    exact ⟨placedAt_ofWireNode node start, allPlacedAt_ofWireAll rest _⟩

end

/-! ### The limits -/

/-- A property of the runtime format is one of the firmware format, and a literal. -/
theorem propertyOk_ofWire {depth : Nat} {p : WireProperty} (ok : FlatDt.PropertyOk depth p)
    (small : p.value.length < 2 ^ 31) (start : Nat) :
    PropertyOk (ofWireProperty p start) ∧ (ofWireProperty p start).kind = .literal := by
  obtain ⟨⟨nonempty, short, printable⟩, _⟩ := ok
  have ascii : ∀ b ∈ p.name, b < 0x80 := by
    intro b mem
    have shown := (FlatDt.printable_iff.mp printable b mem).2
    exact Std.lt_of_le_of_lt shown (by decide)
  obtain ⟨name, read⟩ := exists_fromUtf8 ascii
  have bytes : asBytes ((fromUtf8 p.name).getD "") = p.name := by
    rw [read, Option.getD_some]
    exact fromUtf8_eq_some.mp read
  have word : p.value.length < 2 ^ 32 := by omega
  have cleared : andNot p.value.length templateFlag = p.value.length % 2 ^ 31 := andNot_top word
  constructor
  · refine ⟨?_, ?_, word, ?_, List.length_replicate⟩
    · simp only [ofWireProperty, bytes]
      exact ⟨nonempty, short.trans (by decide), printable⟩
    · simp only [ofWireProperty, bytes]
    · simp only [ofWireProperty]
      rw [cleared, Nat.mod_eq_of_lt small]
  · exact (kind_eq_literal word).mpr small

theorem propertiesOk_ofWire {depth : Nat} {properties : List WireProperty}
    (each : ∀ p ∈ properties, FlatDt.PropertyOk depth p)
    (small : ∀ p ∈ properties, p.value.length < 2 ^ 31) (start : Nat) :
    ∀ q ∈ ofWireProperties properties start, PropertyOk q ∧ q.kind = .literal := by
  induction properties generalizing start with
  | nil => simp [ofWireProperties]
  | cons p rest ih =>
      obtain ⟨ok, each⟩ := List.forall_mem_cons.mp each
      obtain ⟨own, small⟩ := List.forall_mem_cons.mp small
      exact List.forall_mem_cons.mpr ⟨propertyOk_ofWire ok own start, ih each small _⟩

/-- What is known of a node that the runtime validator accepts in a short tree. -/
structure ShortOk (entry : Nat × WireNode) : Prop where
  ok : FlatDt.NodeOk entry.1 entry.2
  small : ∀ p ∈ entry.2.properties, p.value.length < 2 ^ 31

/-- What the firmware format asks of a node, and that it has no template. -/
structure LiteralOk (entry : Nat × FirmwareNode) : Prop where
  ok : NodeOk entry.1 entry.2
  literal : ∀ p ∈ entry.2.properties, p.kind = .literal

theorem literalOk_ofWire {depth start next : Nat} {properties : List WireProperty}
    {children : List WireNode} (short : ShortOk (depth, ⟨properties, children⟩)) :
    LiteralOk (depth,
      ⟨start, ofWireProperties properties (start + 8), ofWireAll children next⟩) := by
  obtain ⟨⟨shallow, ⟨_, few, each, _⟩, few_children, _⟩, small⟩ := short
  have listed := propertiesOk_ofWire each small (start + 8)
  refine ⟨⟨shallow, ?_, ?_, fun p mem => (listed p mem).1⟩, fun p mem => (listed p mem).2⟩
  · dsimp only
    rw [length_ofWireProperties]
    exact few.trans (by decide)
  · dsimp only
    rw [length_ofWireAll]
    exact few_children.trans (by decide)

mutual

theorem literalOk_ofWireNode : ∀ (node : WireNode) (start depth : Nat),
    (∀ entry ∈ node.nodesFrom depth, ShortOk entry) →
    ∀ entry ∈ (ofWireNode node start).nodesFrom depth, LiteralOk entry
  | ⟨properties, children⟩, start, depth, short => by
    rw [WireNode.nodesFrom, List.forall_mem_cons] at short
    rw [ofWireNode, FirmwareNode.nodesFrom, List.forall_mem_cons]
    exact ⟨literalOk_ofWire short.1, literalOk_ofWireAll children _ _ short.2⟩

theorem literalOk_ofWireAll : ∀ (nodes : List WireNode) (start depth : Nat),
    (∀ entry ∈ FlatDt.allNodesFrom nodes depth, ShortOk entry) →
    ∀ entry ∈ allNodesFrom (ofWireAll nodes start) depth, LiteralOk entry
  | [], _, _, _ => by
    rw [ofWireAll, allNodesFrom]
    exact List.forall_mem_nil _
  | node :: rest, start, depth, short => by
    rw [FlatDt.allNodesFrom, List.forall_mem_append] at short
    rw [ofWireAll, allNodesFrom, List.forall_mem_append]
    exact ⟨literalOk_ofWireNode node start depth short.1, literalOk_ofWireAll rest _ _ short.2⟩

end

mutual

/-- The numbers of properties, node by node. -/
theorem counts_ofWireNode : ∀ (node : WireNode) (start depth : Nat),
    ((ofWireNode node start).nodesFrom depth).map (fun entry => entry.2.properties.length) =
      (node.nodesFrom depth).map fun entry => entry.2.properties.length
  | ⟨properties, children⟩, start, depth => by
    rw [ofWireNode, FirmwareNode.nodesFrom, WireNode.nodesFrom, List.map_cons, List.map_cons,
      counts_ofWireAll children, length_ofWireProperties]

theorem counts_ofWireAll : ∀ (nodes : List WireNode) (start depth : Nat),
    (allNodesFrom (ofWireAll nodes start) depth).map (fun entry => entry.2.properties.length) =
      (FlatDt.allNodesFrom nodes depth).map fun entry => entry.2.properties.length
  | [], _, _ => rfl
  | node :: rest, start, depth => by
    rw [ofWireAll, allNodesFrom, FlatDt.allNodesFrom, List.map_append, List.map_append,
      counts_ofWireNode node, counts_ofWireAll rest]

end

/-! ### Inclusion -/

theorem shortOk_of_grammatical {root : WireNode} (ok : FlatDt.Grammatical root) :
    ∀ entry ∈ root.nodesFrom 0, ShortOk entry := by
  intro entry mem
  refine ⟨ok.each entry mem, fun p among => ?_⟩
  exact Nat.lt_of_le_of_lt ((root.value_le mem p among).trans ok.bytes) (by decide)

theorem grammatical_of_wire {root : WireNode} (ok : FlatDt.Grammatical root) :
    Grammatical (ofWireNode root 0) := by
  have counts := counts_ofWireNode root 0 0
  have lengths : ((ofWireNode root 0).nodesFrom 0).length = (root.nodesFrom 0).length := by
    simpa only [List.length_map] using congrArg List.length counts
  refine ⟨fun entry mem => ?_, ⟨?_, ?_⟩, ?_, placedAt_ofWireNode root 0⟩
  · exact (literalOk_ofWireNode root 0 0 (shortOk_of_grammatical ok) entry mem).ok
  · rw [statisticsOf, lengths]
    exact ok.nodes.trans (by decide)
  · rw [statisticsOf, counts]
    exact ok.properties.trans (by decide)
  · rw [serialize_ofWireNode]
    exact ok.bytes

/-- There is no template in the tree. -/
theorem templates_of_wire {root : WireNode} (ok : FlatDt.Grammatical root) :
    (statisticsOf ((ofWireNode root 0).nodesFrom 0)).templates = 0 := by
  apply List.sum_eq_zero
  rw [List.forall_mem_map]
  intro entry mem
  have literal := (literalOk_ofWireNode root 0 0 (shortOk_of_grammatical ok) entry mem).literal
  rw [templatesIn, List.countP_eq_zero]
  intro p among
  simp [literal p among]

/-- What the runtime validator accepts parses without a template and is handed on as it is. -/
theorem parse_of_validate {bytes : Bytes} (accepted : FlatDt.validate bytes = .ok ()) :
    ∃ tree, FirmwareDeviceTree.parse bytes = .ok tree ∧ tree.statistics.templates = 0 ∧
      tree.validatedRuntimeBytes = .ok bytes := by
  obtain ⟨root, ok, rfl⟩ := FlatDt.validate_eq_ok.mp accepted
  refine ⟨⟨root.serialize, ofWireNode root 0, statisticsOf ((ofWireNode root 0).nodesFrom 0)⟩,
    parse_eq_ok.mpr ⟨grammatical_of_wire ok, serialize_ofWireNode root 0, rfl, rfl⟩,
    templates_of_wire ok, ?_⟩
  rw [FirmwareDeviceTree.validatedRuntimeBytes,
    rejectIf_of_not _ (not_not.mpr (templates_of_wire ok)),
    bind_ok, accepted]
  rfl

/-- Bytes are handed on by the firmware parser exactly when the runtime validator accepts them. -/
theorem runtime_subformat (bytes : Bytes) :
    (FlatDt.validate bytes = .ok () →
      ∃ tree, FirmwareDeviceTree.parse bytes = .ok tree ∧ tree.statistics.templates = 0 ∧
        tree.validatedRuntimeBytes = .ok bytes) ∧
    ((∃ out, (FirmwareDeviceTree.parse bytes >>= FirmwareDeviceTree.validatedRuntimeBytes) =
      .ok out) ↔ FlatDt.validate bytes = .ok ()) := by
  refine ⟨parse_of_validate, ?_, ?_⟩
  · rintro ⟨out, handed⟩
    obtain ⟨tree, parsed, checked⟩ := bind_eq_ok.mp handed
    obtain ⟨_, _, same, _⟩ := parse_eq_ok.mp parsed
    obtain ⟨_, _, checked⟩ := bind_eq_ok.mp checked
    obtain ⟨_, accepted, _⟩ := bind_eq_ok.mp checked
    rw [mapErr_eq_ok, same] at accepted
    exact accepted
  · intro accepted
    obtain ⟨tree, parsed, _, handed⟩ := parse_of_validate accepted
    exact ⟨bytes, bind_eq_ok.mpr ⟨tree, parsed, handed⟩⟩

end Nextcore.FirmwareDt
