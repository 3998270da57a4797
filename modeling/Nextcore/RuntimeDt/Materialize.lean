import Nextcore.RuntimeDt.Bindings

/-!
Materialization is substitution.

`materializeNode` is the tree that the output is written from: the values of the templates are
those of their bindings, and every offset is where its part stands in the output. The measurement
and the writer are two recursions over the source tree; both follow this one tree
(`measure_eq_ok`, `write_eq_ok`), and as it is a tree of the firmware format again, the parser
finds it in the output.
-/

namespace Nextcore.RuntimeDt

open Checked Checked.Outcome
open FirmwareDt (FirmwareProperty FirmwareNode PropertyOk PropertiesPlacedAt AllPlacedAt
  serializeHeader serializeAll propertiesOfAll templateFlag allNodesFrom kind_eq_literal
  kind_eq_literal_or_template)

/-! ### Substitution -/

/-- The value that a property gets. -/
def replacedValue (provided : List ProvidedValue) (p : FirmwareProperty) : Bytes :=
  match p.kind with
  | .literal => p.value
  | .template => ((replacement p.offset provided).map (·.value)).getD []

/-- The property that is written at `start` for a property of the source. -/
def materializeProperty (provided : List ProvidedValue) (start : Nat) (p : FirmwareProperty) :
    FirmwareProperty :=
  match p.kind with
  | .literal => { p with offset := start }
  | .template =>
    let value := replacedValue provided p
    { p with
      offset := start
      rawLength := value.length
      value := value
      padding := List.replicate ((4 - value.length % 4) % 4) 0 }

def materializeProperties (provided : List ProvidedValue) : List FirmwareProperty → (start : Nat) →
    List FirmwareProperty
  | [], _ => []
  | p :: rest, start =>
    materializeProperty provided start p ::
      materializeProperties provided rest
        (start + (materializeProperty provided start p).serialize.length)

mutual

def materializeNode (provided : List ProvidedValue) : FirmwareNode → (start : Nat) → FirmwareNode
  | ⟨_, properties, children⟩, start =>
    ⟨start, materializeProperties provided properties (start + 8),
      materializeAll provided children (start + (serializeHeader
        (materializeProperties provided properties (start + 8)) children.length).length)⟩

def materializeAll (provided : List ProvidedValue) : List FirmwareNode → (start : Nat) →
    List FirmwareNode
  | [], _ => []
  | node :: rest, start =>
    materializeNode provided node start ::
      materializeAll provided rest (start + (materializeNode provided node start).serialize.length)

end

section Lengths

variable {provided : List ProvidedValue}

@[simp] theorem length_materializeProperties (properties : List FirmwareProperty) (start : Nat) :
    (materializeProperties provided properties start).length = properties.length := by
  induction properties generalizing start with
  | nil => rfl
  | cons p rest ih => rw [materializeProperties, List.length_cons, ih, List.length_cons]

@[simp] theorem length_materializeAll (nodes : List FirmwareNode) (start : Nat) :
    (materializeAll provided nodes start).length = nodes.length := by
  induction nodes generalizing start with
  | nil => rfl
  | cons node rest ih => rw [materializeAll, List.length_cons, ih, List.length_cons]

end Lengths

/-! ### Properties -/

/-- What a property needs to be written: the binding of a template, and a value whose length
leaves the flag clear. -/
structure Ready (provided : List ProvidedValue) (p : FirmwareProperty) : Prop where
  ok : PropertyOk p
  bound : p.kind = .template → ∃ binding, replacement p.offset provided = some binding
  small : (replacedValue provided p).length < 2 ^ 31

section Property

variable {provided : List ProvidedValue} {p : FirmwareProperty} {start : Nat}

theorem materializeProperty_literal (literal : p.kind = .literal) :
    materializeProperty provided start p = { p with offset := start } := by
  rw [materializeProperty, literal]

theorem materializeProperty_template (template : p.kind = .template) :
    materializeProperty provided start p =
      { p with
        offset := start
        rawLength := (replacedValue provided p).length
        value := replacedValue provided p
        padding := List.replicate ((4 - (replacedValue provided p).length % 4) % 4) 0 } := by
  rw [materializeProperty, template]

theorem replacedValue_literal (literal : p.kind = .literal) :
    replacedValue provided p = p.value := by
  rw [replacedValue, literal]

theorem replacedValue_template {binding : ProvidedValue} (template : p.kind = .template)
    (found : replacement p.offset provided = some binding) :
    replacedValue provided p = binding.value := by
  rw [replacedValue, template]
  simp only [found, Option.map_some, Option.getD_some]

theorem materializeProperty_offset : (materializeProperty provided start p).offset = start := by
  rcases kind_eq_literal_or_template p with literal | template
  · rw [materializeProperty_literal literal]
  · rw [materializeProperty_template template]

/-- What is written for a property is a property again, and no template. -/
theorem Ready.materialized (ready : Ready provided p) :
    PropertyOk (materializeProperty provided start p) ∧
      (materializeProperty provided start p).kind = .literal := by
  obtain ⟨ok, _, small⟩ := ready
  rcases kind_eq_literal_or_template p with literal | template
  · rw [materializeProperty_literal literal]
    exact ⟨⟨ok.name, ok.rawName, ok.rawLength, ok.value, ok.padding⟩, literal⟩
  · rw [materializeProperty_template template]
    have word : (replacedValue provided p).length < 2 ^ 32 := by omega
    have cleared : andNot (replacedValue provided p).length templateFlag =
        (replacedValue provided p).length % 2 ^ 31 := andNot_top word
    refine ⟨⟨ok.name, ok.rawName, word, ?_, List.length_replicate⟩,
      (kind_eq_literal word).mpr small⟩
    rw [cleared, Nat.mod_eq_of_lt small]

/-- The bytes that a property takes in the output. -/
theorem length_materializeProperty (ok : PropertyOk p) :
    (materializeProperty provided start p).serialize.length =
      36 + roundUp 4 (replacedValue provided p).length := by
  rcases kind_eq_literal_or_template p with literal | template
  · rw [materializeProperty_literal literal, replacedValue_literal literal, ← ok.length]
    rfl
  · rw [materializeProperty_template template]
    simp only [FirmwareProperty.serialize, List.length_append, length_toLeBytes, ok.rawName,
      length_padded ok.name.short, List.length_replicate, roundUp, roundDown]
    omega

/-! ### The measurement of a property -/

theorem propertyWireBytes_eq_ok {length size : Nat} :
    propertyWireBytes length = .ok size ↔ length < 2 ^ 31 ∧ size = 36 + roundUp 4 length := by
  have up : andNot (length + 3) 3 = roundUp 4 length := andNot_two_pow (length + 3) 2
  have near := roundUp_le_add 4 length
  simp only [propertyWireBytes, bind_eq_ok, exists_const, ofOption_eq_ok, checkedAdd_eq_some,
    rejectIf_eq_ok, pure_eq, ok.injEq, ge_iff_le, Nat.not_le]
  constructor
  · rintro ⟨_, ⟨_, rfl⟩, _, ⟨_, rfl⟩, small, rfl⟩
    exact ⟨small, by rw [up, Nat.add_comm]⟩
  · rintro ⟨small, rfl⟩
    exact ⟨_, ⟨by omega, rfl⟩, _, ⟨by rw [up]; omega, by rw [up, Nat.add_comm]⟩, small, rfl⟩

theorem measuredLength_eq_ok {length : Nat}
    (bound : p.kind = .template → ∃ binding, replacement p.offset provided = some binding) :
    measuredLength p provided = .ok length ↔ length = (replacedValue provided p).length := by
  rcases kind_eq_literal_or_template p with literal | template
  · simp only [measuredLength, literal, replacedValue_literal literal, pure_eq, ok.injEq]
    exact eq_comm
  · obtain ⟨binding, found⟩ := bound template
    simp only [measuredLength, template, replacedValue_template template found, found,
      ofOption_some, bind_ok, pure_eq, ok.injEq]
    exact eq_comm

/-! ### The writing of a property -/

/-- The writer emits the property that is written for this one. -/
theorem writeProperty_of_ready {output : Bytes} (ready : Ready provided p)
    (word : (output ++ (materializeProperty provided start p).serialize).length < 2 ^ 64) :
    writeProperty p provided output =
      .ok (output ++ (materializeProperty provided start p).serialize) := by
  rcases kind_eq_literal_or_template p with literal | template
  · rw [writeProperty, if_pos literal, materializeProperty_literal literal]
    simp only [FirmwareProperty.serialize, List.append_assoc, pure_eq]
  · obtain ⟨binding, found⟩ := ready.bound template
    have value := replacedValue_template template found
    have small := ready.small
    rw [value] at small
    rw [materializeProperty_template template, value] at word ⊢
    have clear : ¬ p.kind = .literal := by simp [template]
    rw [writeProperty, if_neg clear, found, expect_some, bind_ok]
    simp only [Nat.mod_eq_of_lt (by omega : binding.value.length < 2 ^ 32)]
    simp only [FirmwareProperty.serialize, List.length_append, List.length_replicate] at word
    rw [add_of_lt (by simp only [List.length_append]; omega), bind_ok, pure_eq, ok.injEq,
      resize_of_le (Nat.le_add_right ..), Nat.add_sub_cancel_left]
    simp only [FirmwareProperty.serialize, List.append_assoc]

end Property

/-! ### Nodes -/

section Tree

variable {provided : List ProvidedValue}

theorem propertiesPlacedAt_materialize (properties : List FirmwareProperty) (start : Nat) :
    PropertiesPlacedAt (materializeProperties provided properties start) start := by
  induction properties generalizing start with
  | nil => trivial
  | cons p rest ih => exact ⟨materializeProperty_offset, ih _⟩

mutual

/-- The offsets of the output tree are where its parts stand. -/
theorem placedAt_materialize : ∀ (node : FirmwareNode) (start : Nat),
    (materializeNode provided node start).PlacedAt start
  | ⟨_, properties, children⟩, start => by
    rw [materializeNode, FirmwareNode.PlacedAt, length_materializeAll]
    exact ⟨rfl, propertiesPlacedAt_materialize properties _, allPlacedAt_materialize children _⟩

theorem allPlacedAt_materialize : ∀ (nodes : List FirmwareNode) (start : Nat),
    AllPlacedAt (materializeAll provided nodes start) start
  | [], start => by
    rw [materializeAll, AllPlacedAt]
    trivial
  | node :: rest, start => by
    rw [materializeAll, AllPlacedAt]
    exact ⟨placedAt_materialize node start, allPlacedAt_materialize rest _⟩

end

theorem materializeProperties_ready {properties : List FirmwareProperty} {start : Nat}
    (ready : ∀ p ∈ properties, Ready provided p) :
    ∀ q ∈ materializeProperties provided properties start, PropertyOk q ∧ q.kind = .literal := by
  induction properties generalizing start with
  | nil => simp [materializeProperties]
  | cons p rest ih =>
      obtain ⟨first, others⟩ := List.forall_mem_cons.mp ready
      exact List.forall_mem_cons.mpr ⟨first.materialized, ih others⟩

/-- The output node, with the place of its children named. -/
theorem materializeNode_eq {offset : Nat} (properties : List FirmwareProperty)
    (children : List FirmwareNode) (start : Nat) : ∃ next,
    materializeNode provided ⟨offset, properties, children⟩ start =
      ⟨start, materializeProperties provided properties (start + 8),
        materializeAll provided children next⟩ :=
  ⟨_, by rw [materializeNode]⟩

/-- The depth of a node, and the numbers of its properties and its children. -/
def countsOf (entry : Nat × FirmwareNode) : Nat × Nat × Nat :=
  (entry.1, entry.2.properties.length, entry.2.children.length)

mutual

/-- The output tree has the shape of the source tree. -/
theorem countsOf_materialize : ∀ (node : FirmwareNode) (start depth : Nat),
    ((materializeNode provided node start).nodesFrom depth).map countsOf =
      (node.nodesFrom depth).map countsOf
  | ⟨_, properties, children⟩, start, depth => by
    rw [materializeNode, FirmwareNode.nodesFrom, FirmwareNode.nodesFrom, List.map_cons,
      List.map_cons, allCountsOf_materialize children]
    simp only [countsOf, length_materializeProperties, length_materializeAll]

theorem allCountsOf_materialize : ∀ (nodes : List FirmwareNode) (start depth : Nat),
    (allNodesFrom (materializeAll provided nodes start) depth).map countsOf =
      (allNodesFrom nodes depth).map countsOf
  | [], _, _ => rfl
  | node :: rest, start, depth => by
    rw [materializeAll, allNodesFrom, allNodesFrom, List.map_append, List.map_append,
      countsOf_materialize node, allCountsOf_materialize rest]

end

mutual

theorem allProperties_materialize : ∀ (node : FirmwareNode) (start : Nat),
    (∀ p ∈ node.allProperties, Ready provided p) →
    ∀ q ∈ (materializeNode provided node start).allProperties, PropertyOk q ∧ q.kind = .literal
  | ⟨_, properties, children⟩, start, ready => by
    rw [FirmwareNode.allProperties, List.forall_mem_append] at ready
    rw [materializeNode, FirmwareNode.allProperties, List.forall_mem_append]
    exact ⟨materializeProperties_ready ready.1, propertiesOfAll_materialize children _ ready.2⟩

theorem propertiesOfAll_materialize : ∀ (nodes : List FirmwareNode) (start : Nat),
    (∀ p ∈ propertiesOfAll nodes, Ready provided p) →
    ∀ q ∈ propertiesOfAll (materializeAll provided nodes start), PropertyOk q ∧ q.kind = .literal
  | [], _, _ => by
    rw [materializeAll, propertiesOfAll]
    simp
  | node :: rest, start, ready => by
    rw [propertiesOfAll, List.forall_mem_append] at ready
    rw [materializeAll, propertiesOfAll, List.forall_mem_append]
    exact ⟨allProperties_materialize node start ready.1,
      propertiesOfAll_materialize rest _ ready.2⟩

end

/-! ### The measurement -/

theorem measureProperties_eq_ok {properties : List FirmwareProperty} {total out : Nat}
    (start : Nat) (word : total < 2 ^ 64) (each : ∀ p ∈ properties, PropertyOk p)
    (bound : ∀ p ∈ properties, p.kind = .template →
      ∃ binding, replacement p.offset provided = some binding) :
    measureProperties provided properties total = .ok out ↔
      (∀ p ∈ properties, (replacedValue provided p).length < 2 ^ 31) ∧
        out = total + ((materializeProperties provided properties start).flatMap
          FirmwareProperty.serialize).length ∧ out < 2 ^ 64 := by
  induction properties generalizing total start with
  | nil =>
      rw [measureProperties, materializeProperties, pure_eq, ok.injEq]
      constructor
      · rintro rfl
        exact ⟨by simp, rfl, word⟩
      · rintro ⟨_, rfl, _⟩
        rfl
  | cons p rest ih =>
      obtain ⟨first, others⟩ := List.forall_mem_cons.mp each
      obtain ⟨first_bound, others_bound⟩ := List.forall_mem_cons.mp bound
      rw [List.forall_mem_cons, materializeProperties, List.flatMap_cons, List.length_append,
        ← Nat.add_assoc, length_materializeProperty first]
      have rest_eq {total : Nat} (room : total < 2 ^ 64) :=
        ih (start + (36 + roundUp 4 (replacedValue provided p).length)) room others others_bound
      simp only [measureProperties, bind_eq_ok, measuredLength_eq_ok first_bound,
        propertyWireBytes_eq_ok, ofOption_eq_ok, checkedAdd_eq_some]
      constructor
      · rintro ⟨_, rfl, _, ⟨small, rfl⟩, _, ⟨room, rfl⟩, more⟩
        obtain ⟨smalls, rfl, final⟩ := (rest_eq room).mp more
        exact ⟨⟨small, smalls⟩, rfl, final⟩
      · rintro ⟨⟨small, smalls⟩, rfl, final⟩
        have room : total + (36 + roundUp 4 (replacedValue provided p).length) < 2 ^ 64 := by
          omega
        exact ⟨_, rfl, _, ⟨small, rfl⟩, _, ⟨room, rfl⟩,
          (rest_eq room).mpr ⟨smalls, rfl, final⟩⟩

mutual

/-- The measurement is the length of what is written for the tree. -/
theorem measure_eq_ok : ∀ (node : FirmwareNode) (start : Nat) {total out : Nat}, total < 2 ^ 64 →
    (∀ p ∈ node.allProperties, PropertyOk p) →
    (∀ p ∈ node.allProperties, p.kind = .template →
      ∃ binding, replacement p.offset provided = some binding) →
    (measure node provided total = .ok out ↔
      (∀ p ∈ node.allProperties, (replacedValue provided p).length < 2 ^ 31) ∧
        out = total + (materializeNode provided node start).serialize.length ∧ out < 2 ^ 64)
  | ⟨offset, properties, children⟩, start, total, out, word, each, bound => by
    obtain ⟨next, written⟩ := @materializeNode_eq provided offset properties children start
    rw [FirmwareNode.allProperties, List.forall_mem_append] at each bound
    rw [FirmwareNode.allProperties, List.forall_mem_append, written, FirmwareNode.serialize,
      List.length_append, FirmwareDt.length_serializeHeader, ← Nat.add_assoc, ← Nat.add_assoc]
    simp only [measure, bind_eq_ok, ofOption_eq_ok, checkedAdd_eq_some]
    constructor
    · rintro ⟨_, ⟨room, rfl⟩, _, listed, more⟩
      obtain ⟨smalls, rfl, listed_room⟩ :=
        (measureProperties_eq_ok (start + 8) room each.1 bound.1).mp listed
      obtain ⟨others, rfl, final⟩ :=
        (measureChildren_eq_ok children next listed_room each.2 bound.2).mp more
      exact ⟨⟨smalls, others⟩, rfl, final⟩
    · rintro ⟨⟨smalls, others⟩, rfl, final⟩
      have room : total + 8 < 2 ^ 64 := by omega
      have listed_room : total + 8 + ((materializeProperties provided properties
          (start + 8)).flatMap FirmwareProperty.serialize).length < 2 ^ 64 := by omega
      exact ⟨_, ⟨room, rfl⟩, _,
        (measureProperties_eq_ok (start + 8) room each.1 bound.1).mpr ⟨smalls, rfl, listed_room⟩,
        (measureChildren_eq_ok children next listed_room each.2 bound.2).mpr ⟨others, rfl, final⟩⟩

theorem measureChildren_eq_ok : ∀ (nodes : List FirmwareNode) (start : Nat) {total out : Nat},
    total < 2 ^ 64 → (∀ p ∈ propertiesOfAll nodes, PropertyOk p) →
    (∀ p ∈ propertiesOfAll nodes, p.kind = .template →
      ∃ binding, replacement p.offset provided = some binding) →
    (measureChildren nodes provided total = .ok out ↔
      (∀ p ∈ propertiesOfAll nodes, (replacedValue provided p).length < 2 ^ 31) ∧
        out = total + (serializeAll (materializeAll provided nodes start)).length ∧
        out < 2 ^ 64)
  | [], start, total, out, word, _, _ => by
    rw [measureChildren, propertiesOfAll, materializeAll, pure_eq, ok.injEq]
    constructor
    · rintro rfl
      exact ⟨by simp, rfl, word⟩
    · rintro ⟨_, rfl, _⟩
      rfl
  | node :: rest, start, total, out, word, each, bound => by
    rw [propertiesOfAll, List.forall_mem_append] at each bound
    rw [propertiesOfAll, List.forall_mem_append, materializeAll, serializeAll, List.length_append,
      ← Nat.add_assoc]
    simp only [measureChildren, bind_eq_ok, measure_eq_ok node start word each.1 bound.1]
    constructor
    · rintro ⟨_, ⟨smalls, rfl, room⟩, more⟩
      obtain ⟨others, rfl, final⟩ := (measureChildren_eq_ok rest
        (start + (materializeNode provided node start).serialize.length) room each.2 bound.2).mp
        more
      exact ⟨⟨smalls, others⟩, rfl, final⟩
    · rintro ⟨⟨smalls, others⟩, rfl, final⟩
      have room : total + (materializeNode provided node start).serialize.length < 2 ^ 64 := by
        omega
      exact ⟨_, ⟨smalls, rfl, room⟩,
        (measureChildren_eq_ok rest _ room each.2 bound.2).mpr ⟨others, rfl, final⟩⟩

end

/-! ### The writer -/

theorem writeProperties_of_ready {properties : List FirmwareProperty} {output : Bytes} (start : Nat)
    (ready : ∀ p ∈ properties, Ready provided p)
    (word : (output ++ (materializeProperties provided properties start).flatMap
      FirmwareProperty.serialize).length < 2 ^ 64) :
    writeProperties provided properties output = .ok (output ++
      (materializeProperties provided properties start).flatMap FirmwareProperty.serialize) := by
  induction properties generalizing output start with
  | nil => rw [writeProperties, materializeProperties, List.flatMap_nil, List.append_nil, pure_eq]
  | cons p rest ih =>
      obtain ⟨first, others⟩ := List.forall_mem_cons.mp ready
      rw [materializeProperties, List.flatMap_cons, ← List.append_assoc] at word ⊢
      have room : (output ++ (materializeProperty provided start p).serialize).length < 2 ^ 64 := by
        rw [List.length_append] at word
        omega
      rw [writeProperties, writeProperty_of_ready first room, bind_ok]
      exact ih _ others word

mutual

/-- The writer emits the output tree. -/
theorem write_of_ready : ∀ (node : FirmwareNode) (start : Nat) {depth : Nat} {output : Bytes},
    (∀ p ∈ node.allProperties, Ready provided p) →
    (∀ entry ∈ node.nodesFrom depth, entry.2.properties.length < 2 ^ 32 ∧
      entry.2.children.length < 2 ^ 32) →
    (output ++ (materializeNode provided node start).serialize).length < 2 ^ 64 →
    write node provided output = .ok (output ++ (materializeNode provided node start).serialize)
  | ⟨offset, properties, children⟩, start, depth, output, ready, few, word => by
    obtain ⟨next, written⟩ := @materializeNode_eq provided offset properties children start
    rw [FirmwareNode.allProperties, List.forall_mem_append] at ready
    rw [FirmwareNode.nodesFrom, List.forall_mem_cons] at few
    obtain ⟨⟨few_properties, few_children⟩, below⟩ := few
    have split :
      output ++ (materializeNode provided ⟨offset, properties, children⟩ start).serialize =
        output ++ toLeBytes 4 properties.length ++ toLeBytes 4 children.length ++
          (materializeProperties provided properties (start + 8)).flatMap
            FirmwareProperty.serialize ++
          serializeAll (materializeAll provided children next) := by
      rw [written, FirmwareNode.serialize, serializeHeader, length_materializeAll,
        length_materializeProperties]
      simp only [List.append_assoc]
    rw [split] at word ⊢
    have listed_room : (output ++ toLeBytes 4 properties.length ++ toLeBytes 4 children.length ++
        (materializeProperties provided properties (start + 8)).flatMap
          FirmwareProperty.serialize).length < 2 ^ 64 := by
      rw [List.length_append] at word
      omega
    rw [write, Nat.mod_eq_of_lt few_properties, Nat.mod_eq_of_lt few_children]
    dsimp only
    rw [writeProperties_of_ready (start + 8) ready.1 listed_room, bind_ok]
    exact writeChildren_of_ready children next ready.2 below word

theorem writeChildren_of_ready : ∀ (nodes : List FirmwareNode) (start : Nat) {depth : Nat}
    {output : Bytes}, (∀ p ∈ propertiesOfAll nodes, Ready provided p) →
    (∀ entry ∈ allNodesFrom nodes depth, entry.2.properties.length < 2 ^ 32 ∧
      entry.2.children.length < 2 ^ 32) →
    (output ++ serializeAll (materializeAll provided nodes start)).length < 2 ^ 64 →
    writeChildren nodes provided output =
      .ok (output ++ serializeAll (materializeAll provided nodes start))
  | [], start, depth, output, _, _, _ => by
    rw [writeChildren, materializeAll, serializeAll, List.append_nil, pure_eq]
  | node :: rest, start, depth, output, ready, few, word => by
    rw [propertiesOfAll, List.forall_mem_append] at ready
    rw [allNodesFrom, List.forall_mem_append] at few
    rw [materializeAll, serializeAll, ← List.append_assoc] at word ⊢
    have room : (output ++ (materializeNode provided node start).serialize).length < 2 ^ 64 := by
      rw [List.length_append] at word
      omega
    rw [writeChildren, write_of_ready node start ready.1 few.1 room, bind_ok]
    exact writeChildren_of_ready rest _ ready.2 few.2 word

end

end Tree

end Nextcore.RuntimeDt
