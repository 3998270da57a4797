import Nextcore.FlatDt.Accepted
import Mathlib.Data.List.Nodup
import Mathlib.Algebra.BigOperators.Ring.List

/-!
The encoder and the validator agree.

A node of the model has one form on the wire (`FlatNode.wire`). The measurement accepts what the
grammar accepts of it and spends the length of its serialization (`measureNode_eq_ok`); the
writer, where the names and the counts fit their fields, emits that serialization
(`writeNode_eq_ok`). So both halves of the codec are described by one grammar, and the grammar's
unambiguity makes the encoder injective.
-/

namespace Nextcore.FlatDt

open Checked Checked.Outcome

/-! ### The form on the wire -/

def FlatProperty.wire (p : FlatProperty) : WireProperty := ⟨asBytes p.name, p.value⟩

/-- The properties of a node on the wire. Its name comes first. -/
def wireProperties (name : String) (properties : List FlatProperty) : List WireProperty :=
  ⟨asBytes "name", asBytes name ++ [0]⟩ :: properties.map FlatProperty.wire

mutual

def FlatNode.wire : FlatNode → WireNode
  | ⟨name, properties, children⟩ => ⟨wireProperties name properties, wireAll children⟩

def wireAll : List FlatNode → List WireNode
  | [] => []
  | child :: rest => child.wire :: wireAll rest

end

theorem wireAll_eq_map (nodes : List FlatNode) : wireAll nodes = nodes.map FlatNode.wire := by
  induction nodes with
  | nil => rfl
  | cons node rest ih => rw [wireAll, ih, List.map_cons]

theorem FlatNode.name?_wire (node : FlatNode) : node.wire.name? = some (asBytes node.name) := by
  obtain ⟨name, properties, children⟩ := node
  rw [wire, WireNode.name?, wireProperties, nameIn, List.find?_cons_of_pos (by simp),
    Option.map_some, List.dropLast_concat]

theorem FlatProperty.wire_injective : Function.Injective FlatProperty.wire := by
  rintro ⟨name, value⟩ ⟨name', value'⟩ same
  rw [wire, wire, WireProperty.mk.injEq, asBytes_inj] at same
  exact congrArg₂ FlatProperty.mk same.1 same.2

mutual

theorem FlatNode.wire_inj : ∀ {a b : FlatNode}, a.wire = b.wire → a = b
  | ⟨name, properties, children⟩, ⟨name', properties', children'⟩, same => by
    rw [FlatNode.wire, FlatNode.wire, WireNode.mk.injEq, wireProperties, wireProperties,
      List.cons.injEq, WireProperty.mk.injEq, List.append_cancel_right_eq] at same
    obtain ⟨⟨⟨_, named⟩, listed⟩, below⟩ := same
    obtain rfl := asBytes_inj.mp named
    rw [List.map_injective_iff.mpr FlatProperty.wire_injective listed, wireAll_inj below]

theorem wireAll_inj : ∀ {as bs : List FlatNode}, wireAll as = wireAll bs → as = bs
  | [], [], _ => rfl
  | [], _ :: _, same => by
    rw [wireAll, wireAll] at same
    cases same
  | _ :: _, [], same => by
    rw [wireAll, wireAll] at same
    cases same
  | a :: as, b :: bs, same => by
    rw [wireAll, wireAll, List.cons.injEq] at same
    rw [FlatNode.wire_inj same.1, wireAll_inj same.2]

end

/-! ### What the grammar says of the model -/

theorem propertyNameOk_name : PropertyNameOk (asBytes "name") :=
  ⟨by decide, by decide, by decide⟩

/-- The properties of the model are those of the grammar when their own names are good, none of
them is called `name`, and no two are called alike. -/
theorem propertiesOk_wire {depth : Nat} {name : String} {properties : List FlatProperty} :
    PropertiesOk depth (wireProperties name properties) ↔
      properties.length + 1 ≤ maxPropertiesPerNode ∧ NodeNameOk depth (asBytes name) ∧
        (∀ p ∈ properties, PropertyNameOk (asBytes p.name) ∧ p.name ≠ "name") ∧
        (properties.map (·.name)).Nodup := by
  have listed : (properties.map FlatProperty.wire).map (·.name) =
      (properties.map (·.name)).map asBytes := by
    rw [List.map_map, List.map_map]
    rfl
  have names : ((wireProperties name properties).map (·.name)).Nodup ↔
      (∀ p ∈ properties, p.name ≠ "name") ∧ (properties.map (·.name)).Nodup := by
    rw [wireProperties, List.map_cons, List.nodup_cons, listed,
      List.nodup_map_iff fun _ _ => asBytes_inj.mp,
      List.mem_map_of_injective fun _ _ => asBytes_inj.mp, List.mem_map]
    refine and_congr_left fun _ => ?_
    exact ⟨fun new p mem called => new ⟨p, mem, called⟩,
      fun new ⟨p, mem, called⟩ => new p mem called⟩
  constructor
  · rintro ⟨_, few, each, distinct, _⟩
    obtain ⟨others, unlike⟩ := names.mp distinct
    rw [wireProperties, List.length_cons, List.length_map] at few
    rw [wireProperties, List.forall_mem_cons, List.forall_mem_map] at each
    obtain ⟨n, same, ok⟩ := each.1.value rfl
    obtain rfl := List.append_cancel_right same
    exact ⟨few, ok, fun p mem => ⟨(each.2 p mem).name, others p mem⟩, unlike⟩
  · rintro ⟨few, ok, each, unlike⟩
    refine ⟨List.cons_ne_nil _ _, ?_, ?_, names.mpr ⟨fun p mem => (each p mem).2, unlike⟩,
      ⟨_, List.mem_cons_self, rfl⟩⟩
    · rwa [wireProperties, List.length_cons, List.length_map]
    · rw [wireProperties, List.forall_mem_cons, List.forall_mem_map]
      refine ⟨⟨propertyNameOk_name, fun _ => ⟨_, rfl, ok⟩⟩, fun p mem => ?_⟩
      obtain ⟨named, other⟩ := each p mem
      exact ⟨named, fun called => absurd (asBytes_inj.mp called) other⟩

/-! ### The measurement -/

section Measure

variable {budget budget' : Budget}

/-- What an earlier one of a list is not called. -/
theorem not_any_name {α : Type} {name : α → String} {earlier : List α} {n : String} :
    ¬ (earlier.any fun a => name a = n) = true ↔ ∀ a ∈ earlier, name a ≠ n := by
  simp

theorem measureProperties_eq_ok {earlier properties : List FlatProperty} (start : budget.Within) :
    measureProperties earlier properties budget = .ok budget' ↔
      (∀ p ∈ properties, PropertyNameOk (asBytes p.name) ∧ p.name ≠ "name") ∧
        (properties.map (·.name)).Nodup ∧
        (∀ p ∈ properties, ∀ q ∈ earlier, q.name ≠ p.name) ∧
        budget' = budget.spend 0 0
          ((properties.map FlatProperty.wire).flatMap WireProperty.serialize).length ∧
        budget'.Within := by
  induction properties generalizing earlier budget with
  | nil =>
      simp only [measureProperties, pure_eq, ok.injEq]
      constructor
      · rintro rfl
        exact ⟨by simp, List.nodup_nil, by simp, rfl, start⟩
      · rintro ⟨_, _, _, rfl, _⟩
        rfl
  | cons p rest ih =>
      have total : budget.spend 0 0
          (((p :: rest).map FlatProperty.wire).flatMap WireProperty.serialize).length =
          (budget.spend 0 0 p.wire.serialize.length).spend 0 0
            ((rest.map FlatProperty.wire).flatMap WireProperty.serialize).length := by
        rw [Budget.spend_spend, ← List.length_append, ← List.flatMap_cons, ← List.map_cons]
      simp only [measureProperties, bind_eq_ok, exists_const, checkPropertyName_eq_ok,
        rejectIf_eq_ok, not_or, not_any_name]
      rw [total]
      constructor
      · rintro ⟨named, ⟨other, new⟩, size, measured, counted, added, more⟩
        have short : p.wire.name.length ≤ 32 := named.short.trans (by decide)
        obtain ⟨rfl, within⟩ := (addBytes_propertySize start short).mp ⟨size, measured, added⟩
        obtain ⟨each, unlike, fresh, rfl, final⟩ := (ih within).mp more
        refine ⟨List.forall_mem_cons.mpr ⟨⟨named, other⟩, each⟩, ?_, ?_, rfl, final⟩
        · rw [List.map_cons, List.nodup_cons]
          refine ⟨fun repeated => ?_, unlike⟩
          obtain ⟨q, mem, same⟩ := List.mem_map.mp repeated
          exact fresh q mem p (by simp) same.symm
        · refine List.forall_mem_cons.mpr ⟨new, fun q mem r old => fresh q mem r ?_⟩
          exact List.mem_append_left _ old
      · rintro ⟨each, unlike, fresh, rfl, final⟩
        obtain ⟨⟨named, other⟩, each⟩ := List.forall_mem_cons.mp each
        obtain ⟨new, fresh⟩ := List.forall_mem_cons.mp fresh
        rw [List.map_cons, List.nodup_cons] at unlike
        have short : p.wire.name.length ≤ 32 := named.short.trans (by decide)
        obtain ⟨size, measured, added⟩ :=
          (addBytes_propertySize start short).mpr ⟨rfl, final.of_spend⟩
        refine ⟨named, ⟨other, new⟩, size, measured, _, added, ?_⟩
        refine (ih final.of_spend).mpr ⟨each, unlike.2, fun q mem r among same => ?_, rfl, final⟩
        rcases List.mem_append.mp among with old | last
        · exact fresh q mem r old same
        · obtain rfl := List.mem_singleton.mp last
          exact unlike.1 (same ▸ List.mem_map_of_mem mem)

/-- The measurement went over the given nodes, which take so many bytes. -/
structure MeasuredAs (budget budget' : Budget) (nodes : List (Nat × WireNode)) (bytes : Nat) :
    Prop where
  each : ∀ entry ∈ nodes, NodeOk entry.1 entry.2
  spent : budget' = budget.spend nodes.length (propertyCount nodes) bytes
  within : budget'.Within

theorem measuredAs_append {nodes nodes' : List (Nat × WireNode)} {bytes bytes' : Nat} :
    MeasuredAs budget budget' (nodes ++ nodes') (bytes + bytes') ↔
      ∃ between, MeasuredAs budget between nodes bytes ∧
        MeasuredAs between budget' nodes' bytes' := by
  have split : budget.spend (nodes ++ nodes').length (propertyCount (nodes ++ nodes'))
      (bytes + bytes') = (budget.spend nodes.length (propertyCount nodes) bytes).spend
        nodes'.length (propertyCount nodes') bytes' := by
    rw [Budget.spend_spend, propertyCount, List.length_append, List.map_append, List.sum_append]
    rfl
  constructor
  · rintro ⟨each, rfl, within⟩
    obtain ⟨first, others⟩ := List.forall_mem_append.mp each
    rw [split] at within ⊢
    exact ⟨_, ⟨first, rfl, within.of_spend⟩, others, rfl, within⟩
  · rintro ⟨_, ⟨first, rfl, _⟩, others, rfl, within⟩
    rw [← split] at within ⊢
    exact ⟨List.forall_mem_append.mpr ⟨first, others⟩, rfl, within⟩

theorem length_wireAll (nodes : List FlatNode) : (wireAll nodes).length = nodes.length := by
  rw [wireAll_eq_map, List.length_map]

theorem name?_wireAll (nodes : List FlatNode) :
    ((wireAll nodes).map WireNode.name?).Nodup ↔ (nodes.map (·.name)).Nodup := by
  have listed : (wireAll nodes).map WireNode.name? =
      (nodes.map (·.name)).map fun name => some (asBytes name) := by
    rw [wireAll_eq_map, List.map_map, List.map_map]
    exact List.map_congr_left fun node _ => node.name?_wire
  rw [listed, List.nodup_map_iff]
  exact fun _ _ same => asBytes_inj.mp (Option.some.inj same)

/-- The part of `measure_node` in front of the children. -/
def measureHeader (name : String) (properties : List FlatProperty) (children depth : Nat)
    (budget : Budget) : Result Budget := do
  let propertyCount ← ofOption .limitsExceeded (checkedAdd properties.length 1)
  let budget ← budget.node depth propertyCount children
  checkNodeName (asBytes name) depth
  let nameSize ← add (asBytes name).length 1
  let size ← propertySize nameSize
  let budget ← budget.addBytes size
  measureProperties [] properties budget

theorem measureNode_eq (name : String) (properties : List FlatProperty) (children : List FlatNode)
    (depth : Nat) (budget : Budget) :
    measureNode ⟨name, properties, children⟩ depth budget = (do
      let budget ← measureHeader name properties children.length depth budget
      measureChildren [] children depth budget) := by
  rw [measureNode, measureHeader]
  simp only [bind_assoc]

theorem measureHeader_eq_ok {name : String} {properties : List FlatProperty}
    {children depth : Nat} (start : budget.Within) :
    measureHeader name properties children depth budget = .ok budget' ↔
      (depth ≤ maxDepth ∧ PropertiesOk depth (wireProperties name properties) ∧
          children ≤ maxChildrenPerNode) ∧
        budget' = budget.spend 1 (wireProperties name properties).length
          (serializeHeader (wireProperties name properties) children).length ∧
        budget'.Within := by
  have count : (wireProperties name properties).length = properties.length + 1 := by
    rw [wireProperties, List.length_cons, List.length_map]
  have total : ((budget.spend 1 (properties.length + 1) 8).spend 0 0
        (WireProperty.serialize ⟨asBytes "name", asBytes name ++ [0]⟩).length).spend 0 0
        ((properties.map FlatProperty.wire).flatMap WireProperty.serialize).length =
      budget.spend 1 (wireProperties name properties).length
        (serializeHeader (wireProperties name properties) children).length := by
    rw [Budget.spend_spend, Budget.spend_spend, count, length_serializeHeader, wireProperties,
      List.flatMap_cons, List.length_append, Nat.add_assoc]
  have sized : (asBytes name ++ [0]).length = (asBytes name).length + 1 := by simp
  have short : (asBytes "name").length ≤ 32 := by decide
  simp only [measureHeader, bind_eq_ok, exists_const, ofOption_eq_ok, checkedAdd_eq_some,
    checkNodeName_eq_ok, add_eq_ok, propertiesOk_wire]
  rw [← total]
  constructor
  · rintro ⟨_, ⟨_, rfl⟩, _, noded, name_ok, _, ⟨_, rfl⟩, size, measured, _, added, listed⟩
    obtain ⟨⟨shallow, _, few, few_children⟩, rfl, within⟩ := (Budget.node_eq_ok start).mp noded
    rw [← sized] at measured
    obtain ⟨rfl, within⟩ := (addBytes_propertySize
      (p := ⟨asBytes "name", asBytes name ++ [0]⟩) within short).mp ⟨size, measured, added⟩
    obtain ⟨each, unlike, _, rfl, within⟩ := (measureProperties_eq_ok within).mp listed
    exact ⟨⟨shallow, ⟨few, name_ok, each, unlike⟩, few_children⟩, rfl, within⟩
  · rintro ⟨⟨shallow, ⟨few, name_ok, each, unlike⟩, few_children⟩, rfl, within⟩
    have name_within := within.of_spend
    obtain ⟨size, measured, added⟩ := (addBytes_propertySize
      (p := ⟨asBytes "name", asBytes name ++ [0]⟩) name_within.of_spend short).mpr
      ⟨rfl, name_within⟩
    have listed : measureProperties [] properties _ = .ok _ :=
      (measureProperties_eq_ok name_within).mpr ⟨each, unlike, by simp, rfl, within⟩
    have word : maxPropertiesPerNode < 2 ^ 64 := by decide
    have name_word : maxNodeName + 1 < 2 ^ 64 := by decide
    have name_short := name_ok.short
    rw [sized] at measured
    exact ⟨_, ⟨by omega, rfl⟩, _, (Budget.node_eq_ok start).mpr
      ⟨⟨shallow, by omega, few, few_children⟩, rfl, name_within.of_spend⟩, name_ok, _,
      ⟨by omega, rfl⟩, size, measured, _, added, listed⟩

mutual

/-- The measurement accepts the nodes of the grammar, and spends what they take on the wire. -/
theorem measureNode_eq_ok : ∀ (node : FlatNode) {depth : Nat} {budget budget' : Budget},
    budget.Within → (measureNode node depth budget = .ok budget' ↔
      MeasuredAs budget budget' (node.wire.nodesFrom depth) node.wire.serialize.length)
  | ⟨name, properties, children⟩, depth, budget, budget', start => by
    rw [measureNode_eq, bind_eq_ok, FlatNode.wire, WireNode.nodesFrom, WireNode.serialize,
      List.length_append, ← List.singleton_append, measuredAs_append, length_wireAll]
    refine exists_congr fun between => ?_
    rw [measureHeader_eq_ok start]
    constructor
    · rintro ⟨⟨⟨shallow, listed, few⟩, rfl, within⟩, more⟩
      obtain ⟨unlike, _, below⟩ := (measureChildren_eq_ok children within).mp more
      refine ⟨⟨List.forall_mem_singleton.mpr ⟨shallow, listed, ?_, ?_⟩, ?_, within⟩, below⟩
      · rwa [length_wireAll]
      · rwa [name?_wireAll]
      · simp [propertyCount]
    · rintro ⟨⟨each, rfl, within⟩, below⟩
      obtain ⟨shallow, listed, few, unlike⟩ := List.forall_mem_singleton.mp each
      rw [length_wireAll] at few
      rw [name?_wireAll] at unlike
      refine ⟨⟨⟨shallow, listed, few⟩, ?_, within⟩, ?_⟩
      · simp [propertyCount]
      · exact (measureChildren_eq_ok children within).mpr ⟨unlike, by simp, below⟩

theorem measureChildren_eq_ok : ∀ (children : List FlatNode) {earlier : List FlatNode}
    {depth : Nat} {budget budget' : Budget}, budget.Within →
    (measureChildren earlier children depth budget = .ok budget' ↔
      (children.map (·.name)).Nodup ∧ (∀ c ∈ children, ∀ e ∈ earlier, e.name ≠ c.name) ∧
        MeasuredAs budget budget' (allNodesFrom (wireAll children) (depth + 1))
          (serializeAll (wireAll children)).length)
  | [], earlier, depth, budget, budget', start => by
    rw [measureChildren, wireAll, allNodesFrom, serializeAll, pure_eq, ok.injEq]
    constructor
    · rintro rfl
      exact ⟨List.nodup_nil, by simp, by simp, rfl, start⟩
    · rintro ⟨_, _, _, rfl, _⟩
      rfl
  | child :: rest, earlier, depth, budget, budget', start => by
    rw [measureChildren, wireAll, allNodesFrom, serializeAll, List.length_append,
      measuredAs_append]
    simp only [bind_eq_ok, exists_const, rejectIf_eq_ok, not_any_name,
      measureNode_eq_ok child start]
    constructor
    · rintro ⟨new, between, first, more⟩
      obtain ⟨unlike, fresh, others⟩ := (measureChildren_eq_ok rest first.within).mp more
      refine ⟨?_, ?_, between, first, others⟩
      · rw [List.map_cons, List.nodup_cons]
        refine ⟨fun repeated => ?_, unlike⟩
        obtain ⟨other, mem, same⟩ := List.mem_map.mp repeated
        exact fresh other mem child (by simp) same.symm
      · refine List.forall_mem_cons.mpr ⟨new, fun c mem e old => fresh c mem e ?_⟩
        exact List.mem_append_left _ old
    · rintro ⟨unlike, fresh, between, first, others⟩
      rw [List.map_cons, List.nodup_cons] at unlike
      obtain ⟨new, fresh⟩ := List.forall_mem_cons.mp fresh
      refine ⟨new, between, first, (measureChildren_eq_ok rest first.within).mpr
        ⟨unlike.2, fun c mem e among same => ?_, others⟩⟩
      rcases List.mem_append.mp among with old | last
      · exact fresh c mem e old same
      · obtain rfl := List.mem_singleton.mp last
        exact unlike.1 (same ▸ List.mem_map_of_mem mem)

end

end Measure

/-! ### The writer -/

mutual

/-- The nodes of a model. -/
def FlatNode.nodes : FlatNode → List FlatNode
  | ⟨name, properties, children⟩ => ⟨name, properties, children⟩ :: allNodes children

def allNodes : List FlatNode → List FlatNode
  | [] => []
  | child :: rest => child.nodes ++ allNodes rest

end

/-- The names, values and counts of a node fit the fields that the writer has for them. -/
structure Writable (node : FlatNode) : Prop where
  name : (asBytes node.name).length ≤ maxNodeName
  count : node.properties.length + 1 < 2 ^ 32
  each : ∀ p ∈ node.properties, (asBytes p.name).length ≤ 32 ∧ p.value.length < 2 ^ 32
  children : node.children.length < 2 ^ 32

section Write

variable {bytes out : Bytes}

theorem four_dvd_serializeProperty {p : WireProperty} (short : p.name.length ≤ 32) :
    4 ∣ p.serialize.length := by
  rw [length_serializeProperty short]
  exact Nat.dvd_add (by decide) (dvd_roundUp ..)

theorem writeProperty_eq_ok {name value : Bytes} (aligned : 4 ∣ bytes.length) :
    writeProperty name value bytes = .ok out ↔
      (name.length ≤ 32 ∧ value.length < 2 ^ 32) ∧
        out = bytes ++ WireProperty.serialize ⟨name, value⟩ ∧ out.length < 2 ^ 64 := by
  have up (size : Nat) : andNot (size + 3) 3 = roundUp 4 size := andNot_two_pow (size + 3) 2
  simp only [writeProperty, bind_eq_ok, tryU32_eq_ok, copyFrom_eq_ok, add_eq_ok, pure_eq,
    ok.injEq, List.length_replicate, Nat.sub_zero, and_true, Nat.zero_le, true_and]
  -- The bytes without the padding, and the padding behind them.
  have written :
      (bytes ++ overlay (List.replicate 32 0) 0 name ++ toLeBytes 4 value.length ++ value).length =
        bytes.length + 36 + value.length := by
    simp only [List.length_append, length_overlay, List.length_replicate, length_toLeBytes]
  have padding (short : name.length ≤ 32) :
      resize (bytes ++ overlay (List.replicate 32 0) 0 name ++ toLeBytes 4 value.length ++ value)
        (roundUp 4 (bytes.length + 36 + value.length)) =
        bytes ++ WireProperty.serialize ⟨name, value⟩ := by
    have zeros : roundUp 4 (bytes.length + 36 + value.length) - (bytes.length + 36 + value.length) =
        (4 - value.length % 4) % 4 := by
      rw [roundUp, roundDown]
      omega
    have above := le_roundUp (p := 4) (by decide) (bytes.length + 36 + value.length)
    rw [resize_of_le (by rw [written]; exact above), written, zeros,
      overlay_zeros short, WireProperty.serialize, alignment]
    simp only [List.append_assoc]
  have total (short : name.length ≤ 32) :
      (bytes ++ WireProperty.serialize ⟨name, value⟩).length =
        roundUp 4 (bytes.length + 36 + value.length) := by
    rw [List.length_append, length_serializeProperty short, roundUp, roundDown, roundUp, roundDown]
    dsimp only
    omega
  constructor
  · rintro ⟨_, ⟨small, rfl⟩, _, ⟨short, rfl⟩, _, ⟨room, rfl⟩, rfl⟩
    rw [written] at room ⊢
    rw [up, padding short, total short]
    refine ⟨⟨short, small⟩, rfl, ?_⟩
    exact Nat.lt_of_le_of_lt (roundUp_le_add 4 _) room
  · rintro ⟨⟨short, small⟩, rfl, room⟩
    rw [total short] at room
    refine ⟨_, ⟨small, rfl⟩, _, ⟨short, rfl⟩, _, ⟨?_, rfl⟩, ?_⟩
    · rw [written]
      rw [roundUp, roundDown] at room
      omega
    · rw [written, up, padding short]

theorem writeProperties_eq_ok {properties : List FlatProperty} (aligned : 4 ∣ bytes.length)
    (word : bytes.length < 2 ^ 64) :
    writeProperties properties bytes = .ok out ↔
      (∀ p ∈ properties, (asBytes p.name).length ≤ 32 ∧ p.value.length < 2 ^ 32) ∧
        out = bytes ++ (properties.map FlatProperty.wire).flatMap WireProperty.serialize ∧
        out.length < 2 ^ 64 := by
  induction properties generalizing bytes with
  | nil =>
      simp only [writeProperties, pure_eq, ok.injEq, List.map_nil, List.flatMap_nil,
        List.append_nil]
      constructor
      · rintro rfl
        exact ⟨by simp, rfl, word⟩
      · rintro ⟨_, rfl, _⟩
        rfl
  | cons p rest ih =>
      simp only [writeProperties, bind_eq_ok, writeProperty_eq_ok aligned]
      rw [List.forall_mem_cons, List.map_cons, List.flatMap_cons, ← List.append_assoc]
      have behind (short : (asBytes p.name).length ≤ 32) :
        4 ∣ (bytes ++ p.wire.serialize).length := by
        rw [List.length_append]
        exact Nat.dvd_add aligned (four_dvd_serializeProperty short)
      constructor
      · rintro ⟨_, ⟨fits, rfl, word⟩, more⟩
        obtain ⟨each, rfl, final⟩ := (ih (behind fits.1) word).mp more
        exact ⟨⟨fits, each⟩, rfl, final⟩
      · rintro ⟨⟨fits, each⟩, rfl, final⟩
        have word : (bytes ++ p.wire.serialize).length < 2 ^ 64 := by
          rw [List.length_append] at final
          omega
        exact ⟨_, ⟨fits, rfl, word⟩, (ih (behind fits.1) word).mpr ⟨each, rfl, final⟩⟩

/-- The part of `write_node` in front of the children. -/
def writeHeader (name : String) (properties : List FlatProperty) (children : Nat)
    (bytes : Bytes) : Result Bytes := do
  let propertyCount ← add properties.length 1
  let propertyCount ← tryU32 propertyCount .limitsExceeded
  let childCount ← tryU32 children .limitsExceeded
  let bytes := bytes ++ toLeBytes 4 propertyCount ++ toLeBytes 4 childCount
  let nameValue ← copyFrom (List.replicate (maxNodeName + 1) 0) 0 (asBytes name).length
    (asBytes name)
  let nameValue ← index nameValue 0 ((asBytes name).length + 1)
  let bytes ← writeProperty (asBytes "name") nameValue bytes
  writeProperties properties bytes

theorem writeNode_eq (name : String) (properties : List FlatProperty) (children : List FlatNode)
    (bytes : Bytes) :
    writeNode ⟨name, properties, children⟩ bytes = (do
      let bytes ← writeHeader name properties children.length bytes
      writeChildren children bytes) := by
  rw [writeNode, writeHeader]
  simp only [bind_assoc]

theorem wireProperties_short {name : String} {properties : List FlatProperty}
    (each : ∀ p ∈ properties, (asBytes p.name).length ≤ 32) :
    ∀ p ∈ wireProperties name properties, p.name.length ≤ 32 := by
  rw [wireProperties, List.forall_mem_cons, List.forall_mem_map]
  exact ⟨(by decide : (asBytes "name").length ≤ 32), each⟩

theorem four_dvd_serializeHeader {properties : List WireProperty} {children : Nat}
    (short : ∀ p ∈ properties, p.name.length ≤ 32) :
    4 ∣ (serializeHeader properties children).length := by
  rw [length_serializeHeader, List.length_flatMap]
  refine Nat.dvd_add (by decide) (List.dvd_sum fun size mem => ?_)
  obtain ⟨p, among, rfl⟩ := List.mem_map.mp mem
  exact four_dvd_serializeProperty (short p among)

theorem writeHeader_eq_ok {name : String} {properties : List FlatProperty} {children : Nat}
    (aligned : 4 ∣ bytes.length) :
    writeHeader name properties children bytes = .ok out ↔
      ((asBytes name).length ≤ maxNodeName ∧ properties.length + 1 < 2 ^ 32 ∧
        (∀ p ∈ properties, (asBytes p.name).length ≤ 32 ∧ p.value.length < 2 ^ 32) ∧
        children < 2 ^ 32) ∧
        out = bytes ++ serializeHeader (wireProperties name properties) children ∧
        out.length < 2 ^ 64 := by
  have aligned' {a b : Nat} : 4 ∣ (bytes ++ toLeBytes 4 a ++ toLeBytes 4 b).length := by
    simp only [List.length_append, length_toLeBytes]
    omega
  have name_short : (asBytes "name").length ≤ 32 := by decide
  have split : bytes ++ serializeHeader (wireProperties name properties) children =
      bytes ++ toLeBytes 4 (properties.length + 1) ++ toLeBytes 4 children ++
        WireProperty.serialize ⟨asBytes "name", asBytes name ++ [0]⟩ ++
        (properties.map FlatProperty.wire).flatMap WireProperty.serialize := by
    simp only [serializeHeader, wireProperties, List.length_cons, List.length_map,
      List.flatMap_cons, List.append_assoc]
  have aligned'' : 4 ∣ (bytes ++ toLeBytes 4 (properties.length + 1) ++ toLeBytes 4 children ++
      WireProperty.serialize ⟨asBytes "name", asBytes name ++ [0]⟩).length := by
    rw [List.length_append]
    exact Nat.dvd_add aligned' (four_dvd_serializeProperty name_short)
  simp only [writeHeader, bind_eq_ok, add_eq_ok, tryU32_eq_ok, copyFrom_eq_ok, index_eq_ok,
    writeProperty_eq_ok aligned', List.length_replicate]
  rw [split]
  constructor
  · rintro ⟨_, ⟨_, rfl⟩, _, ⟨count, rfl⟩, _, ⟨few, rfl⟩, _, ⟨_, rfl⟩, _, ⟨⟨_, fits⟩, rfl⟩, _,
      ⟨_, rfl, word⟩, listed⟩
    rw [length_overlay, List.length_replicate] at fits
    rw [Nat.sub_zero, overlay_zeros (by omega), window_padded (by omega)] at listed word
    obtain ⟨each, rfl, final⟩ := (writeProperties_eq_ok aligned'' word).mp listed
    exact ⟨⟨Nat.le_of_lt_succ fits, count, each, few⟩, rfl, final⟩
  · rintro ⟨⟨short, count, each, few⟩, rfl, final⟩
    have word : (bytes ++ toLeBytes 4 (properties.length + 1) ++ toLeBytes 4 children ++
        WireProperty.serialize ⟨asBytes "name", asBytes name ++ [0]⟩).length < 2 ^ 64 := by
      rw [List.length_append] at final
      omega
    have name_window : window (overlay (List.replicate (maxNodeName + 1) 0) 0 (asBytes name)) 0
        ((asBytes name).length + 1 - 0) = asBytes name ++ [0] := by
      rw [Nat.sub_zero, overlay_zeros (by omega), window_padded (by omega)]
    have small : (asBytes name ++ [0]).length < 2 ^ 32 := by
      have : maxNodeName + 1 < 2 ^ 32 := by decide
      rw [List.length_append, List.length_singleton]
      omega
    refine ⟨_, ⟨by omega, rfl⟩, _, ⟨count, rfl⟩, _, ⟨few, rfl⟩, _,
      ⟨⟨Nat.zero_le _, by omega, rfl⟩, rfl⟩, _, ⟨⟨Nat.zero_le _, ?_⟩, name_window⟩, _,
      ⟨⟨name_short, small⟩, rfl, word⟩, ?_⟩
    · rw [length_overlay, List.length_replicate]
      omega
    · exact (writeProperties_eq_ok aligned'' word).mpr ⟨each, rfl, final⟩

mutual

theorem four_dvd_wire : ∀ (node : FlatNode), (∀ n ∈ node.nodes, Writable n) →
    4 ∣ node.wire.serialize.length
  | ⟨name, properties, children⟩, fits => by
    rw [FlatNode.nodes, List.forall_mem_cons] at fits
    rw [FlatNode.wire, WireNode.serialize, List.length_append]
    refine Nat.dvd_add (four_dvd_serializeHeader ?_) (four_dvd_wireAll children fits.2)
    exact wireProperties_short fun p mem => (fits.1.each p mem).1

theorem four_dvd_wireAll : ∀ (nodes : List FlatNode), (∀ n ∈ allNodes nodes, Writable n) →
    4 ∣ (serializeAll (wireAll nodes)).length
  | [], _ => Nat.dvd_zero 4
  | node :: rest, fits => by
    rw [allNodes, List.forall_mem_append] at fits
    rw [wireAll, serializeAll, List.length_append]
    exact Nat.dvd_add (four_dvd_wire node fits.1) (four_dvd_wireAll rest fits.2)

end

mutual

/-- The writer emits the serialization of every model whose parts fit their fields. -/
theorem writeNode_eq_ok : ∀ (node : FlatNode) {bytes out : Bytes}, 4 ∣ bytes.length →
    bytes.length < 2 ^ 64 →
    (writeNode node bytes = .ok out ↔ (∀ n ∈ node.nodes, Writable n) ∧
      out = bytes ++ node.wire.serialize ∧ out.length < 2 ^ 64)
  | ⟨name, properties, children⟩, bytes, out, aligned, word => by
    rw [writeNode_eq, FlatNode.nodes, FlatNode.wire, WireNode.serialize, List.forall_mem_cons,
      length_wireAll, ← List.append_assoc]
    simp only [bind_eq_ok, writeHeader_eq_ok aligned]
    have behind (each : ∀ p ∈ properties, (asBytes p.name).length ≤ 32 ∧ p.value.length < 2 ^ 32) :
        4 ∣ (bytes ++ serializeHeader (wireProperties name properties) children.length).length := by
      rw [List.length_append]
      exact Nat.dvd_add aligned
        (four_dvd_serializeHeader (wireProperties_short fun p mem => (each p mem).1))
    constructor
    · rintro ⟨_, ⟨⟨short, count, each, few⟩, rfl, word⟩, more⟩
      obtain ⟨below, rfl, final⟩ := (writeChildren_eq_ok children (behind each) word).mp more
      exact ⟨⟨⟨short, count, each, few⟩, below⟩, rfl, final⟩
    · rintro ⟨⟨⟨short, count, each, few⟩, below⟩, rfl, final⟩
      have word : (bytes ++ serializeHeader (wireProperties name properties)
          children.length).length < 2 ^ 64 := by
        rw [List.length_append] at final
        omega
      exact ⟨_, ⟨⟨short, count, each, few⟩, rfl, word⟩,
        (writeChildren_eq_ok children (behind each) word).mpr ⟨below, rfl, final⟩⟩

theorem writeChildren_eq_ok : ∀ (children : List FlatNode) {bytes out : Bytes},
    4 ∣ bytes.length → bytes.length < 2 ^ 64 →
    (writeChildren children bytes = .ok out ↔ (∀ n ∈ allNodes children, Writable n) ∧
      out = bytes ++ serializeAll (wireAll children) ∧ out.length < 2 ^ 64)
  | [], bytes, out, aligned, word => by
    rw [writeChildren, allNodes, wireAll, serializeAll, List.append_nil, pure_eq, ok.injEq]
    constructor
    · rintro rfl
      exact ⟨by simp, rfl, word⟩
    · rintro ⟨_, rfl, _⟩
      rfl
  | child :: rest, bytes, out, aligned, word => by
    rw [writeChildren, allNodes, wireAll, serializeAll, List.forall_mem_append,
      ← List.append_assoc]
    simp only [bind_eq_ok, writeNode_eq_ok child aligned word]
    have behind (fits : ∀ n ∈ child.nodes, Writable n) :
        4 ∣ (bytes ++ child.wire.serialize).length := by
      rw [List.length_append]
      exact Nat.dvd_add aligned (four_dvd_wire child fits)
    constructor
    · rintro ⟨_, ⟨first, rfl, word⟩, more⟩
      obtain ⟨others, rfl, final⟩ := (writeChildren_eq_ok rest (behind first) word).mp more
      exact ⟨⟨first, others⟩, rfl, final⟩
    · rintro ⟨⟨first, others⟩, rfl, final⟩
      have word : (bytes ++ child.wire.serialize).length < 2 ^ 64 := by
        rw [List.length_append] at final
        omega
      exact ⟨_, ⟨first, rfl, word⟩,
        (writeChildren_eq_ok rest (behind first) word).mpr ⟨others, rfl, final⟩⟩

end

theorem writeNode_nil {node : FlatNode} :
    writeNode node [] = .ok out ↔ (∀ n ∈ node.nodes, Writable n) ∧ out = node.wire.serialize ∧
      out.length < 2 ^ 64 := by
  have aligned : 4 ∣ ([] : Bytes).length := Nat.dvd_zero 4
  rw [writeNode_eq_ok node aligned (by decide), List.nil_append]

end Write

/-! ### The agreement -/

mutual

/-- The nodes on the wire are those of the model. -/
theorem nodes_wire : ∀ (node : FlatNode) (depth : Nat),
    (node.wire.nodesFrom depth).map (·.2) = node.nodes.map FlatNode.wire
  | ⟨name, properties, children⟩, depth => by
    rw [FlatNode.nodes, List.map_cons, FlatNode.wire, WireNode.nodesFrom, List.map_cons,
      allNodes_wire children]

theorem allNodes_wire : ∀ (nodes : List FlatNode) (depth : Nat),
    (allNodesFrom (wireAll nodes) depth).map (·.2) = (allNodes nodes).map FlatNode.wire
  | [], _ => rfl
  | node :: rest, depth => by
    rw [wireAll, allNodesFrom, allNodes, List.map_append, List.map_append, nodes_wire node,
      allNodes_wire rest]

end

theorem measureNode_eq_ok_iff {node : FlatNode} {budget : Budget} :
    measureNode node 0 .empty = .ok budget ↔ Grammatical node.wire ∧
      budget = ⟨(node.wire.nodesFrom 0).length, propertyCount (node.wire.nodesFrom 0),
        node.wire.serialize.length⟩ := by
  rw [measureNode_eq_ok node Budget.empty_within]
  have spent (nodes properties bytes : Nat) : Budget.empty.spend nodes properties bytes =
      ⟨nodes, properties, bytes⟩ := by
    simp only [Budget.spend, Budget.empty, Nat.zero_add]
  constructor
  · rintro ⟨each, rfl, within⟩
    rw [spent] at within ⊢
    exact ⟨⟨each, within.nodes, within.properties, within.bytes⟩, rfl⟩
  · rintro ⟨⟨each, nodes, properties, bytes⟩, rfl⟩
    exact ⟨each, (spent ..).symm, ⟨nodes, properties, bytes⟩⟩

/-- What the measurement accepts fits the fields of the writer. -/
theorem Grammatical.writable {node : FlatNode} (ok : Grammatical node.wire) :
    ∀ n ∈ node.nodes, Writable n := by
  intro n mem
  have listed := List.mem_map_of_mem (f := FlatNode.wire) mem
  rw [← nodes_wire node 0] at listed
  obtain ⟨entry, among, same⟩ := List.mem_map.mp listed
  have noded := ok.each entry among
  have values := node.wire.value_le among
  obtain ⟨name, properties, children⟩ := n
  rw [same, FlatNode.wire] at noded values
  obtain ⟨few, name_ok, each, _⟩ := propertiesOk_wire.mp noded.properties
  refine ⟨name_ok.short, Nat.lt_of_le_of_lt few (by decide), fun p mem => ⟨?_, ?_⟩, ?_⟩
  · exact (each p mem).1.short.trans (by decide)
  · have valued := values p.wire (List.mem_cons_of_mem _ (List.mem_map_of_mem mem))
    exact Nat.lt_of_le_of_lt (valued.trans ok.bytes) (by decide)
  · have few_children := noded.few
    rw [length_wireAll] at few_children
    exact Nat.lt_of_le_of_lt few_children (by decide)

theorem writeNode_of_grammatical {node : FlatNode} (ok : Grammatical node.wire) :
    writeNode node [] = .ok node.wire.serialize :=
  writeNode_nil.mpr ⟨ok.writable, rfl, Nat.lt_of_le_of_lt ok.bytes (by decide)⟩

theorem encode_eq_ok {node : FlatNode} {bytes : Bytes} :
    encode node = .ok bytes ↔ Grammatical node.wire ∧ bytes = node.wire.serialize := by
  simp only [encode, bind_eq_ok, measureNode_eq_ok_iff]
  constructor
  · rintro ⟨_, ⟨ok, _⟩, written⟩
    exact ⟨ok, (writeNode_nil.mp written).2.1⟩
  · rintro ⟨ok, rfl⟩
    exact ⟨_, ⟨ok, rfl⟩, writeNode_of_grammatical ok⟩

/-- The names of a node fit their fields and have no NUL that would end them early, and the
lengths of its values fit their words. -/
structure Carried (node : FlatNode) : Prop where
  name : (asBytes node.name).length ≤ maxNodeName
  each : ∀ p ∈ node.properties, (asBytes p.name).length ≤ maxPropertyName ∧
    0 ∉ asBytes p.name ∧ p.value.length < 2 ^ 32

instance (node : FlatNode) : Decidable (Carried node) :=
  decidable_of_iff ((asBytes node.name).length ≤ maxNodeName ∧
    ∀ p ∈ node.properties, (asBytes p.name).length ≤ maxPropertyName ∧
      0 ∉ asBytes p.name ∧ p.value.length < 2 ^ 32)
    ⟨fun ⟨name, each⟩ => ⟨name, each⟩, fun ⟨name, each⟩ => ⟨name, each⟩⟩

theorem Writable.framed {node : FlatNode} (fits : Writable node) (carried : Carried node) :
    NodeFramed node.wire := by
  obtain ⟨name, properties, children⟩ := node
  rw [FlatNode.wire]
  refine ⟨?_, ?_, ?_⟩
  · rw [wireProperties, List.length_cons, List.length_map]
    exact fits.count
  · rw [wireProperties, List.forall_mem_cons, List.forall_mem_map]
    have name_clear : 0 ∉ asBytes "name" ∧ (asBytes "name").length < 32 := by decide
    refine ⟨⟨name_clear, ?_⟩, fun p mem => ?_⟩
    · have short : (asBytes name).length ≤ maxNodeName := fits.name
      have : maxNodeName + 1 < 2 ^ 32 := by decide
      rw [List.length_append, List.length_singleton]
      omega
    · obtain ⟨short, nonzero, small⟩ := carried.each p mem
      exact ⟨⟨nonzero, Nat.lt_succ_of_le short⟩, small⟩
  · rw [length_wireAll]
    exact fits.children

theorem framed_wire {node : FlatNode} (fits : ∀ n ∈ node.nodes, Writable n)
    (carried : ∀ n ∈ node.nodes, Carried n) :
    ∀ entry ∈ node.wire.nodesFrom 0, NodeFramed entry.2 := by
  intro entry mem
  have listed := List.mem_map_of_mem (f := Prod.snd) mem
  rw [nodes_wire node 0] at listed
  obtain ⟨n, among, same⟩ := List.mem_map.mp listed
  rw [← same]
  exact (fits n among).framed (carried n among)

/-- Encoding succeeds exactly when the validator accepts what the writer emits. The output has
the size that was measured, and no other model has it. -/
theorem encode_agrees (node : FlatNode) (carried : ∀ n ∈ node.nodes, Carried n) :
    (∀ bytes, encode node = .ok bytes ↔ writeNode node [] = .ok bytes ∧ validate bytes = .ok ()) ∧
      (∀ bytes, encode node = .ok bytes → ∃ budget, measureNode node 0 .empty = .ok budget ∧
        bytes.length = budget.bytes ∧ 4 ∣ bytes.length) ∧
      ∀ node' bytes, encode node = .ok bytes → encode node' = .ok bytes → node = node' := by
  refine ⟨fun bytes => ⟨fun encoded => ?_, fun ⟨written, accepted⟩ => ?_⟩,
    fun bytes encoded => ?_, fun node' bytes encoded encoded' => ?_⟩
  · obtain ⟨ok, rfl⟩ := encode_eq_ok.mp encoded
    exact ⟨writeNode_of_grammatical ok, validate_eq_ok.mpr ⟨_, ok, rfl⟩⟩
  · -- The accepted tree is the one that was written, because the bytes have only one.
    obtain ⟨fits, rfl, _⟩ := writeNode_nil.mp written
    obtain ⟨root, ok, same⟩ := validate_eq_ok.mp accepted
    have equal : root = node.wire := (root.serialize_append_inj node.wire (x := []) (y := [])
      ok.framed (framed_wire fits carried) (by rw [same])).1
    exact encode_eq_ok.mpr ⟨equal ▸ ok, rfl⟩
  · obtain ⟨ok, rfl⟩ := encode_eq_ok.mp encoded
    exact ⟨_, measureNode_eq_ok_iff.mpr ⟨ok, rfl⟩, rfl, four_dvd_wire node ok.writable⟩
  · obtain ⟨ok, rfl⟩ := encode_eq_ok.mp encoded
    obtain ⟨ok', same⟩ := encode_eq_ok.mp encoded'
    exact FlatNode.wire_inj (ok.unique ok' same)

/-- A root with a property and a child: what is written is accepted, so it is encoded. -/
theorem encode_agrees_sample :
    ∃ bytes, encode ⟨"/", [⟨"model", [7]⟩], [⟨"cpus", [], []⟩]⟩ = .ok bytes ∧
      validate bytes = .ok () := by
  obtain ⟨bytes, encoded⟩ := Outcome.isOk_iff.mp
    (by decide +kernel : (encode ⟨"/", [⟨"model", [7]⟩], [⟨"cpus", [], []⟩]⟩).isOk = true)
  exact ⟨bytes, encoded, (((encode_agrees _ (by decide +kernel)).1 bytes).mp encoded).2⟩

end Nextcore.FlatDt
