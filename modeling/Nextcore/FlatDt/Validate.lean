import Nextcore.FlatDt.Grammar
import Nextcore.Lib.Fresh

/-!
The validator accepts the grammar.

Each part of the reader is characterized by what it has read: a property (`readProperty_eq_ok`),
the part of a node in front of its children (`readHeader_eq_ok`), the children
(`readChildren_eq_ok`, for any reader of one child) and, by induction on the levels that are
left, a node (`readNode_eq_ok`). The budget only grows, so that it is within the limits at the
end says that it was so all the time.
-/

namespace Nextcore.FlatDt

open Checked Checked.Outcome

/-! ### The budget -/

structure Budget.Within (budget : Budget) : Prop where
  nodes : budget.nodes ≤ maxNodes
  properties : budget.properties ≤ maxProperties
  bytes : budget.bytes ≤ maxSerializedSize

/-- The budget after so many nodes, properties and bytes more. -/
def Budget.spend (budget : Budget) (nodes properties bytes : Nat) : Budget :=
  ⟨budget.nodes + nodes, budget.properties + properties, budget.bytes + bytes⟩

section Budget

variable {budget budget' : Budget} {nodes properties bytes : Nat}

@[simp] theorem Budget.spend_spend (nodes' properties' bytes' : Nat) :
    (budget.spend nodes properties bytes).spend nodes' properties' bytes' =
      budget.spend (nodes + nodes') (properties + properties') (bytes + bytes') := by
  simp only [spend, Nat.add_assoc]

theorem Budget.Within.of_spend (within : (budget.spend nodes properties bytes).Within) :
    budget.Within where
  nodes := (Nat.le_add_right ..).trans within.nodes
  properties := (Nat.le_add_right ..).trans within.properties
  bytes := (Nat.le_add_right ..).trans within.bytes

theorem Budget.empty_within : Budget.empty.Within := ⟨Nat.zero_le _, Nat.zero_le _, Nat.zero_le _⟩

theorem Budget.addBytes_eq_ok (start : budget.Within) :
    budget.addBytes bytes = .ok budget' ↔
      budget' = budget.spend 0 0 bytes ∧ budget'.Within := by
  simp only [addBytes, bind_eq_ok, exists_const, ofOption_eq_ok, checkedAdd_eq_some,
    rejectIf_eq_ok, pure_eq, ok.injEq, Nat.not_lt]
  constructor
  · rintro ⟨_, ⟨_, rfl⟩, small, rfl⟩
    exact ⟨rfl, start.nodes, start.properties, small⟩
  · rintro ⟨rfl, within⟩
    have small := within.bytes
    simp only [spend] at small
    exact ⟨_, ⟨Nat.lt_of_le_of_lt small (by decide), rfl⟩, small, rfl⟩

theorem Budget.node_eq_ok {depth children : Nat} (start : budget.Within) :
    budget.node depth properties children = .ok budget' ↔
      (depth ≤ maxDepth ∧ properties ≠ 0 ∧ properties ≤ maxPropertiesPerNode ∧
        children ≤ maxChildrenPerNode) ∧
        budget' = budget.spend 1 properties 8 ∧ budget'.Within := by
  simp only [node, bind_eq_ok, exists_const, ofOption_eq_ok, checkedAdd_eq_some, rejectIf_eq_ok,
    not_or, Nat.not_lt, ← ne_eq]
  constructor
  · rintro ⟨limits, _, ⟨_, rfl⟩, _, ⟨_, rfl⟩, ⟨nodes_fit, properties_fit⟩, added⟩
    have counted : (budget.spend 1 properties 0).Within :=
      ⟨nodes_fit, properties_fit, start.bytes⟩
    obtain ⟨rfl, within⟩ := (addBytes_eq_ok counted).mp added
    exact ⟨limits, rfl, within⟩
  · rintro ⟨limits, rfl, within⟩
    have nodes_fit : budget.nodes + 1 ≤ maxNodes := within.nodes
    have properties_fit : budget.properties + properties ≤ maxProperties := within.properties
    have counted : (budget.spend 1 properties 0).Within :=
      ⟨nodes_fit, properties_fit, start.bytes⟩
    refine ⟨limits, _, ⟨Nat.lt_of_le_of_lt nodes_fit (by decide), rfl⟩, _,
      ⟨Nat.lt_of_le_of_lt properties_fit (by decide), rfl⟩, ⟨nodes_fit, properties_fit⟩, ?_⟩
    exact (addBytes_eq_ok counted).mpr ⟨rfl, within⟩

end Budget

/-! ### Names and sizes -/

theorem propertySize_eq_ok {size wire : Nat} :
    propertySize size = .ok wire ↔ size ≤ maxSerializedSize ∧ wire = 36 + roundUp 4 size := by
  have up : andNot (size + 3) 3 = roundUp 4 size := andNot_two_pow (size + 3) 2
  have near := roundUp_le_add 4 size
  simp only [propertySize, bind_eq_ok, exists_const, rejectIf_eq_ok, add_eq_ok, Nat.not_lt]
  constructor
  · rintro ⟨small, _, ⟨_, rfl⟩, _, rfl⟩
    exact ⟨small, by rw [up]⟩
  · rintro ⟨small, rfl⟩
    have : maxSerializedSize < 2 ^ 32 := by decide
    exact ⟨small, _, ⟨by omega, rfl⟩, by rw [up]; omega, by rw [up]⟩

/-- The size of a property within the budget is never refused for itself. -/
theorem addBytes_propertySize {budget budget' : Budget} {p : WireProperty} (start : budget.Within)
    (short : p.name.length ≤ 32) :
    (∃ wire, propertySize p.value.length = .ok wire ∧ budget.addBytes wire = .ok budget') ↔
      budget' = budget.spend 0 0 p.serialize.length ∧ budget'.Within := by
  rw [length_serializeProperty short]
  constructor
  · rintro ⟨wire, measured, added⟩
    obtain ⟨_, rfl⟩ := propertySize_eq_ok.mp measured
    exact (Budget.addBytes_eq_ok start).mp added
  · rintro ⟨rfl, within⟩
    have small := within.bytes
    have above := le_roundUp (p := 4) (by decide) p.value.length
    simp only [Budget.spend] at small
    exact ⟨_, propertySize_eq_ok.mpr ⟨by omega, rfl⟩,
      (Budget.addBytes_eq_ok start).mpr ⟨rfl, within⟩⟩

theorem checkPropertyName_eq_ok {name : Bytes} {u : Unit} :
    checkPropertyName name = .ok u ↔ PropertyNameOk name := by
  rw [checkPropertyName, rejectIf_eq_ok, not_or, not_or, Nat.not_lt, Bool.not_eq_false]
  exact ⟨fun ⟨nonempty, short, shown⟩ => ⟨nonempty, short, shown⟩,
    fun ⟨nonempty, short, shown⟩ => ⟨nonempty, short, shown⟩⟩

theorem checkNodeName_eq_ok {name : Bytes} {depth : Nat} {u : Unit} :
    checkNodeName name depth = .ok u ↔ NodeNameOk depth name := by
  rw [checkNodeName, rejectIf_eq_ok, not_or, not_or, Nat.not_lt, Bool.not_eq_false, not_and']
  exact ⟨fun ⟨short, nonempty, shown⟩ => ⟨short, nonempty, shown⟩,
    fun ⟨short, nonempty, shown⟩ => ⟨short, nonempty, shown⟩⟩

theorem nameOfValue_eq_ok {value name : Bytes} {depth : Nat} :
    nameOfValue value depth = .ok name ↔ value = name ++ [0] ∧ NodeNameOk depth name := by
  simp only [nameOfValue, bind_eq_ok, exists_const, rejectIf_eq_ok, not_not, sub_eq_ok,
    index_eq_ok, checkNodeName_eq_ok, pure_eq, ok.injEq, Nat.sub_zero]
  constructor
  · rintro ⟨last, _, ⟨_, rfl⟩, _, ⟨_, rfl⟩, ok, rfl⟩
    refine ⟨?_, ok⟩
    rw [window, List.drop_zero, ← List.dropLast_eq_take]
    exact (List.dropLast_append_getLast? 0 last).symm
  · rintro ⟨rfl, ok⟩
    have length : (name ++ [0]).length = name.length + 1 := by simp
    refine ⟨List.getLast?_concat .., _, ⟨by omega, rfl⟩, _, ⟨by omega, rfl⟩, ?_⟩
    have front : window (name ++ [0]) 0 ((name ++ [0]).length - 1) = name := by
      rw [length, Nat.add_sub_cancel, window, List.drop_zero, List.take_left]
    exact ⟨by rwa [front], front⟩

/-- What the next property makes of the name of the node. -/
theorem nextNodeName_eq_ok {depth : Nat} {p : WireProperty} {nodeName nodeName' : Option Bytes} :
    nextNodeName depth p.name p.value nodeName = .ok nodeName' ↔
      (p.name = asBytes "name" → ∃ name, p.value = name ++ [0] ∧ NodeNameOk depth name) ∧
        nodeName' = if p.name = asBytes "name" then some p.value.dropLast else nodeName := by
  unfold nextNodeName
  by_cases called : p.name = asBytes "name"
  · simp only [if_pos called, bind_eq_ok, nameOfValue_eq_ok, pure_eq, ok.injEq]
    constructor
    · rintro ⟨name, ⟨eq, ok⟩, rfl⟩
      refine ⟨fun _ => ⟨name, eq, ok⟩, ?_⟩
      rw [eq, List.dropLast_concat]
    · rintro ⟨valued, rfl⟩
      obtain ⟨name, eq, ok⟩ := valued called
      refine ⟨name, ⟨eq, ok⟩, ?_⟩
      rw [eq, List.dropLast_concat]
  · simp only [if_neg called, pure_eq, ok.injEq]
    exact ⟨fun same => ⟨fun named => absurd named called, same.symm⟩, fun ⟨_, same⟩ => same.symm⟩

/-! ### Properties -/

/-- The scan behind a property. -/
def PropertyScan.behind (scan : PropertyScan) (p : WireProperty) : PropertyScan where
  names := scan.names ++ [p.name]
  nodeName := if p.name = asBytes "name" then some p.value.dropLast else scan.nodeName
  reading := ⟨scan.reading.cursor + p.serialize.length,
    scan.reading.budget.spend 0 0 p.serialize.length⟩

/-- The reading behind so many nodes, properties and bytes. -/
def Reading.behind (reading : Reading) (nodes properties bytes : Nat) : Reading :=
  ⟨reading.cursor + bytes, reading.budget.spend nodes properties bytes⟩

@[simp] theorem Reading.behind_behind (reading : Reading)
    (nodes properties bytes nodes' properties' bytes' : Nat) :
    (reading.behind nodes properties bytes).behind nodes' properties' bytes' =
      reading.behind (nodes + nodes') (properties + properties') (bytes + bytes') := by
  rw [behind, behind, behind, Budget.spend_spend, Nat.add_assoc]

section Foldl

variable (properties : List WireProperty) (scan : PropertyScan)

theorem reading_foldl_behind : (properties.foldl PropertyScan.behind scan).reading =
    scan.reading.behind 0 0 (properties.flatMap WireProperty.serialize).length := by
  induction properties generalizing scan with
  | nil => rfl
  | cons p rest ih =>
      rw [List.foldl_cons, ih, List.flatMap_cons, List.length_append]
      exact Reading.behind_behind scan.reading 0 0 _ 0 0 _

/-- With distinct names, the name found by the loop is the one in the properties. -/
theorem nodeName_foldl_behind (distinct : (properties.map (·.name)).Nodup) :
    (properties.foldl PropertyScan.behind scan).nodeName =
      (nameIn properties).or scan.nodeName := by
  induction properties generalizing scan with
  | nil => rfl
  | cons p rest ih =>
      rw [List.map_cons, List.nodup_cons] at distinct
      rw [List.foldl_cons, ih _ distinct.2]
      by_cases called : p.name = asBytes "name"
      · have none : nameIn rest = none := by
          rw [nameIn, Option.map_eq_none_iff, List.find?_eq_none]
          intro q mem same
          refine distinct.1 ?_
          rw [called, ← of_decide_eq_true same]
          exact List.mem_map_of_mem mem
        rw [none, nameIn, List.find?_cons_of_pos (by simpa using called), PropertyScan.behind,
          if_pos called]
        rfl
      · have skipped : nameIn (p :: rest) = nameIn rest := by
          rw [nameIn, nameIn, List.find?_cons_of_neg (by simpa using called)]
        rw [skipped, PropertyScan.behind, if_neg called]

end Foldl

section Reading

variable {bytes : Bytes} (word : bytes.length < 2 ^ 64) {depth : Nat}
include word

/-- A name field is read as the name that is padded in it. -/
theorem readName_eq_ok {cursor cursor' : Nat} {name : Bytes} :
    readName bytes cursor = .ok (name, cursor') ↔
      PropertyNameOk name ∧ Holds bytes cursor (padded 32 name) ∧ cursor' = cursor + 32 := by
  simp only [readName, takeBytes, bind_eq_ok, exists_const, Prod.exists, take_eq_ok word,
    ofOption_eq_ok, index_eq_ok, checkPropertyName_eq_ok, indexFrom, rejectIf_eq_ok, pure_eq,
    ok.injEq, Prod.mk.injEq, Nat.sub_zero]
  constructor
  · rintro ⟨field, _, ⟨holds, sized, rfl⟩, i, found, _, ⟨_, rfl⟩, ok, _, ⟨_, rfl⟩, zeros, rfl, rfl⟩
    rw [window, List.take_of_length_le (by rw [List.length_drop]), not_any_ne_zero] at zeros
    have rest : ∀ b ∈ field.drop i, b = 0 := (List.eq_replicate_iff.mp zeros).2
    obtain ⟨eq, _⟩ := eq_padded_of_findIdx? found rest
    rw [sized] at eq
    exact ⟨ok, eq ▸ holds, rfl⟩
  · rintro ⟨ok, holds, rfl⟩
    have short : name.length < 32 := Nat.lt_succ_of_le ok.short
    have sized := length_padded (Nat.le_of_lt short)
    have front : window (padded 32 name) 0 name.length = name := by
      rw [padded, window, List.drop_zero, List.take_left]
    have zeros : ¬ (window (padded 32 name) name.length
        ((padded 32 name).length - name.length)).any (· ≠ 0) = true := by
      rw [window, List.take_of_length_le (by rw [List.length_drop]), padded, List.drop_left,
        not_any_ne_zero, List.length_replicate]
    exact ⟨_, _, ⟨holds, sized, rfl⟩, name.length,
      findIdx?_padded (zero_notMem_of_printable ok.printable) short, _, ⟨by omega, front⟩, ok, _,
      ⟨by omega, rfl⟩, zeros, rfl, rfl⟩

/-- A property was read: it lies at the cursor, its name is new, and there was room for it. -/
theorem readProperty_eq_ok {scan scan' : PropertyScan} (start : scan.reading.budget.Within) :
    readProperty bytes depth scan = .ok scan' ↔
      ∃ p, PropertyOk depth p ∧ p.name ∉ scan.names ∧
        Holds bytes scan.reading.cursor p.serialize ∧ scan' = scan.behind p ∧
        scan'.reading.budget.Within := by
  simp only [readProperty, takeBytes, readU32, bind_eq_ok, Prod.exists, readName_eq_ok word,
    take_eq_ok word, takeWord_eq_ok word, rejectIf_eq_ok, exists_const, pure_eq, ok.injEq]
  constructor
  · rintro ⟨name, _, ⟨name_ok, name_holds, rfl⟩, new, size, _, ⟨size_holds, _, rfl⟩, wire, measured,
      budget, added, value, _, ⟨value_holds, rfl, rfl⟩, nodeName, next, padding, _,
      ⟨padding_holds, padding_size, rfl⟩, zeros, rfl⟩
    have short : name.length ≤ 32 := name_ok.short.trans (by decide)
    obtain ⟨valued, rfl⟩ := (nextNodeName_eq_ok (p := ⟨name, value⟩)).mp next
    obtain ⟨rfl, within⟩ :=
      (addBytes_propertySize (p := ⟨name, value⟩) start short).mp ⟨wire, measured, added⟩
    rw [not_any_ne_zero, padding_size] at zeros
    subst zeros
    have holds : Holds bytes scan.reading.cursor (WireProperty.serialize ⟨name, value⟩) :=
      (holds_serializeProperty short).mpr ⟨name_holds, size_holds, value_holds, padding_holds⟩
    refine ⟨⟨name, value⟩, ⟨name_ok, valued⟩, new, holds, ?_, within⟩
    have aligned := length_alignment value.length
    rw [alignment, padding_size] at aligned
    rw [PropertyScan.behind, length_serializeProperty short, ← aligned]
    congr 2
    omega
  · rintro ⟨p, ⟨name_ok, valued⟩, new, holds, rfl, within⟩
    have short : p.name.length ≤ 32 := name_ok.short.trans (by decide)
    obtain ⟨wire, measured, added⟩ := (addBytes_propertySize start short).mpr ⟨rfl, within⟩
    obtain ⟨name_holds, size_holds, value_holds, padding_holds⟩ :=
      (holds_serializeProperty short).mp holds
    have small := (propertySize_eq_ok.mp measured).1
    have aligned := length_alignment p.value.length
    refine ⟨p.name, _, ⟨name_ok, name_holds, rfl⟩, new, _, _,
      ⟨size_holds, Nat.lt_of_le_of_lt small (by decide), rfl⟩, wire, measured, _, added, p.value, _,
      ⟨value_holds, rfl, rfl⟩, _, nextNodeName_eq_ok.mpr ⟨valued, rfl⟩, _, _,
      ⟨padding_holds, List.length_replicate, rfl⟩, ?_, ?_⟩
    · rw [not_any_ne_zero, alignment, List.length_replicate]
    · rw [PropertyScan.behind, length_serializeProperty short, ← aligned, alignment,
        List.length_replicate]
      congr 2
      omega

/-- The loop has read properties with new and distinct names. -/
theorem readProperties_eq_ok {count : Nat} {scan scan' : PropertyScan}
    (inside : scan.reading.cursor ≤ bytes.length) (start : scan.reading.budget.Within) :
    readProperties bytes depth count scan = .ok scan' ↔
      ∃ properties : List WireProperty, properties.length = count ∧
        (∀ p ∈ properties, PropertyOk depth p) ∧ Fresh scan.names (properties.map (·.name)) ∧
        Holds bytes scan.reading.cursor (properties.flatMap WireProperty.serialize) ∧
        scan' = properties.foldl PropertyScan.behind scan ∧ scan'.reading.budget.Within := by
  induction count generalizing scan with
  | zero =>
      simp only [readProperties, pure_eq, ok.injEq]
      constructor
      · rintro rfl
        exact ⟨[], rfl, by simp, fresh_nil _, holds_nil.mpr inside, rfl, start⟩
      · rintro ⟨properties, none, _, _, _, rfl, _⟩
        obtain rfl := List.length_eq_zero_iff.mp none
        rfl
  | succ count ih =>
      simp only [readProperties, bind_eq_ok, readProperty_eq_ok word start]
      constructor
      · rintro ⟨_, ⟨p, ok, new, holds, rfl, within⟩, rest⟩
        obtain ⟨properties, rfl, each, fresh, others, rfl, final⟩ := (ih holds.fits within).mp rest
        refine ⟨p :: properties, rfl, List.forall_mem_cons.mpr ⟨ok, each⟩, ?_, ?_, rfl, final⟩
        · exact fresh_cons.mpr ⟨new, fresh⟩
        · rw [List.flatMap_cons]
          exact holds_append.mpr ⟨holds, others⟩
      · rintro ⟨properties, length, each, fresh, holds, rfl, final⟩
        cases properties with
        | nil => cases length
        | cons p properties =>
            rw [List.map_cons, fresh_cons] at fresh
            rw [List.flatMap_cons, holds_append] at holds
            rw [List.foldl_cons] at final ⊢
            obtain ⟨ok, each⟩ := List.forall_mem_cons.mp each
            obtain ⟨new, fresh⟩ := fresh
            have within : (scan.behind p).reading.budget.Within := by
              rw [reading_foldl_behind] at final
              exact final.of_spend
            refine ⟨_, ⟨p, ok, new, holds.1, rfl, within⟩, ?_⟩
            exact (ih holds.1.fits within).mpr
              ⟨properties, Nat.succ.inj length, each, fresh, holds.2, rfl, final⟩

/-- The part of a node in front of its children was read. -/
theorem readHeader_eq_ok {reading reading' : Reading} {children : Nat} {name : Bytes}
    (start : reading.budget.Within) :
    readHeader bytes depth reading = .ok (children, name, reading') ↔
      depth ≤ maxDepth ∧ children ≤ maxChildrenPerNode ∧
        ∃ properties, PropertiesOk depth properties ∧ nameIn properties = some name ∧
          Holds bytes reading.cursor (serializeHeader properties children) ∧
          reading' = reading.behind 1 properties.length
            (serializeHeader properties children).length ∧ reading'.budget.Within := by
  simp only [readHeader, readU32, bind_eq_ok, Prod.exists, takeWord_eq_ok word,
    Budget.node_eq_ok start, ofOption_eq_ok, pure_eq, ok.injEq, Prod.mk.injEq]
  constructor
  · rintro ⟨count, _, ⟨count_holds, _, rfl⟩, _, _, ⟨children_holds, _, rfl⟩, _,
      ⟨⟨shallow, nonzero, few, few_children⟩, rfl, spent⟩, _, read, _, named, rfl, rfl, rfl⟩
    obtain ⟨properties, rfl, each, ⟨distinct, _⟩, holds, rfl, within⟩ :=
      (readProperties_eq_ok word children_holds.fits spent).mp read
    rw [nodeName_foldl_behind _ _ distinct, Option.or_none] at named
    rw [reading_foldl_behind] at within ⊢
    refine ⟨shallow, few_children, properties, ⟨?_, few, each, distinct, ?_⟩, named, ?_, ?_, within⟩
    · exact List.length_pos_iff.mp (Nat.pos_of_ne_zero nonzero)
    · exact exists_of_nameIn named
    · rw [holds_serializeHeader]
      exact ⟨count_holds, children_holds, holds⟩
    · rw [length_serializeHeader]
      exact Reading.behind_behind reading 1 properties.length 8 0 0 _
  · rintro ⟨shallow, few_children, properties, ok, named, holds, rfl, within⟩
    obtain ⟨count_holds, children_holds, holds⟩ := holds_serializeHeader.mp holds
    have nonzero := Nat.pos_iff_ne_zero.mp (List.length_pos_iff.mpr ok.some)
    have all : (reading.behind 1 properties.length 8).behind 0 0
        (properties.flatMap WireProperty.serialize).length =
        reading.behind 1 properties.length (serializeHeader properties children).length := by
      rw [length_serializeHeader]
      exact Reading.behind_behind reading 1 properties.length 8 0 0 _
    rw [← all] at within ⊢
    have spent : (reading.behind 1 properties.length 8).budget.Within := within.of_spend
    have read := (@readProperties_eq_ok bytes word depth properties.length
      ⟨[], none, reading.behind 1 properties.length 8⟩ _ children_holds.fits spent).mpr
      ⟨properties, rfl, ok.each, fresh_iff_nodup.mpr ok.distinct, holds, rfl,
        by rwa [reading_foldl_behind]⟩
    refine ⟨_, _, ⟨count_holds, ?_, rfl⟩, _, _, ⟨children_holds, ?_, rfl⟩, _,
      ⟨⟨shallow, nonzero, ok.few, few_children⟩, rfl, spent⟩, _, read, _, ?_, rfl, rfl, ?_⟩
    · exact Nat.lt_of_le_of_lt ok.few (by decide)
    · exact Nat.lt_of_le_of_lt few_children (by decide)
    · rw [nodeName_foldl_behind _ _ ok.distinct, Option.or_none, named]
    · rw [reading_foldl_behind]

end Reading

/-! ### Nodes -/

/-- The reading behind the given nodes, which take so many bytes. -/
def Reading.behindNodes (reading : Reading) (nodes : List (Nat × WireNode)) (bytes : Nat) :
    Reading :=
  reading.behind nodes.length (propertyCount nodes) bytes

theorem Reading.behindNodes_append (reading : Reading) (nodes nodes' : List (Nat × WireNode))
    (bytes bytes' : Nat) :
    (reading.behindNodes nodes bytes).behindNodes nodes' bytes' =
      reading.behindNodes (nodes ++ nodes') (bytes + bytes') := by
  rw [behindNodes, behindNodes, behindNodes, behind_behind, propertyCount, propertyCount,
    propertyCount, List.length_append, List.map_append, List.sum_append]

/-- From one reading to another, the nodes of some trees were read. -/
structure ReadAs (bytes : Bytes) (reading reading' : Reading) (nodes : List (Nat × WireNode))
    (chunk : Bytes) : Prop where
  each : ∀ entry ∈ nodes, NodeOk entry.1 entry.2
  holds : Holds bytes reading.cursor chunk
  behind : reading' = reading.behindNodes nodes chunk.length
  within : reading'.budget.Within

theorem readAs_append {bytes a b : Bytes} {reading reading' : Reading}
    {nodes nodes' : List (Nat × WireNode)} :
    ReadAs bytes reading reading' (nodes ++ nodes') (a ++ b) ↔
      ReadAs bytes reading (reading.behindNodes nodes a.length) nodes a ∧
        ReadAs bytes (reading.behindNodes nodes a.length) reading' nodes' b := by
  constructor
  · rintro ⟨each, holds, rfl, within⟩
    obtain ⟨first, others⟩ := List.forall_mem_append.mp each
    obtain ⟨front, back⟩ := holds_append.mp holds
    rw [List.length_append, ← Reading.behindNodes_append] at within ⊢
    exact ⟨⟨first, front, rfl, within.of_spend⟩, others, back, rfl, within⟩
  · rintro ⟨⟨first, front, _, _⟩, others, back, rfl, within⟩
    rw [Reading.behindNodes_append, ← List.length_append] at within ⊢
    exact ⟨List.forall_mem_append.mpr ⟨first, others⟩, holds_append.mpr ⟨front, back⟩, rfl, within⟩

theorem NodeOk.name {depth : Nat} {node : WireNode} (ok : NodeOk depth node) :
    ∃ name, node.name? = some name := by
  obtain ⟨p, mem, called⟩ := ok.properties.named
  exact ⟨_, nameIn_eq_some mem ok.properties.distinct called⟩

/-- A reader of single nodes, which accepts those of the grammar. -/
def ReadsNodes (bytes : Bytes) (depth : Nat) (child : Reading → Result (Bytes × Reading)) : Prop :=
  ∀ reading name reading', reading.budget.Within →
    (child reading = .ok (name, reading') ↔ ∃ node : WireNode, node.name? = some name ∧
      ReadAs bytes reading reading' (node.nodesFrom depth) node.serialize)

/-- The loop over the children has read nodes with new and distinct names. -/
theorem readChildren_eq_ok {bytes : Bytes} {depth : Nat}
    {child : Reading → Result (Bytes × Reading)}
    (reads : ReadsNodes bytes depth child) {count : Nat} {names : List Bytes}
    {reading reading' : Reading} (inside : reading.cursor ≤ bytes.length)
    (start : reading.budget.Within) :
    readChildren child count names reading = .ok reading' ↔
      ∃ nodes : List WireNode, nodes.length = count ∧
        Fresh (names.map some) (nodes.map WireNode.name?) ∧
        ReadAs bytes reading reading' (allNodesFrom nodes depth) (serializeAll nodes) := by
  induction count generalizing names reading with
  | zero =>
      simp only [readChildren, pure_eq, ok.injEq]
      constructor
      · rintro rfl
        exact ⟨[], rfl, fresh_nil _, by simp [allNodesFrom], holds_nil.mpr inside, rfl, start⟩
      · rintro ⟨nodes, none, _, _, _, rfl, _⟩
        obtain rfl := List.length_eq_zero_iff.mp none
        rfl
  | succ count ih =>
      simp only [readChildren, bind_eq_ok, exists_const, Prod.exists, reads _ _ _ start,
        rejectIf_eq_ok]
      constructor
      · rintro ⟨name, _, ⟨node, named, read⟩, new, rest⟩
        obtain ⟨nodes, rfl, fresh, others⟩ :=
          (ih (read.behind ▸ read.holds.fits) read.within).mp rest
        rw [List.map_append] at fresh
        refine ⟨node :: nodes, rfl, ?_, ?_⟩
        · rw [List.map_cons, named, fresh_cons, List.mem_map_of_injective (Option.some_injective _)]
          exact ⟨new, fresh⟩
        · rw [allNodesFrom, serializeAll, readAs_append, ← read.behind]
          exact ⟨read, others⟩
      · rintro ⟨nodes, length, fresh, read⟩
        cases nodes with
        | nil => cases length
        | cons node nodes =>
            rw [allNodesFrom, serializeAll, readAs_append] at read
            obtain ⟨first, others⟩ := read
            obtain ⟨name, named⟩ := (first.each _ (node.mem_nodesFrom depth)).name
            rw [List.map_cons, named, fresh_cons,
              List.mem_map_of_injective (Option.some_injective _)] at fresh
            refine ⟨name, _, ⟨node, named, first⟩, fresh.1, ?_⟩
            refine (ih (first.behind ▸ first.holds.fits) first.within).mpr
              ⟨nodes, Nat.succ.inj length, ?_, others⟩
            rw [List.map_append]
            exact fresh.2

theorem readNode_eq (bytes : Bytes) (depth : Nat) (reading : Reading) :
    readNode bytes depth reading = (do
      let (children, name, reading) ← readHeader bytes depth reading
      let reading ← readChildren (readNode bytes (depth + 1)) children [] reading
      pure (name, reading)) := by
  rw [readNode]
  split <;> rename_i read <;> rw [read]
  · rfl
  · rfl
  · rfl

/-- A node was read: a tree of the grammar lies at the cursor, and there was room for it. -/
theorem readsNodes_readNode {bytes : Bytes} (word : bytes.length < 2 ^ 64) (depth : Nat) :
    ReadsNodes bytes depth (readNode bytes depth) := by
  -- By induction on the levels that are left; below the last of them no header is read.
  induction levels : maxDepth + 1 - depth generalizing depth with
  | zero =>
      intro reading name reading' start
      simp only [readNode_eq, bind_eq_ok, Prod.exists, readHeader_eq_ok word start]
      constructor
      · rintro ⟨_, _, _, ⟨shallow, _⟩, _⟩
        omega
      · rintro ⟨node, _, read⟩
        have shallow := (read.each _ (WireNode.mem_nodesFrom node depth)).shallow
        dsimp only at shallow
        omega
  | succ levels ih =>
      have reads := ih (depth + 1) (by omega)
      intro reading name reading' start
      simp only [readNode_eq, bind_eq_ok, Prod.exists, readHeader_eq_ok word start, pure_eq,
        ok.injEq, Prod.mk.injEq]
      constructor
      · rintro ⟨_, _, _, ⟨shallow, few, properties, properties_ok, named, holds, rfl, within⟩,
          _, rest, rfl, rfl⟩
        obtain ⟨nodes, rfl, ⟨distinct, _⟩, read⟩ :=
          (readChildren_eq_ok reads holds.fits within).mp rest
        refine ⟨⟨properties, nodes⟩, named, ?_⟩
        rw [WireNode.nodesFrom, WireNode.serialize, ← List.singleton_append, readAs_append]
        refine ⟨⟨?_, holds, rfl, within⟩, read⟩
        exact List.forall_mem_singleton.mpr ⟨shallow, properties_ok, few, distinct⟩
      · rintro ⟨⟨properties, nodes⟩, named, read⟩
        rw [WireNode.nodesFrom, WireNode.serialize, ← List.singleton_append, readAs_append] at read
        obtain ⟨⟨each, holds, _, within⟩, read⟩ := read
        obtain ⟨shallow, properties_ok, few, distinct⟩ := List.forall_mem_singleton.mp each
        refine ⟨nodes.length, name, _, ⟨shallow, few, properties, properties_ok, named, holds, rfl,
          within⟩, reading', ?_, rfl, rfl⟩
        exact (readChildren_eq_ok reads holds.fits within).mpr
          ⟨nodes, rfl, fresh_iff_nodup.mpr distinct, read⟩

/-! ### The validator -/

theorem validate_eq_ok {bytes : Bytes} :
    validate bytes = .ok () ↔ ∃ root, Grammatical root ∧ root.serialize = bytes := by
  simp only [validate, bind_eq_ok, exists_const, Prod.exists, rejectIf_eq_ok, Nat.not_lt, not_not]
  constructor
  · rintro ⟨small, name, reading, read, all⟩
    have word : bytes.length < 2 ^ 64 := Nat.lt_of_le_of_lt small (by decide)
    obtain ⟨root, _, each, holds, rfl, within⟩ :=
      (readsNodes_readNode word 0 ⟨0, .empty⟩ name _ Budget.empty_within).mp read
    simp only [Reading.behindNodes, Reading.behind, Budget.spend, Budget.empty,
      Nat.zero_add] at all within
    exact ⟨root, ⟨each, within.nodes, within.properties, within.bytes⟩, holds.eq_of_length all⟩
  · rintro ⟨root, ok, rfl⟩
    have word : root.serialize.length < 2 ^ 64 := Nat.lt_of_le_of_lt ok.bytes (by decide)
    obtain ⟨name, named⟩ := (ok.each _ (root.mem_nodesFrom 0)).name
    refine ⟨ok.bytes, name, _,
      (readsNodes_readNode word 0 ⟨0, .empty⟩ name _ Budget.empty_within).mpr
        ⟨root, named, ok.each, holds_self _, rfl, ?_⟩, ?_⟩
    · simp only [Reading.behindNodes, Reading.behind, Budget.spend, Budget.empty, Nat.zero_add]
      exact ⟨ok.nodes, ok.properties, ok.bytes⟩
    · simp only [Reading.behindNodes, Reading.behind, Nat.zero_add]

end Nextcore.FlatDt
