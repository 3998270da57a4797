import Nextcore.RuntimeDt.Cover

/-!
What the output of `prepare` says about its bindings.

The bindings come in any order and with any labels: the output is a function of the values that
they give to the templates, and these values can be read off the output
(`prepare_bytes_eq_iff`).
-/

namespace Nextcore.RuntimeDt

open Checked Checked.Outcome
open FirmwareDt (FirmwareProperty FirmwareNode FirmwareDeviceTree propertiesOfAll)

/-- The bindings give `value` to the property, whatever their labels. -/
def Assigns (provided : List ProvidedValue) (id : PropertyId) (value : Bytes) : Prop :=
  ∃ binding ∈ provided, binding.property = id ∧ binding.value = value

/-! ### Equal trees -/

section Trees

variable {provided provided' : List ProvidedValue}

/-- Two lists of bindings give the same values to some properties. -/
def SameValues (provided provided' : List ProvidedValue) (properties : List FirmwareProperty) :
    Prop :=
  ∀ p ∈ properties, replacedValue provided p = replacedValue provided' p

theorem sameValues_append {properties properties' : List FirmwareProperty} :
    SameValues provided provided' (properties ++ properties') ↔
      SameValues provided provided' properties ∧ SameValues provided provided' properties' :=
  List.forall_mem_append

theorem materializeProperty_value {p : FirmwareProperty} {start : Nat} :
    (materializeProperty provided start p).value = replacedValue provided p := by
  rcases FirmwareDt.kind_eq_literal_or_template p with literal | template
  · rw [materializeProperty_literal literal, replacedValue_literal literal]
  · rw [materializeProperty_template template]

theorem materializeProperty_eq_iff {p : FirmwareProperty} {start : Nat} :
    materializeProperty provided start p = materializeProperty provided' start p ↔
      replacedValue provided p = replacedValue provided' p := by
  constructor
  · intro same
    have values := congrArg FirmwareProperty.value same
    rwa [materializeProperty_value, materializeProperty_value] at values
  · intro same
    rcases FirmwareDt.kind_eq_literal_or_template p with literal | template
    · rw [materializeProperty_literal literal, materializeProperty_literal literal]
    · rw [materializeProperty_template template, materializeProperty_template template, same]

theorem materializeProperties_eq_iff {properties : List FirmwareProperty} {start : Nat} :
    materializeProperties provided properties start =
        materializeProperties provided' properties start ↔
      SameValues provided provided' properties := by
  induction properties generalizing start with
  | nil => simp [materializeProperties, SameValues]
  | cons p rest ih =>
      rw [materializeProperties, materializeProperties, List.cons.injEq,
        materializeProperty_eq_iff, SameValues, List.forall_mem_cons]
      refine and_congr_right fun same => ?_
      -- The rest starts where the first property ends, which is the same place.
      rw [materializeProperty_eq_iff.mpr same]
      exact ih

mutual

theorem materializeNode_eq_iff : ∀ (node : FirmwareNode) (start : Nat),
    materializeNode provided node start = materializeNode provided' node start ↔
      SameValues provided provided' node.allProperties
  | ⟨_, properties, children⟩, start => by
    rw [materializeNode, materializeNode, FirmwareNode.mk.injEq, FirmwareNode.allProperties,
      sameValues_append, materializeProperties_eq_iff]
    refine ⟨fun ⟨_, own, below⟩ => ⟨own, ?_⟩, fun ⟨own, below⟩ => ⟨rfl, own, ?_⟩⟩
    · rw [materializeProperties_eq_iff.mpr own] at below
      exact (materializeAll_eq_iff children _).mp below
    · rw [materializeProperties_eq_iff.mpr own]
      exact (materializeAll_eq_iff children _).mpr below

theorem materializeAll_eq_iff : ∀ (nodes : List FirmwareNode) (start : Nat),
    materializeAll provided nodes start = materializeAll provided' nodes start ↔
      SameValues provided provided' (propertiesOfAll nodes)
  | [], start => by simp [materializeAll, propertiesOfAll, SameValues]
  | node :: rest, start => by
    rw [materializeAll, materializeAll, List.cons.injEq, propertiesOfAll, sameValues_append,
      materializeNode_eq_iff node start]
    refine and_congr_right fun first => ?_
    rw [(materializeNode_eq_iff node start).mpr first]
    exact materializeAll_eq_iff rest _

end

end Trees

/-! ### Equal outputs -/

section Outputs

variable {provided provided' : List ProvidedValue} {maximumOutput maximumOutput' : Nat}

/-- The value of a template is what its binding gives it. -/
theorem assigns_iff {digest : Bytes} {root : FirmwareNode}
    (admitted : Admitted digest provided maximumOutput root) {p : FirmwareProperty}
    (mem : p ∈ root.allProperties) (template : p.kind = .template) {value : Bytes} :
    Assigns provided ⟨digest, p.offset⟩ value ↔ replacedValue provided p = value := by
  obtain ⟨binding, found⟩ := admitted.covered p mem template
  obtain ⟨among, here, only⟩ := replacement_unique admitted.bindings admitted.distinct found
  rw [replacedValue_template template found]
  constructor
  · rintro ⟨other, listed, named, rfl⟩
    rw [only other listed (by rw [named])]
  · rintro rfl
    refine ⟨binding, among, ?_, rfl⟩
    rw [← (admitted.bindings binding among).digest, ← here]

/-- The templates have the same values exactly when the bindings give the same values. -/
theorem sameValues_iff {digest : Bytes} {root : FirmwareNode}
    (admitted : Admitted digest provided maximumOutput root)
    (admitted' : Admitted digest provided' maximumOutput' root) :
    SameValues provided provided' root.allProperties ↔
      ∀ id value, Assigns provided id value ↔ Assigns provided' id value := by
  constructor
  · intro same id value
    by_cases known : id ∈ idsOf digest root.allProperties
    · obtain ⟨p, listed, rfl⟩ := List.mem_map.mp known
      obtain ⟨mem, kind⟩ := List.mem_filter.mp listed
      have template : p.kind = .template := of_decide_eq_true kind
      rw [assigns_iff admitted mem template, assigns_iff admitted' mem template, same p mem]
    · refine iff_of_false ?_ ?_
      · rintro ⟨binding, among, rfl, _⟩
        exact known (admitted.bindings binding among).known
      · rintro ⟨binding, among, rfl, _⟩
        exact known (admitted'.bindings binding among).known
  · intro same p mem
    rcases FirmwareDt.kind_eq_literal_or_template p with literal | template
    · rw [replacedValue_literal literal, replacedValue_literal literal]
    · have own : Assigns provided ⟨digest, p.offset⟩ (replacedValue provided p) :=
        (assigns_iff admitted mem template).mpr rfl
      exact ((assigns_iff admitted' mem template).mp ((same _ _).mp own)).symm

/-- The bytes are those of one tree. -/
theorem materialized_eq_iff {root : FirmwareNode} (ok : FirmwareDt.Grammatical root)
    (ready : ∀ p ∈ root.allProperties, Ready provided p)
    (ready' : ∀ p ∈ root.allProperties, Ready provided' p)
    (small : (materialized provided root).length ≤ FirmwareDt.maxInputBytes)
    (small' : (materialized provided' root).length ≤ FirmwareDt.maxInputBytes) :
    materialized provided root = materialized provided' root ↔
      SameValues provided provided' root.allProperties := by
  rw [← materializeNode_eq_iff root 0]
  constructor
  · intro same
    have parse := parse_materialized (grammatical_materialized ok ready small).1
    have parse' := parse_materialized (grammatical_materialized ok ready' small').1
    rw [same, parse'] at parse
    exact (congrArg FirmwareDeviceTree.root (Outcome.ok.inj parse)).symm
  · intro same
    rw [materialized, same, materialized]

theorem assigns_perm (perm : provided.Perm provided') (id : PropertyId) (value : Bytes) :
    Assigns provided id value ↔ Assigns provided' id value :=
  exists_congr fun _ => and_congr_left fun _ => perm.mem_iff

/-- Reordered bindings are admitted as they were. -/
theorem Admitted.perm {digest : Bytes} {root : FirmwareNode}
    (admitted : Admitted digest provided maximumOutput root) (perm : provided.Perm provided') :
    Admitted digest provided' maximumOutput root where
  limit := ⟨admitted.limit.1, admitted.limit.2.1, perm.length_eq ▸ admitted.limit.2.2⟩
  unstructural := admitted.unstructural
  few := admitted.few
  bindings := fun binding mem => admitted.bindings binding (perm.mem_iff.mpr mem)
  distinct := (perm.map (·.property)).nodup_iff.mp admitted.distinct
  covered := fun p mem template => by
    obtain ⟨binding, found⟩ := admitted.covered p mem template
    have hit := List.find?_some found
    have among := perm.mem_iff.mp (List.mem_of_find?_eq_some found)
    exact Option.isSome_iff_exists.mp (List.find?_isSome.mpr ⟨binding, among, hit⟩)

variable [Sha256] {source : Bytes} {tree tree' : MaterializedTree}

/-- Everything that a successful call has found out about its bindings. -/
theorem ready_of_prepared (prepared : prepare source provided maximumOutput = .ok tree) :
    ∃ parsed, FirmwareDeviceTree.parse source = .ok parsed ∧
      Admitted (sourceIdentity source) provided maximumOutput parsed.root ∧
      (∀ p ∈ parsed.root.allProperties, Ready provided p) ∧
      (materialized provided parsed.root).length ≤ FirmwareDt.maxInputBytes ∧
      tree = preparedTree source provided parsed.root := by
  obtain ⟨parsed, parse, admitted, small, fits, _, rfl⟩ := prepare_eq_ok.mp prepared
  have ok := (FirmwareDt.parse_eq_ok.mp parse).1
  exact ⟨parsed, parse, admitted, fun p mem =>
    ⟨ok.propertyOk p mem, admitted.covered p mem, small p mem⟩,
    fits.trans admitted.limit.2.1, rfl⟩

/-- The output parses to the source's tree with the bindings in place. -/
theorem output_of_prepared (prepared : prepare source provided maximumOutput = .ok tree) :
    ∃ parsed output, FirmwareDeviceTree.parse source = .ok parsed ∧
      FirmwareDeviceTree.parse tree.bytes = .ok output ∧
      NodeSubstituted provided parsed.root output.root := by
  obtain ⟨parsed, parse, admitted, ready, small, rfl⟩ := ready_of_prepared prepared
  have ok := (FirmwareDt.parse_eq_ok.mp parse).1
  exact ⟨parsed, _, parse, parse_materialized (grammatical_materialized ok ready small).1,
    nodeSubstituted _ _ fun p mem start =>
      propertySubstituted admitted.bindings admitted.distinct start (ready p mem)⟩

theorem accepted_of_prepared (prepared : prepare source provided maximumOutput = .ok tree) :
    FlatDt.validate tree.bytes = .ok () := by
  obtain ⟨_, _, _, _, _, accepted, rfl⟩ := prepare_eq_ok.mp prepared
  exact accepted

/-- Two outputs of one source are equal exactly when the bindings give the same values. -/
theorem prepare_bytes_eq_iff (prepared : prepare source provided maximumOutput = .ok tree)
    (prepared' : prepare source provided' maximumOutput' = .ok tree') :
    tree'.bytes = tree.bytes ↔
      ∀ id value, Assigns provided id value ↔ Assigns provided' id value := by
  obtain ⟨parsed, parse, admitted, ready, small, rfl⟩ := ready_of_prepared prepared
  obtain ⟨parsed', parse', admitted', ready', small', rfl⟩ := ready_of_prepared prepared'
  rw [parse] at parse'
  cases parse'
  rw [eq_comm, ← sameValues_iff admitted admitted']
  exact materialized_eq_iff (FirmwareDt.parse_eq_ok.mp parse).1 ready ready' small small'

/-- A successful call succeeds with the bindings in any other order, for the same bytes. -/
theorem prepare_perm (prepared : prepare source provided maximumOutput = .ok tree)
    (perm : provided.Perm provided') :
    ∃ tree', prepare source provided' maximumOutput = .ok tree' ∧ tree'.bytes = tree.bytes ∧
      tree'.replacementCount = tree.replacementCount ∧ tree'.bindings.Perm tree.bindings := by
  obtain ⟨parsed, parse, admitted, small, fits, accepted, rfl⟩ := prepare_eq_ok.mp prepared
  have admitted' := admitted.perm perm
  have same := (sameValues_iff admitted admitted').mpr (assigns_perm perm)
  have bytes : materialized provided' parsed.root = materialized provided parsed.root := by
    rw [materialized, ← (materializeNode_eq_iff parsed.root 0).mpr same, materialized]
  refine ⟨preparedTree source provided' parsed.root, prepare_eq_ok.mpr ⟨parsed, parse, admitted',
    fun p mem => ?_, ?_, ?_, rfl⟩, bytes, rfl, (perm.map _).symm⟩
  · rw [← same p mem]
    exact small p mem
  · rw [bytes]
    exact fits
  · rw [bytes]
    exact accepted

/-- The output is a function of the values that the bindings give, and it determines them. Whether
a call succeeds, and with which bytes, does not depend on the order of the bindings; the outputs of
two calls on one source, with whatever labels and limits, are equal exactly when the same values go
to the same templates. -/
theorem prepare_by_values (prepared : prepare source provided maximumOutput = .ok tree) :
    (∀ reordered, provided.Perm reordered →
        ∃ tree', prepare source reordered maximumOutput = .ok tree' ∧ tree'.bytes = tree.bytes ∧
          tree'.replacementCount = tree.replacementCount ∧ tree'.bindings.Perm tree.bindings) ∧
      ∀ other limit tree', prepare source other limit = .ok tree' →
        (tree'.bytes = tree.bytes ↔
          ∀ id value, Assigns provided id value ↔ Assigns other id value) :=
  ⟨fun _ perm => prepare_perm prepared perm, fun _ _ _ other => prepare_bytes_eq_iff prepared other⟩

end Outputs

/-- Two values for two templates, and the same values in the other order, with other labels and
another limit. -/
theorem prepare_by_values_sample :
    ∃ tree tree', @prepare dramSha256 dramSource [dramBinding 100 0x40000000 "board",
        dramBinding 148 0x20000000 "board"] 4096 = .ok tree ∧
      @prepare dramSha256 dramSource [dramBinding 148 0x20000000 "other",
        dramBinding 100 0x40000000 "other"] 512 = .ok tree' ∧
      tree'.bytes = tree.bytes := by
  obtain ⟨tree, prepared⟩ := Outcome.isOk_iff.mp (by decide +kernel :
    (@prepare dramSha256 dramSource [dramBinding 100 0x40000000 "board",
      dramBinding 148 0x20000000 "board"] 4096).isOk = true)
  obtain ⟨tree', prepared'⟩ := Outcome.isOk_iff.mp (by decide +kernel :
    (@prepare dramSha256 dramSource [dramBinding 148 0x20000000 "other",
      dramBinding 100 0x40000000 "other"] 512).isOk = true)
  refine ⟨tree, tree', prepared, prepared',
    ((@prepare_by_values _ _ dramSha256 _ _ prepared).2 _ _ _ prepared').mpr fun id value => ?_⟩
  simp only [Assigns, dramBinding, List.exists_mem_cons_iff, List.not_mem_nil, false_and,
    exists_false, or_false]
  exact Or.comm

end Nextcore.RuntimeDt
