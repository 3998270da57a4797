import Nextcore.RuntimeDt.Materialize
import Nextcore.FlatDt.Accepted

/-!
What `prepare` returns.

`prepare_eq_ok` describes every successful call: the bindings cover the templates, and the bytes
are those of the output tree, within the limit and accepted by the runtime validator. The parser
finds the output tree in these bytes (`parse_materialized`), which is the substitution of the
bindings in the source tree; the output has no template, so that preparing it again changes
nothing.
-/

namespace Nextcore.RuntimeDt

open Checked Checked.Outcome
open FirmwareDt (FirmwareProperty FirmwareNode FirmwareDeviceTree NodeOk Grammatical statisticsOf
  propertiesOfAll)

/-- Every template has its binding. -/
def Covered (provided : List ProvidedValue) (root : FirmwareNode) : Prop :=
  ∀ p ∈ root.allProperties, p.kind = .template →
    ∃ binding, replacement p.offset provided = some binding

/-- The bytes of the output tree. -/
def materialized (provided : List ProvidedValue) (root : FirmwareNode) : Bytes :=
  (materializeNode provided root 0).serialize

/-- What a call checks before it measures. -/
structure Admitted (digest : Bytes) (provided : List ProvidedValue) (maximumOutput : Nat)
    (root : FirmwareNode) : Prop where
  limit : maximumOutput ≠ 0 ∧ maximumOutput ≤ maxOutputBytes ∧ provided.length ≤ maxBindings
  unstructural : Unstructural root.allProperties
  few : (idsOf digest root.allProperties).length ≤ maxBindings
  bindings : ∀ binding ∈ provided, BindingOk digest (idsOf digest root.allProperties) binding
  distinct : (provided.map (·.property)).Nodup
  covered : Covered provided root

section Prepare

variable {provided : List ProvidedValue} {root : FirmwareNode} {maximumOutput : Nat}

theorem missing_eq_nil {digest : Bytes} :
    ((idsOf digest root.allProperties).filter fun id =>
      (replacement id.propertyOffset provided).isNone) = [] ↔ Covered provided root := by
  rw [List.filter_eq_nil_iff, idsOf, List.forall_mem_map]
  simp only [List.mem_filter, decide_eq_true_eq, Option.isNone_iff_eq_none, ← ne_eq,
    Option.ne_none_iff_exists', and_imp]
  rfl

theorem debugAssert_eq_ok {p : Prop} [Decidable p] {u : Unit} : debugAssert p = .ok u ↔ p := by
  unfold debugAssert
  split <;> simp_all

/-- The output tree as it is measured and written, for a tree of the firmware format whose
templates are covered. -/
theorem measure_write (ok : Grammatical root) (covered : Covered provided root) {length : Nat} :
    measure root provided 0 = .ok length ↔
      (∀ p ∈ root.allProperties, (replacedValue provided p).length < 2 ^ 31) ∧
        length = (materialized provided root).length ∧ length < 2 ^ 64 := by
  rw [measure_eq_ok root 0 (by decide) ok.propertyOk covered, Nat.zero_add]
  rfl

theorem write_measured (ok : Grammatical root) (covered : Covered provided root)
    (small : ∀ p ∈ root.allProperties, (replacedValue provided p).length < 2 ^ 31)
    (word : (materialized provided root).length < 2 ^ 64) :
    write root provided [] = .ok (materialized provided root) := by
  have ready : ∀ p ∈ root.allProperties, Ready provided p := fun p mem =>
    ⟨ok.propertyOk p mem, covered p mem, small p mem⟩
  rw [write_of_ready root 0 ready ok.few_words (by rwa [List.nil_append]), List.nil_append]
  rfl

section Calls

variable [Sha256] {source : Bytes} {tree : MaterializedTree}

/-- The tree that a successful call returns for the parsed source. -/
def preparedTree (source : Bytes) (provided : List ProvidedValue) (root : FirmwareNode) :
    MaterializedTree where
  source := source
  bytes := materialized provided root
  sourceSha256 := sourceIdentity source
  replacementCount := (idsOf (sourceIdentity source) root.allProperties).length
  bindings := provided.map fun binding =>
    ⟨binding.property, binding.provider, sourceIdentity binding.value, binding.value.length⟩

/-- A call succeeds exactly when the source parses, its bindings are admitted, and the output
tree is within the limit and accepted by the runtime validator. -/
theorem prepare_eq_ok :
    prepare source provided maximumOutput = .ok tree ↔
      ∃ parsed, FirmwareDeviceTree.parse source = .ok parsed ∧
        Admitted (sourceIdentity source) provided maximumOutput parsed.root ∧
        (∀ p ∈ parsed.root.allProperties, (replacedValue provided p).length < 2 ^ 31) ∧
        (materialized provided parsed.root).length ≤ maximumOutput ∧
        FlatDt.validate (materialized provided parsed.root) = .ok () ∧
        tree = preparedTree source provided parsed.root := by
  have none : ([] : List PropertyId).length ≤ maxBindings := Nat.zero_le _
  have max_word : maxOutputBytes < 2 ^ 64 := by decide
  simp only [prepare, bind_eq_ok, exists_const, rejectIf_eq_ok, mapErr_eq_ok, not_or, Nat.not_lt,
    not_not, collectTemplates_eq_ok _ none, checkBindings_eq_ok, debugAssert_eq_ok, pure_eq,
    ok.injEq, List.nil_append, List.map_nil, fresh_iff_nodup]
  constructor
  · rintro ⟨⟨some, within, bindings_few⟩, parsed, parse, _, ⟨unstructural, rfl, few⟩,
      ⟨each, distinct⟩, complete, length, measured, fits, bytes, written, _, _, accepted, rfl⟩
    have ok := (FirmwareDt.parse_eq_ok.mp parse).1
    have covered : Covered provided parsed.root := missing_eq_nil.mp complete
    obtain ⟨small, rfl, word⟩ := (measure_write ok covered).mp measured
    rw [write_measured ok covered small word] at written
    cases written
    exact ⟨parsed, parse, ⟨⟨some, within, bindings_few⟩, unstructural, few, each, distinct,
      covered⟩, small, fits, accepted, rfl⟩
  · rintro ⟨parsed, parse, ⟨limit, unstructural, few, each, distinct, covered⟩, small, fits,
      accepted, rfl⟩
    have ok := (FirmwareDt.parse_eq_ok.mp parse).1
    have word : (materialized provided parsed.root).length < 2 ^ 64 :=
      Nat.lt_of_le_of_lt (fits.trans limit.2.1) max_word
    exact ⟨limit, parsed, parse, _, ⟨unstructural, rfl, few⟩, ⟨each, distinct⟩,
      missing_eq_nil.mpr covered, _, (measure_write ok covered).mpr ⟨small, rfl, word⟩, fits, _,
      write_measured ok covered small word, rfl, (), accepted, rfl⟩

end Calls

/-! ### Substitution -/

/-- What the output has for a property of the source: a literal as it was, and a template with
the value of its one binding, a cleared flag and zeros for padding. -/
structure PropertySubstituted (provided : List ProvidedValue) (p q : FirmwareProperty) : Prop where
  rawName : q.rawName = p.rawName
  name : q.name = p.name
  resolved : q.kind = .literal
  literal : p.kind = .literal →
    q.rawLength = p.rawLength ∧ q.value = p.value ∧ q.padding = p.padding
  template : p.kind = .template → ∃ binding ∈ provided,
    binding.property.propertyOffset = p.offset ∧
    (∀ other ∈ provided, other.property.propertyOffset = p.offset → other = binding) ∧
    q.rawLength = binding.value.length ∧ q.value = binding.value ∧
    q.padding = List.replicate ((4 - binding.value.length % 4) % 4) 0

mutual

/-- The trees have one shape, and their properties are substituted. -/
def NodeSubstituted (provided : List ProvidedValue) : FirmwareNode → FirmwareNode → Prop
  | ⟨_, properties, children⟩, ⟨_, properties', children'⟩ =>
    List.Forall₂ (PropertySubstituted provided) properties properties' ∧
      AllSubstituted provided children children'

def AllSubstituted (provided : List ProvidedValue) : List FirmwareNode → List FirmwareNode → Prop
  | [], [] => True
  | node :: rest, node' :: rest' =>
    NodeSubstituted provided node node' ∧ AllSubstituted provided rest rest'
  | _, _ => False

end

theorem propertySubstituted {digest : Bytes} {templates : List PropertyId}
    (bindings : ∀ binding ∈ provided, BindingOk digest templates binding)
    (distinct : (provided.map (·.property)).Nodup) {p : FirmwareProperty} (start : Nat)
    (ready : Ready provided p) :
    PropertySubstituted provided p (materializeProperty provided start p) := by
  have resolved : (materializeProperty provided start p).kind = .literal := ready.materialized.2
  rcases FirmwareDt.kind_eq_literal_or_template p with literal | template
  · rw [materializeProperty_literal literal] at resolved ⊢
    refine ⟨rfl, rfl, resolved, fun _ => ⟨rfl, rfl, rfl⟩, fun template => ?_⟩
    rw [literal] at template
    cases template
  · obtain ⟨binding, found⟩ := ready.bound template
    obtain ⟨mem, here, only⟩ := replacement_unique bindings distinct found
    rw [materializeProperty_template template, replacedValue_template template found] at resolved ⊢
    refine ⟨rfl, rfl, resolved, fun literal => ?_, fun _ => ⟨binding, mem, here, only, rfl,
      rfl, rfl⟩⟩
    rw [template] at literal
    cases literal

/-- Each property is substituted, wherever it is written. -/
def Substitutes (provided : List ProvidedValue) (properties : List FirmwareProperty) : Prop :=
  ∀ p ∈ properties, ∀ start, PropertySubstituted provided p (materializeProperty provided start p)

theorem substitutes_append {properties properties' : List FirmwareProperty} :
    Substitutes provided (properties ++ properties') ↔
      Substitutes provided properties ∧ Substitutes provided properties' :=
  List.forall_mem_append

theorem propertiesSubstituted {properties : List FirmwareProperty} {start : Nat}
    (each : Substitutes provided properties) :
    List.Forall₂ (PropertySubstituted provided) properties
      (materializeProperties provided properties start) := by
  induction properties generalizing start with
  | nil => exact .nil
  | cons p rest ih =>
      obtain ⟨first, others⟩ := List.forall_mem_cons.mp each
      exact .cons (first start) (ih others)

mutual

/-- The output tree is the substitution of the bindings in the source tree. -/
theorem nodeSubstituted : ∀ (node : FirmwareNode) (start : Nat),
    Substitutes provided node.allProperties →
    NodeSubstituted provided node (materializeNode provided node start)
  | ⟨_, properties, children⟩, start, each => by
    rw [FirmwareNode.allProperties, substitutes_append] at each
    rw [materializeNode, NodeSubstituted]
    exact ⟨propertiesSubstituted each.1, allSubstituted children _ each.2⟩

theorem allSubstituted : ∀ (nodes : List FirmwareNode) (start : Nat),
    Substitutes provided (propertiesOfAll nodes) →
    AllSubstituted provided nodes (materializeAll provided nodes start)
  | [], start, _ => by
    rw [materializeAll, AllSubstituted]
    trivial
  | node :: rest, start, each => by
    rw [propertiesOfAll, substitutes_append] at each
    rw [materializeAll, AllSubstituted]
    exact ⟨nodeSubstituted node start each.1, allSubstituted rest _ each.2⟩

end

/-! ### The output tree -/

/-- The output tree is a tree of the firmware format, without templates. -/
theorem grammatical_materialized (ok : Grammatical root)
    (ready : ∀ p ∈ root.allProperties, Ready provided p)
    (small : (materialized provided root).length ≤ FirmwareDt.maxInputBytes) :
    Grammatical (materializeNode provided root 0) ∧
      (materializeNode provided root 0).templates = [] := by
  have counts := @countsOf_materialize provided root 0 0
  have each := allProperties_materialize root 0 ready
  have same_nodes : (statisticsOf ((materializeNode provided root 0).nodesFrom 0)).nodes =
      (statisticsOf (root.nodesFrom 0)).nodes := by
    have lengths := congrArg List.length counts
    rwa [List.length_map, List.length_map] at lengths
  have same_properties : (statisticsOf ((materializeNode provided root 0).nodesFrom 0)).properties =
      (statisticsOf (root.nodesFrom 0)).properties := by
    have sums := congrArg (fun list => (list.map fun c : Nat × Nat × Nat => c.2.1).sum) counts
    rwa [List.map_map, List.map_map] at sums
  refine ⟨⟨fun entry mem => ?_, ⟨?_, ?_⟩, small, placedAt_materialize root 0⟩, ?_⟩
  · -- An entry has the counts of one of the source tree, which bound it.
    have listed := List.mem_map_of_mem (f := countsOf) mem
    rw [counts] at listed
    obtain ⟨source_entry, among, same⟩ := List.mem_map.mp listed
    simp only [countsOf, Prod.mk.injEq] at same
    obtain ⟨depth_eq, few_eq, children_eq⟩ := same
    obtain ⟨shallow, few, few_children, _⟩ := ok.each source_entry among
    refine ⟨depth_eq ▸ shallow, few_eq ▸ few, children_eq ▸ few_children, fun p own => ?_⟩
    refine (each p ?_).1
    rw [FirmwareNode.allProperties_eq _ 0]
    exact List.mem_flatMap.mpr ⟨entry, mem, own⟩
  · rw [same_nodes]
    exact ok.within.nodes
  · rw [same_properties]
    exact ok.within.properties
  · rw [FirmwareNode.templates, List.filter_eq_nil_iff]
    intro p mem
    rw [(each p mem).2]
    decide

/-- The parser finds the output tree in the output. -/
theorem parse_materialized (ok : Grammatical (materializeNode provided root 0)) :
    FirmwareDeviceTree.parse (materialized provided root) =
      .ok ⟨materialized provided root, materializeNode provided root 0,
        statisticsOf ((materializeNode provided root 0).nodesFrom 0)⟩ :=
  FirmwareDt.parse_eq_ok.mpr ⟨ok, rfl, rfl, rfl⟩

/-! ### Preparing the output again -/

theorem serialize_materializeProperties {properties : List FirmwareProperty} (start : Nat)
    (literal : ∀ p ∈ properties, p.kind = .literal) :
    (materializeProperties provided properties start).flatMap FirmwareProperty.serialize =
      properties.flatMap FirmwareProperty.serialize := by
  induction properties generalizing start with
  | nil => rfl
  | cons p rest ih =>
      obtain ⟨first, others⟩ := List.forall_mem_cons.mp literal
      rw [materializeProperties, List.flatMap_cons, List.flatMap_cons, ih _ others,
        materializeProperty_literal first]
      rfl

mutual

/-- A tree without templates is written as it is. -/
theorem serialize_materialize : ∀ (node : FirmwareNode) (start : Nat),
    (∀ p ∈ node.allProperties, p.kind = .literal) →
    (materializeNode provided node start).serialize = node.serialize
  | ⟨offset, properties, children⟩, start, literal => by
    obtain ⟨next, written⟩ := @materializeNode_eq provided offset properties children start
    rw [FirmwareNode.allProperties, List.forall_mem_append] at literal
    rw [written, FirmwareNode.serialize, FirmwareNode.serialize, length_materializeAll,
      serializeAll_materialize children next literal.2, FirmwareDt.serializeHeader,
      FirmwareDt.serializeHeader, length_materializeProperties,
      serialize_materializeProperties _ literal.1]

theorem serializeAll_materialize : ∀ (nodes : List FirmwareNode) (start : Nat),
    (∀ p ∈ propertiesOfAll nodes, p.kind = .literal) →
    FirmwareDt.serializeAll (materializeAll provided nodes start) = FirmwareDt.serializeAll nodes
  | [], _, _ => rfl
  | node :: rest, start, literal => by
    rw [propertiesOfAll, List.forall_mem_append] at literal
    rw [materializeAll, FirmwareDt.serializeAll, FirmwareDt.serializeAll,
      serialize_materialize node start literal.1, serializeAll_materialize rest _ literal.2]

end

/-- A tree without templates admits an empty list of bindings. -/
theorem admitted_of_literal {digest : Bytes} (literal : ∀ p ∈ root.allProperties, p.kind = .literal)
    (limit : maximumOutput ≠ 0 ∧ maximumOutput ≤ maxOutputBytes) :
    Admitted digest [] maximumOutput root := by
  have no_template {p : FirmwareProperty} (mem : p ∈ root.allProperties) : p.kind ≠ .template := by
    rw [literal p mem]
    decide
  have no_ids : idsOf digest root.allProperties = [] := by
    rw [idsOf, List.map_eq_nil_iff, List.filter_eq_nil_iff]
    intro p mem
    simpa using no_template mem
  refine ⟨⟨limit.1, limit.2, Nat.zero_le _⟩, fun p mem template => ?_, ?_, by simp,
    List.nodup_nil, fun p mem template => ?_⟩
  · exact absurd template (no_template mem)
  · rw [no_ids]
    exact Nat.zero_le _
  · exact absurd template (no_template mem)

/-- A firmware tree without templates that the runtime validator accepts is prepared as it is. -/
theorem prepare_literal [Sha256] {source : Bytes} {parsed : FirmwareDeviceTree}
    (parse : FirmwareDeviceTree.parse source = .ok parsed)
    (literal : ∀ p ∈ parsed.root.allProperties, p.kind = .literal)
    (accepted : FlatDt.validate source = .ok ())
    (limit : maximumOutput ≠ 0 ∧ maximumOutput ≤ maxOutputBytes)
    (fits : source.length ≤ maximumOutput) :
    ∃ again, prepare source [] maximumOutput = .ok again ∧ again.bytes = source := by
  obtain ⟨ok, same, _⟩ := FirmwareDt.parse_eq_ok.mp parse
  have bytes : materialized [] parsed.root = source :=
    (serialize_materialize parsed.root 0 literal).trans same
  refine ⟨_, prepare_eq_ok.mpr ⟨parsed, parse, admitted_of_literal literal limit, fun p mem => ?_,
    ?_, ?_, rfl⟩, bytes⟩
  · rw [replacedValue_literal (literal p mem)]
    exact (ok.propertyOk p mem).small
  · rwa [bytes]
  · rwa [bytes]

/-! ### No panics -/

theorem collectProperties_ne_panic {digest : Bytes} {properties : List FirmwareProperty}
    {ids : List PropertyId} : collectProperties digest properties ids ≠ .panic := by
  induction properties generalizing ids with
  | nil => simp [collectProperties]
  | cons p rest ih =>
      rw [collectProperties]
      split
      · refine bind_ne_panic rejectIf_ne_panic fun _ _ => ?_
        exact bind_ne_panic rejectIf_ne_panic fun _ _ => ih
      · exact ih

mutual

theorem collectTemplates_ne_panic :
    ∀ (node : FirmwareNode) {digest : Bytes} {ids : List PropertyId},
    collectTemplates node digest ids ≠ .panic
  | ⟨_, _, children⟩, _, _ => by
    rw [collectTemplates]
    exact bind_ne_panic collectProperties_ne_panic fun _ _ => collectChildren_ne_panic children

theorem collectChildren_ne_panic : ∀ (nodes : List FirmwareNode) {digest : Bytes}
    {ids : List PropertyId}, collectChildren nodes digest ids ≠ .panic
  | [], _, _ => by
    rw [collectChildren]
    simp
  | node :: rest, _, _ => by
    rw [collectChildren]
    exact bind_ne_panic (collectTemplates_ne_panic node) fun _ _ => collectChildren_ne_panic rest

end

theorem checkBindings_ne_panic {digest : Bytes} {templates : List PropertyId}
    {earlier : List ProvidedValue} : checkBindings digest templates earlier provided ≠ .panic := by
  induction provided generalizing earlier with
  | nil => simp [checkBindings]
  | cons binding rest ih =>
      refine bind_ne_panic ?_ fun _ _ => ih
      refine bind_ne_panic rejectIf_ne_panic fun _ _ => ?_
      refine bind_ne_panic rejectIf_ne_panic fun _ _ => ?_
      exact bind_ne_panic rejectIf_ne_panic fun _ _ => rejectIf_ne_panic

theorem measureProperties_ne_panic {properties : List FirmwareProperty} {total : Nat} :
    measureProperties provided properties total ≠ .panic := by
  induction properties generalizing total with
  | nil => simp [measureProperties]
  | cons p rest ih =>
      refine bind_ne_panic ?_ fun _ _ => ?_
      · unfold measuredLength
        split
        · simp
        · exact bind_ne_panic ofOption_ne_panic fun _ _ => by simp
      · refine bind_ne_panic ?_ fun _ _ => bind_ne_panic ofOption_ne_panic fun _ _ => ih
        refine bind_ne_panic ofOption_ne_panic fun _ _ => ?_
        refine bind_ne_panic ofOption_ne_panic fun _ _ => ?_
        exact bind_ne_panic rejectIf_ne_panic fun _ _ => by simp

mutual

theorem measure_ne_panic :
    ∀ (node : FirmwareNode) {total : Nat}, measure node provided total ≠ .panic
  | ⟨_, _, children⟩, _ => by
    rw [measure]
    refine bind_ne_panic ofOption_ne_panic fun _ _ => ?_
    exact bind_ne_panic measureProperties_ne_panic fun _ _ => measureChildren_ne_panic children

theorem measureChildren_ne_panic : ∀ (nodes : List FirmwareNode) {total : Nat},
    measureChildren nodes provided total ≠ .panic
  | [], _ => by
    rw [measureChildren]
    simp
  | node :: rest, _ => by
    rw [measureChildren]
    exact bind_ne_panic (measure_ne_panic node) fun _ _ => measureChildren_ne_panic rest

end

/-- No call panics: every binding that the writer looks up is there, and what it writes has the
length that was measured. -/
theorem prepare_ne_panic [Sha256] (source : Bytes) (provided : List ProvidedValue)
    (maximumOutput : Nat) : prepare source provided maximumOutput ≠ .panic := by
  refine bind_ne_panic rejectIf_ne_panic fun _ limit => ?_
  refine bind_ne_panic ?_ fun parsed parse => ?_
  · rw [ne_eq, mapErr_eq_panic]
    exact FirmwareDt.parse_ne_panic source
  refine bind_ne_panic (collectTemplates_ne_panic _) fun templates collected => ?_
  refine bind_ne_panic checkBindings_ne_panic fun _ _ => ?_
  refine bind_ne_panic rejectIf_ne_panic fun _ complete => ?_
  refine bind_ne_panic (measure_ne_panic _) fun length measured => ?_
  refine bind_ne_panic rejectIf_ne_panic fun _ fits => ?_
  rw [mapErr_eq_ok] at parse
  obtain ⟨_, rfl, _⟩ := (collectTemplates_eq_ok _ (Nat.zero_le _)).mp collected
  simp only [rejectIf_eq_ok, not_or, Nat.not_lt, not_not, List.nil_append] at limit complete fits
  have ok := (FirmwareDt.parse_eq_ok.mp parse).1
  have covered : Covered provided parsed.root := missing_eq_nil.mp complete
  obtain ⟨small, rfl, word⟩ := (measure_write ok covered).mp measured
  rw [write_measured ok covered small word, bind_ok, debugAssert, if_pos rfl, pure_eq, bind_ok]
  refine bind_ne_panic ?_ fun _ _ => by simp
  rw [ne_eq, mapErr_eq_panic]
  exact FlatDt.validate_ne_panic

/-! ### The materialization -/

/-- A successful call has substituted the bindings in the source tree: its bytes parse to that
tree, have no template left, are accepted by the runtime validator and as long as was measured,
and are prepared again as they are. -/
theorem prepare_exact [Sha256] (source : Bytes) (provided : List ProvidedValue)
    (maximumOutput : Nat) :
    prepare source provided maximumOutput ≠ .panic ∧
      ∀ tree, prepare source provided maximumOutput = .ok tree →
        ∃ parsed output, FirmwareDeviceTree.parse source = .ok parsed ∧
          FirmwareDeviceTree.parse tree.bytes = .ok output ∧
          NodeSubstituted provided parsed.root output.root ∧ output.statistics.templates = 0 ∧
          FlatDt.validate tree.bytes = .ok () ∧
          measure parsed.root provided 0 = .ok tree.bytes.length ∧
          tree.bytes.length ≤ maximumOutput ∧
          ∀ maximum, tree.bytes.length ≤ maximum → maximum ≤ maxOutputBytes →
            ∃ again, prepare tree.bytes [] maximum = .ok again ∧ again.bytes = tree.bytes := by
  refine ⟨prepare_ne_panic source provided maximumOutput, fun tree prepared => ?_⟩
  obtain ⟨parsed, parse, admitted, small, fits, accepted, rfl⟩ := prepare_eq_ok.mp prepared
  have ok := (FirmwareDt.parse_eq_ok.mp parse).1
  have ready : ∀ p ∈ parsed.root.allProperties, Ready provided p := fun p mem =>
    ⟨ok.propertyOk p mem, admitted.covered p mem, small p mem⟩
  have within : (materialized provided parsed.root).length ≤ maxOutputBytes :=
    fits.trans admitted.limit.2.1
  obtain ⟨output_ok, resolved⟩ := grammatical_materialized ok ready within
  have output_parse := parse_materialized output_ok
  have word : (materialized provided parsed.root).length < 2 ^ 64 :=
    Nat.lt_of_le_of_lt within (by decide)
  refine ⟨parsed, _, parse, output_parse, nodeSubstituted _ _ fun p mem start =>
    propertySubstituted admitted.bindings admitted.distinct start (ready p mem), ?_, accepted,
    (measure_write ok admitted.covered).mpr ⟨small, rfl, word⟩, fits, fun maximum room limit => ?_⟩
  · rw [FirmwareDt.templates_statisticsOf, resolved, List.length_nil]
  · refine prepare_literal output_parse (fun p mem => ?_) accepted ⟨?_, limit⟩ room
    · exact (allProperties_materialize parsed.root 0 ready p mem).2
    · -- Nothing is no tree.
      rintro rfl
      have empty : materialized provided parsed.root = [] :=
        List.length_eq_zero_iff.mp (Nat.le_zero.mp room)
      rw [empty] at accepted
      revert accepted
      decide +kernel

end Prepare

/-- A root with its name and a template called `model`. -/
def sampleSource : Bytes :=
  toLeBytes 4 2 ++ toLeBytes 4 0 ++ padded 32 (asBytes "name") ++ [1, 0, 0, 0, 0, 0, 0, 0] ++
    padded 32 (asBytes "model") ++ [1, 0, 0, 128, 9, 0, 0, 0]

/-- SHA-256 of the sample and of the value that is bound in it. -/
@[reducible] def sampleSha256 : Sha256 where
  digest bytes :=
    if bytes = sampleSource then
      [194, 246, 38, 204, 62, 40, 160, 140, 164, 157, 151, 46, 184, 216, 52, 102, 51, 40, 81, 41,
        136, 205, 103, 30, 135, 239, 93, 216, 91, 120, 7, 71]
    else if bytes = [7, 8] then
      [189, 124, 37, 5, 102, 198, 233, 159, 71, 193, 116, 181, 137, 183, 85, 31, 139, 14, 147, 14,
        208, 86, 81, 29, 30, 143, 101, 59, 199, 29, 60, 74]
    else []

/-- The template of the sample is bound, and the output has none. -/
theorem prepare_exact_sample :
    ∃ tree output, @prepare sampleSha256 sampleSource
        [⟨⟨sampleSha256.digest sampleSource, 48⟩, "board", [7, 8]⟩] 4096 = .ok tree ∧
      FirmwareDeviceTree.parse tree.bytes = .ok output ∧ output.statistics.templates = 0 := by
  obtain ⟨tree, prepared⟩ := Outcome.isOk_iff.mp (by decide +kernel :
    (@prepare sampleSha256 sampleSource
      [⟨⟨sampleSha256.digest sampleSource, 48⟩, "board", [7, 8]⟩] 4096).isOk = true)
  obtain ⟨_, output, _, parse, _, none, _⟩ :=
    (@prepare_exact sampleSha256 sampleSource _ 4096).2 tree prepared
  exact ⟨tree, output, prepared, parse, none⟩

end Nextcore.RuntimeDt
