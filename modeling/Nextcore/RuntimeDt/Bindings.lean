import Nextcore.RuntimeDt.Prepare
import Nextcore.FirmwareDt.Lossless
import Nextcore.Lib.Fresh

/-!
Templates and the bindings that are checked against them.

`collect_templates` finds the templates of a tree in document order, and the loop over the
bindings passes when each of them is good and no two of them are for one property. A binding that
passes is the only one for its offset (`replacement_unique`).
-/

namespace Nextcore.RuntimeDt

open Checked Checked.Outcome
open FirmwareDt (FirmwareProperty FirmwareNode propertiesOfAll)

/-! ### Templates -/

section Collect

variable {digest : Bytes}

/-- The ids of the templates among some properties. -/
def idsOf (digest : Bytes) (properties : List FirmwareProperty) : List PropertyId :=
  (properties.filter fun p => p.kind = .template).map fun p => ⟨digest, p.offset⟩

theorem idsOf_append (properties properties' : List FirmwareProperty) :
    idsOf digest (properties ++ properties') =
      idsOf digest properties ++ idsOf digest properties' := by
  rw [idsOf, List.filter_append, List.map_append]
  rfl

/-- No template is called `name`. -/
def Unstructural (properties : List FirmwareProperty) : Prop :=
  ∀ p ∈ properties, p.kind = .template → p.name ≠ "name"

theorem unstructural_append {properties properties' : List FirmwareProperty} :
    Unstructural (properties ++ properties') ↔
      Unstructural properties ∧ Unstructural properties' :=
  List.forall_mem_append

variable {ids out : List PropertyId}

theorem collectProperties_eq_ok {properties : List FirmwareProperty}
    (few : ids.length ≤ maxBindings) :
    collectProperties digest properties ids = .ok out ↔
      Unstructural properties ∧ out = ids ++ idsOf digest properties ∧
        out.length ≤ maxBindings := by
  induction properties generalizing ids with
  | nil =>
      rw [collectProperties, pure_eq, ok.injEq]
      constructor
      · rintro rfl
        exact ⟨by simp [Unstructural], (List.append_nil _).symm, few⟩
      · rintro ⟨_, rfl, _⟩
        exact (List.append_nil _).symm
  | cons p rest ih =>
      have split : p :: rest = [p] ++ rest := rfl
      rw [collectProperties, split, unstructural_append, idsOf_append]
      by_cases template : p.kind = .template
      · have own : idsOf digest [p] = [⟨digest, p.offset⟩] := by
          rw [idsOf, List.filter_cons_of_pos (by simpa using template)]
          rfl
        rw [if_pos template, own, ← List.append_assoc]
        simp only [bind_eq_ok, exists_const, rejectIf_eq_ok]
        constructor
        · rintro ⟨other, left, more⟩
          have room : (ids ++ [(⟨digest, p.offset⟩ : PropertyId)]).length ≤ maxBindings := by
            rw [List.length_append, List.length_singleton]
            omega
          obtain ⟨named, rfl, fits⟩ := (ih room).mp more
          exact ⟨⟨by simpa [Unstructural, template] using other, named⟩, rfl, fits⟩
        · rintro ⟨⟨other, named⟩, rfl, fits⟩
          have room : (ids ++ [(⟨digest, p.offset⟩ : PropertyId)]).length ≤ maxBindings := by
            rw [List.length_append] at fits
            omega
          refine ⟨other p (by simp) template, ?_, (ih room).mpr ⟨named, rfl, fits⟩⟩
          rw [List.length_append, List.length_singleton] at room
          omega
      · have own : idsOf digest [p] = [] := by
          rw [idsOf, List.filter_cons_of_neg (by simpa using template)]
          rfl
        have clear : Unstructural [p] := by simp [Unstructural, template]
        rw [if_neg template, own, List.nil_append, ih few]
        exact and_congr_left fun _ => (and_iff_right clear).symm

mutual

/-- The templates are found in document order, unless one is called `name` or there are too
many. -/
theorem collectTemplates_eq_ok : ∀ (node : FirmwareNode) {ids out : List PropertyId},
    ids.length ≤ maxBindings → (collectTemplates node digest ids = .ok out ↔
      Unstructural node.allProperties ∧ out = ids ++ idsOf digest node.allProperties ∧
        out.length ≤ maxBindings)
  | ⟨offset, properties, children⟩, ids, out, few => by
    rw [collectTemplates, FirmwareNode.allProperties, unstructural_append, idsOf_append,
      ← List.append_assoc]
    simp only [bind_eq_ok, collectProperties_eq_ok few]
    constructor
    · rintro ⟨_, ⟨named, rfl, fits⟩, more⟩
      obtain ⟨others, rfl, all⟩ := (collectChildren_eq_ok children fits).mp more
      exact ⟨⟨named, others⟩, rfl, all⟩
    · rintro ⟨⟨named, others⟩, rfl, all⟩
      have fits : (ids ++ idsOf digest properties).length ≤ maxBindings := by
        rw [List.length_append] at all
        omega
      exact ⟨_, ⟨named, rfl, fits⟩, (collectChildren_eq_ok children fits).mpr ⟨others, rfl, all⟩⟩

theorem collectChildren_eq_ok : ∀ (nodes : List FirmwareNode) {ids out : List PropertyId},
    ids.length ≤ maxBindings → (collectChildren nodes digest ids = .ok out ↔
      Unstructural (propertiesOfAll nodes) ∧ out = ids ++ idsOf digest (propertiesOfAll nodes) ∧
        out.length ≤ maxBindings)
  | [], ids, out, few => by
    rw [collectChildren, propertiesOfAll, pure_eq, ok.injEq]
    constructor
    · rintro rfl
      exact ⟨by simp [Unstructural], (List.append_nil _).symm, few⟩
    · rintro ⟨_, rfl, _⟩
      exact (List.append_nil _).symm
  | node :: rest, ids, out, few => by
    rw [collectChildren, propertiesOfAll, unstructural_append, idsOf_append, ← List.append_assoc]
    simp only [bind_eq_ok, collectTemplates_eq_ok node few]
    constructor
    · rintro ⟨_, ⟨named, rfl, fits⟩, more⟩
      obtain ⟨others, rfl, all⟩ := (collectChildren_eq_ok rest fits).mp more
      exact ⟨⟨named, others⟩, rfl, all⟩
    · rintro ⟨⟨named, others⟩, rfl, all⟩
      have fits : (ids ++ idsOf digest node.allProperties).length ≤ maxBindings := by
        rw [List.length_append] at all
        omega
      exact ⟨_, ⟨named, rfl, fits⟩, (collectChildren_eq_ok rest fits).mpr ⟨others, rfl, all⟩⟩

end

end Collect

/-! ### Bindings -/

/-- A binding that may be used: it is of the source, its label is one, and it is for a template. -/
structure BindingOk (digest : Bytes) (templates : List PropertyId) (binding : ProvidedValue) :
    Prop where
  digest : binding.property.sourceSha256 = digest
  nonempty : asBytes binding.provider ≠ []
  short : (asBytes binding.provider).length ≤ 64
  label : (asBytes binding.provider).all
    (fun b => asciiAlphanumeric b ∨ b ∈ asBytes "-_.:/") = true
  known : binding.property ∈ templates

section Bindings

variable {digest : Bytes} {templates : List PropertyId} {earlier provided : List ProvidedValue}

theorem checkBinding_eq_ok {binding : ProvidedValue} {u : Unit} :
    checkBinding digest templates earlier binding = .ok u ↔
      BindingOk digest templates binding ∧ binding.property ∉ earlier.map (·.property) := by
  simp only [checkBinding, bind_eq_ok, exists_const, rejectIf_eq_ok, not_or, not_not, Nat.not_lt]
  constructor
  · rintro ⟨same, ⟨nonempty, short, label⟩, new, known⟩
    refine ⟨⟨same, nonempty, short, label, known⟩, ?_⟩
    simpa using new
  · rintro ⟨⟨same, nonempty, short, label, known⟩, new⟩
    refine ⟨same, ⟨nonempty, short, label⟩, ?_, known⟩
    simpa using new

theorem checkBindings_eq_ok {u : Unit} :
    checkBindings digest templates earlier provided = .ok u ↔
      (∀ binding ∈ provided, BindingOk digest templates binding) ∧
        Fresh (earlier.map (·.property)) (provided.map (·.property)) := by
  induction provided generalizing earlier with
  | nil => simp [checkBindings, fresh_nil]
  | cons binding rest ih =>
      simp only [checkBindings, bind_eq_ok, exists_const, checkBinding_eq_ok, ih]
      rw [List.forall_mem_cons, List.map_cons, fresh_cons, List.map_append, List.map_singleton]
      constructor
      · rintro ⟨⟨ok, new⟩, each, fresh⟩
        exact ⟨⟨ok, each⟩, new, fresh⟩
      · rintro ⟨⟨ok, each⟩, new, fresh⟩
        exact ⟨⟨ok, new⟩, each, fresh⟩

/-- Of the bindings that were checked, one is for an offset. -/
theorem replacement_unique (each : ∀ binding ∈ provided, BindingOk digest templates binding)
    (distinct : (provided.map (·.property)).Nodup) {offset : Nat} {binding : ProvidedValue}
    (found : replacement offset provided = some binding) :
    binding ∈ provided ∧ binding.property.propertyOffset = offset ∧
      ∀ other ∈ provided, other.property.propertyOffset = offset → other = binding := by
  have mem := List.mem_of_find?_eq_some found
  have here : binding.property.propertyOffset = offset := by
    have hit := List.find?_some found
    exact of_decide_eq_true hit
  refine ⟨mem, here, fun other other_mem there => ?_⟩
  have same : other.property = binding.property := by
    obtain ⟨⟨digest_other, offset_other⟩, _, _⟩ := other
    obtain ⟨⟨digest_binding, offset_binding⟩, _, _⟩ := binding
    have left := (each _ other_mem).digest
    have right := (each _ mem).digest
    dsimp only at here there left right
    rw [here, there, left, right]
  exact List.inj_on_of_nodup_map distinct other_mem mem same

end Bindings

end Nextcore.RuntimeDt
