import Nextcore.RuntimeDt.Prepared

/-!
The bindings of a call are an exact cover of the templates.

The loop over the bindings compares whole ids, the search for missing ones only offsets. Behind
the first loop all ids carry the digest of the source, so the two agree (`missing_eq`), and the
call measures exactly when its ids are those of the templates, each once
(`preflight_isOk_iff`).
-/

namespace Nextcore.RuntimeDt

open Checked Checked.Outcome
open FirmwareDt (FirmwareNode FirmwareDeviceTree propertiesOfAll allOffsets)

/-! ### Preflight -/

section Preflight

variable [Sha256]

/-- What `prepare` does before it measures: the parsed tree and its templates. -/
def preflight (source : Bytes) (provided : List ProvidedValue) (maximumOutput : Nat) :
    Result (FirmwareDeviceTree × List PropertyId) := do
  rejectIf (maximumOutput = 0 ∨ maximumOutput > maxOutputBytes ∨ provided.length > maxBindings)
    .limits
  let tree ← (FirmwareDeviceTree.parse source).mapErr .firmware
  let templates ← collectTemplates tree.root (sourceIdentity source) []
  checkBindings (sourceIdentity source) templates [] provided
  let missing := templates.filter fun id => (replacement id.propertyOffset provided).isNone
  rejectIf (missing ≠ []) (.missingProviders missing)
  pure (tree, templates)

/-- What `prepare` does from the measurement on. -/
def measureAndWrite (source : Bytes) (provided : List ProvidedValue) (maximumOutput : Nat)
    (tree : FirmwareDeviceTree) (templates : List PropertyId) : Result MaterializedTree := do
  let length ← measure tree.root provided 0
  rejectIf (length > maximumOutput) .limits
  let bytes ← write tree.root provided []
  debugAssert (bytes.length = length)
  (FlatDt.validate bytes).mapErr .runtime
  pure ⟨source, bytes, sourceIdentity source, templates.length, provided.map fun binding =>
    ⟨binding.property, binding.provider, sourceIdentity binding.value, binding.value.length⟩⟩

theorem prepare_eq_preflight (source : Bytes) (provided : List ProvidedValue)
    (maximumOutput : Nat) :
    prepare source provided maximumOutput =
      preflight source provided maximumOutput >>= fun found =>
        measureAndWrite source provided maximumOutput found.1 found.2 := by
  simp only [prepare, preflight, measureAndWrite, bind_assoc, pure_eq, bind_ok]

end Preflight

/-! ### The ids of the templates -/

mutual

/-- The offsets of the properties are among those of the tree. -/
theorem offsets_allProperties : ∀ node : FirmwareNode,
    (node.allProperties.map (·.offset)).Sublist node.offsets
  | ⟨_, properties, children⟩ => by
    rw [FirmwareNode.allProperties, FirmwareNode.offsets, List.map_append]
    exact ((List.Sublist.refl _).append (offsets_propertiesOfAll children)).cons _

theorem offsets_propertiesOfAll : ∀ nodes : List FirmwareNode,
    ((propertiesOfAll nodes).map (·.offset)).Sublist (allOffsets nodes)
  | [] => List.Sublist.refl _
  | node :: rest => by
    rw [propertiesOfAll, allOffsets, List.map_append]
    exact (offsets_allProperties node).append (offsets_propertiesOfAll rest)

end

/-- The properties stand at increasing offsets. -/
theorem ascending_allProperties {root : FirmwareNode} (placed : root.PlacedAt 0) :
    (root.allProperties.map (·.offset)).Pairwise (· < ·) :=
  (FirmwareDt.ascending_node root placed).ordered.sublist (offsets_allProperties root)

/-- The ids are in document order. -/
theorem ascending_idsOf {digest : Bytes} {root : FirmwareNode} (placed : root.PlacedAt 0) :
    (idsOf digest root.allProperties).Pairwise fun a b => a.propertyOffset < b.propertyOffset := by
  rw [idsOf, List.pairwise_map]
  exact (List.pairwise_map.mp (ascending_allProperties placed)).sublist List.filter_sublist

/-- No two templates have one id. -/
theorem nodup_idsOf {digest : Bytes} {root : FirmwareNode} (placed : root.PlacedAt 0) :
    (idsOf digest root.allProperties).Nodup := by
  refine (ascending_idsOf placed).imp ?_
  rintro a _ below rfl
  exact absurd below (Nat.lt_irrefl _)

/-- What stands at the offset of an id is a template. -/
theorem template_of_mem_idsOf {digest : Bytes} {root : FirmwareNode} (placed : root.PlacedAt 0)
    {id : PropertyId} (mem : id ∈ idsOf digest root.allProperties) :
    ∀ p ∈ root.allProperties, p.offset = id.propertyOffset → p.kind = .template := by
  intro p p_mem here
  obtain ⟨q, q_mem, rfl⟩ := List.mem_map.mp mem
  rw [List.mem_filter, decide_eq_true_eq] at q_mem
  have offsets := (ascending_allProperties placed).imp Nat.ne_of_lt
  rw [List.inj_on_of_nodup_map offsets p_mem q_mem.1 here]
  exact q_mem.2

/-! ### The cover -/

/-- The ids of the bindings are the given ones, each of them once, and all of one digest. -/
structure ExactCover (digest : Bytes) (ids : List PropertyId) (provided : List ProvidedValue) :
    Prop where
  digest : ∀ binding ∈ provided, binding.property.sourceSha256 = digest
  distinct : (provided.map (·.property)).Nodup
  covers : ∀ id, id ∈ provided.map (·.property) ↔ id ∈ ids

/-- A label that may be given for a provider. -/
structure LabelOk (provider : String) : Prop where
  nonempty : asBytes provider ≠ []
  short : (asBytes provider).length ≤ 64
  plain : (asBytes provider).all
    (fun b => asciiAlphanumeric b ∨ b ∈ asBytes "-_.:/") = true

section Cover

variable {digest : Bytes} {ids : List PropertyId} {provided : List ProvidedValue}

/-- Bindings and templates correspond one to one. -/
theorem ExactCover.perm (cover : ExactCover digest ids provided) (distinct : ids.Nodup) :
    (provided.map (·.property)).Perm ids :=
  (List.perm_ext_iff_of_nodup cover.distinct distinct).mpr cover.covers

/-- With one digest, the offset of a binding decides whose it is. -/
theorem replacement_isNone_iff (same : ∀ binding ∈ provided, binding.property.sourceSha256 = digest)
    {id : PropertyId} (own : id.sourceSha256 = digest) :
    (replacement id.propertyOffset provided).isNone = true ↔
      id ∉ provided.map (·.property) := by
  rw [replacement, Option.isNone_iff_eq_none, List.find?_eq_none, List.mem_map]
  simp only [decide_eq_true_eq]
  constructor
  · rintro absent ⟨binding, mem, rfl⟩
    exact absent binding mem rfl
  · rintro absent ⟨⟨digest', offset⟩, provider, value⟩ mem here
    have named := same _ mem
    obtain ⟨own_digest, own_offset⟩ := id
    dsimp only at here named own
    exact absent ⟨_, mem, by rw [here, named, own]⟩

/-- The search for missing providers finds the ids that no binding has. -/
theorem missing_eq (same : ∀ binding ∈ provided, binding.property.sourceSha256 = digest)
    (own : ∀ id ∈ ids, id.sourceSha256 = digest) :
    (ids.filter fun id => (replacement id.propertyOffset provided).isNone) =
      ids.filter fun id => id ∉ provided.map (·.property) := by
  refine List.filter_congr fun id mem => ?_
  rw [Bool.eq_iff_iff, decide_eq_true_eq]
  exact replacement_isNone_iff same (own id mem)

theorem idsOf_digest {properties : List FirmwareDt.FirmwareProperty} :
    ∀ id ∈ idsOf digest properties, id.sourceSha256 = digest := by
  simp only [idsOf, List.forall_mem_map, implies_true]

/-- The checks pass exactly when the bindings are an exact cover. -/
theorem exactCover_iff (own : ∀ id ∈ ids, id.sourceSha256 = digest)
    (labels : ∀ binding ∈ provided, LabelOk binding.provider) :
    ExactCover digest ids provided ↔
      (∀ binding ∈ provided, BindingOk digest ids binding) ∧ (provided.map (·.property)).Nodup ∧
        (ids.filter fun id => (replacement id.propertyOffset provided).isNone) = [] := by
  constructor
  · intro cover
    refine ⟨fun binding mem => ?_, cover.distinct, ?_⟩
    · obtain ⟨nonempty, short, plain⟩ := labels binding mem
      exact ⟨cover.digest binding mem, nonempty, short, plain,
        (cover.covers _).mp (List.mem_map_of_mem mem)⟩
    · rw [missing_eq cover.digest own, List.filter_eq_nil_iff]
      simpa only [decide_eq_true_eq, not_not] using fun id mem => (cover.covers id).mpr mem
  · rintro ⟨each, distinct, complete⟩
    have same := fun binding mem => (each binding mem).digest
    rw [missing_eq same own, List.filter_eq_nil_iff] at complete
    simp only [decide_eq_true_eq, not_not] at complete
    refine ⟨same, distinct, fun id => ⟨fun bound => ?_, complete id⟩⟩
    obtain ⟨binding, mem, rfl⟩ := List.mem_map.mp bound
    exact (each binding mem).known

/-- Every binding passes its own turn of the loop, behind the ones before it. -/
def EachPasses (digest : Bytes) (ids : List PropertyId) (earlier provided : List ProvidedValue) :
    Prop :=
  ∀ i (inside : i < provided.length),
    checkBinding digest ids (earlier ++ provided.take i) provided[i] = .ok ()

theorem checkBindings_of_each {earlier : List ProvidedValue}
    (each : EachPasses digest ids earlier provided) :
    checkBindings digest ids earlier provided = .ok () := by
  induction provided generalizing earlier with
  | nil => rfl
  | cons binding rest ih =>
      have first := each 0 (Nat.zero_lt_succ _)
      rw [List.take_zero, List.append_nil] at first
      refine bind_eq_ok.mpr ⟨(), first, ih fun i inside => ?_⟩
      have turn := each (i + 1) (Nat.succ_lt_succ inside)
      rwa [List.take_succ_cons, ← List.singleton_append, ← List.append_assoc] at turn

end Cover

/-! ### The calls -/

section Calls

variable [Sha256] {source : Bytes} {provided : List ProvidedValue} {maximumOutput : Nat}
  {parsed : FirmwareDeviceTree}

/-- A source and limits for which the bindings decide. -/
structure Sourced (source : Bytes) (provided : List ProvidedValue) (maximumOutput : Nat)
    (parsed : FirmwareDeviceTree) : Prop where
  parse : FirmwareDeviceTree.parse source = .ok parsed
  unstructural : Unstructural parsed.root.allProperties
  few : parsed.root.templates.length ≤ maxBindings
  some : maximumOutput ≠ 0
  within : maximumOutput ≤ maxOutputBytes
  bindings : provided.length ≤ maxBindings

/-- The ids that are collected in a parsed source. -/
def sourceIds (source : Bytes) (parsed : FirmwareDeviceTree) : List PropertyId :=
  idsOf (sourceIdentity source) parsed.root.allProperties

theorem sourceIds_digest :
    ∀ id ∈ sourceIds source parsed, id.sourceSha256 = sourceIdentity source :=
  idsOf_digest

theorem Sourced.collected (sourced : Sourced source provided maximumOutput parsed) :
    collectTemplates parsed.root (sourceIdentity source) [] = .ok (sourceIds source parsed) := by
  refine (collectTemplates_eq_ok _ (Nat.zero_le _)).mpr
    ⟨sourced.unstructural, (List.nil_append _).symm, ?_⟩
  rw [sourceIds, idsOf, List.length_map]
  exact sourced.few

theorem Sourced.templateIds_eq (sourced : Sourced source provided maximumOutput parsed) :
    templateIds source = .ok (sourceIds source parsed) :=
  bind_eq_ok.mpr ⟨parsed, mapErr_eq_ok.mpr sourced.parse, sourced.collected⟩

/-- For such a source the preflight is the two searches of the bindings. -/
theorem Sourced.preflight_eq (sourced : Sourced source provided maximumOutput parsed) :
    preflight source provided maximumOutput = (do
      checkBindings (sourceIdentity source) (sourceIds source parsed) [] provided
      let missing := (sourceIds source parsed).filter
        fun id => (replacement id.propertyOffset provided).isNone
      rejectIf (missing ≠ []) (.missingProviders missing)
      pure (parsed, sourceIds source parsed)) := by
  have limits : ¬ (maximumOutput = 0 ∨ maximumOutput > maxOutputBytes ∨
      provided.length > maxBindings) := by
    have some := sourced.some
    have within := sourced.within
    have bindings := sourced.bindings
    omega
  rw [preflight, rejectIf_of_not _ limits, bind_ok, mapErr_eq_ok.mpr sourced.parse, bind_ok,
    sourced.collected, bind_ok]

/-- The preflight passes exactly when the bindings are an exact cover. -/
theorem Sourced.preflight_isOk_iff (sourced : Sourced source provided maximumOutput parsed)
    (labels : ∀ binding ∈ provided, LabelOk binding.provider) :
    (∃ found, preflight source provided maximumOutput = .ok found) ↔
      ExactCover (sourceIdentity source) (sourceIds source parsed) provided := by
  rw [sourced.preflight_eq, exactCover_iff sourceIds_digest labels]
  simp only [bind_eq_ok, exists_const, checkBindings_eq_ok, List.map_nil, fresh_iff_nodup,
    rejectIf_eq_ok, not_not, pure_eq, ok.injEq]
  constructor
  · rintro ⟨_, ⟨each, distinct⟩, complete, _⟩
    exact ⟨each, distinct, complete⟩
  · rintro ⟨each, distinct, complete⟩
    exact ⟨_, ⟨each, distinct⟩, complete, rfl⟩

/-- With bindings that pass and a template that has none, exactly the unbound ids are reported. -/
theorem Sourced.missing (sourced : Sourced source provided maximumOutput parsed)
    (each : EachPasses (sourceIdentity source) (sourceIds source parsed) [] provided)
    (unbound : ((sourceIds source parsed).filter fun id => id ∉ provided.map (·.property)) ≠ []) :
    prepare source provided maximumOutput = .err (.missingProviders
      ((sourceIds source parsed).filter fun id => id ∉ provided.map (·.property))) := by
  have checked := checkBindings_of_each each
  have same := fun binding mem => ((checkBindings_eq_ok.mp checked).1 binding mem).digest
  rw [prepare_eq_preflight, sourced.preflight_eq, checked, bind_ok]
  dsimp only
  rw [missing_eq same sourceIds_digest, rejectIf_of _ unbound]
  rfl

/-- A call that succeeds had an exact cover. -/
theorem exactCover_of_prepared {tree : MaterializedTree}
    (prepared : prepare source provided maximumOutput = .ok tree) :
    ∃ parsed, FirmwareDeviceTree.parse source = .ok parsed ∧
      templateIds source = .ok (sourceIds source parsed) ∧
      ExactCover (sourceIdentity source) (sourceIds source parsed) provided ∧
      (provided.map (·.property)).Perm (sourceIds source parsed) ∧
      ∀ binding ∈ provided, ∀ p ∈ parsed.root.allProperties,
        p.offset = binding.property.propertyOffset → p.kind = .template := by
  obtain ⟨parsed, parse, admitted, _⟩ := prepare_eq_ok.mp prepared
  obtain ⟨⟨some, within, bindings⟩, unstructural, few, each, distinct, covered⟩ := admitted
  have sourced : Sourced source provided maximumOutput parsed :=
    ⟨parse, unstructural, by simpa only [idsOf, List.length_map, FirmwareNode.templates] using few,
      some, within, bindings⟩
  have labels : ∀ binding ∈ provided, LabelOk binding.provider := fun binding mem =>
    ⟨(each binding mem).nonempty, (each binding mem).short, (each binding mem).label⟩
  have cover := (exactCover_iff sourceIds_digest labels).mpr
    ⟨each, distinct, missing_eq_nil.mpr covered⟩
  have placed := (FirmwareDt.parse_eq_ok.mp parse).1.placed
  exact ⟨parsed, parse, sourced.templateIds_eq, cover, cover.perm (nodup_idsOf placed),
    fun binding mem => template_of_mem_idsOf placed
      ((cover.covers _).mp (List.mem_map_of_mem mem))⟩

/-- The bindings of a call have to be an exact cover of the templates of its source. Where nothing
else stands in the way the call measures exactly then; bindings that pass but leave templates
unbound are answered with the ids of these, in document order. -/
theorem prepare_exact_cover (source : Bytes) (provided : List ProvidedValue)
    (maximumOutput : Nat) :
    (∀ tree, prepare source provided maximumOutput = .ok tree →
      ∃ parsed, FirmwareDeviceTree.parse source = .ok parsed ∧
        templateIds source = .ok (sourceIds source parsed) ∧
        ExactCover (sourceIdentity source) (sourceIds source parsed) provided ∧
        (provided.map (·.property)).Perm (sourceIds source parsed) ∧
        ∀ binding ∈ provided, ∀ p ∈ parsed.root.allProperties,
          p.offset = binding.property.propertyOffset → p.kind = .template) ∧
    (prepare source provided maximumOutput =
      preflight source provided maximumOutput >>= fun found =>
        measureAndWrite source provided maximumOutput found.1 found.2) ∧
    ∀ parsed, Sourced source provided maximumOutput parsed →
      templateIds source = .ok (sourceIds source parsed) ∧
      (sourceIds source parsed).Pairwise (fun a b => a.propertyOffset < b.propertyOffset) ∧
      ((∀ binding ∈ provided, LabelOk binding.provider) →
        ((∃ found, preflight source provided maximumOutput = .ok found) ↔
          ExactCover (sourceIdentity source) (sourceIds source parsed) provided)) ∧
      (EachPasses (sourceIdentity source) (sourceIds source parsed) [] provided →
        ((sourceIds source parsed).filter fun id => id ∉ provided.map (·.property)) ≠ [] →
        prepare source provided maximumOutput = .err (.missingProviders
          ((sourceIds source parsed).filter fun id => id ∉ provided.map (·.property)))) :=
  ⟨fun _ => exactCover_of_prepared, prepare_eq_preflight source provided maximumOutput,
    fun _ sourced => ⟨sourced.templateIds_eq,
      ascending_idsOf (FirmwareDt.parse_eq_ok.mp sourced.parse).1.placed,
      sourced.preflight_isOk_iff, sourced.missing⟩⟩

end Calls

/-- A root with a child `chosen` whose memory is two templates, at 100 and at 148. -/
def dramSource : Bytes :=
  toLeBytes 4 1 ++ toLeBytes 4 1 ++ padded 32 (asBytes "name") ++ [1, 0, 0, 0, 0, 0, 0, 0] ++
    toLeBytes 4 3 ++ toLeBytes 4 0 ++
    padded 32 (asBytes "name") ++ [7, 0, 0, 0] ++ asBytes "chosen" ++ [0, 0] ++
    padded 32 (asBytes "dram-base") ++ [9, 0, 0, 128] ++ asBytes "ram.base" ++ [0, 0, 0, 0] ++
    padded 32 (asBytes "dram-size") ++ [0, 0, 0, 128]

/-- SHA-256 of this source and of the two values that are bound in it. -/
@[reducible] def dramSha256 : Sha256 where
  digest bytes :=
    if bytes = dramSource then
      [23, 75, 213, 65, 17, 158, 210, 85, 24, 26, 78, 250, 79, 17, 92, 118, 160, 126, 210, 222, 63,
        39, 160, 244, 70, 91, 226, 236, 209, 38, 45, 9]
    else if bytes = toLeBytes 8 0x40000000 then
      [62, 153, 13, 69, 200, 63, 160, 29, 155, 240, 198, 75, 121, 237, 118, 120, 223, 60, 114, 54,
        20, 240, 247, 236, 205, 195, 209, 150, 250, 48, 115, 233]
    else if bytes = toLeBytes 8 0x20000000 then
      [60, 124, 243, 105, 199, 3, 78, 68, 165, 97, 94, 250, 165, 28, 181, 37, 173, 29, 184, 109,
        209, 179, 84, 123, 64, 98, 95, 188, 212, 154, 153, 135]
    else []

/-- A value for the template at an offset. -/
def dramBinding (offset value : Nat) (provider : String) : ProvidedValue :=
  ⟨⟨dramSha256.digest dramSource, offset⟩, provider, toLeBytes 8 value⟩

/-- With a binding for the second of two templates, the first is reported. -/
theorem prepare_exact_cover_sample :
    @prepare dramSha256 dramSource [dramBinding 148 0x20000000 "board"] 4096 =
      .err (.missingProviders [⟨dramSha256.digest dramSource, 100⟩]) := by
  obtain ⟨parsed, parse, facts⟩ := isOkAnd_iff.mp (by decide +kernel :
    (FirmwareDeviceTree.parse dramSource).isOkAnd (fun tree =>
      (∀ p ∈ tree.root.allProperties, p.kind = .template → p.name ≠ "name") ∧
        tree.root.templates.length ≤ maxBindings) = true)
  obtain ⟨unstructural, few⟩ := of_decide_eq_true facts
  have sourced : Sourced dramSource [dramBinding 148 0x20000000 "board"] 4096 parsed :=
    ⟨parse, unstructural, few, by decide, by decide, by decide⟩
  obtain ⟨collected, _, _, missing⟩ :=
    (@prepare_exact_cover dramSha256 dramSource _ 4096).2.2 parsed sourced
  have found : @templateIds dramSha256 dramSource =
      .ok [⟨dramSha256.digest dramSource, 100⟩, ⟨dramSha256.digest dramSource, 148⟩] := by
    decide +kernel
  rw [found, ok.injEq] at collected
  rw [← collected] at missing
  have unbound : ([⟨dramSha256.digest dramSource, 100⟩, ⟨dramSha256.digest dramSource, 148⟩] :
      List PropertyId).filter (fun id =>
        id ∉ [dramBinding 148 0x20000000 "board"].map (·.property)) =
      [⟨dramSha256.digest dramSource, 100⟩] := by
    decide +kernel
  rw [unbound] at missing
  refine missing (fun i inside => ?_) (List.cons_ne_nil _ _)
  obtain rfl : i = 0 := Nat.lt_one_iff.mp inside
  exact (by decide +kernel : checkBinding (dramSha256.digest dramSource)
    [⟨dramSha256.digest dramSource, 100⟩, ⟨dramSha256.digest dramSource, 148⟩] []
    (dramBinding 148 0x20000000 "board") = .ok ())

end Nextcore.RuntimeDt
