import Nextcore.BootConfig.Paths
import Nextcore.BootConfig.TraceOrder

/-!
What an accepted trace configuration may ask for.

`checkTrace` is one large condition; `Placed` is what it says of the memory of an accepted trace,
and `Budgeted` what it says of the budget. The sums that it takes unchecked are behind terms that
guard them, so that no entry point panics. A kernel target is checked as it is read, and is for one
of the two machines (`kernelTarget_policy`).
-/

namespace Nextcore.BootConfig

open Checked Checked.Outcome

/-! ### The large condition -/

/-- The windows of a trace. -/
structure Placed (result : Arm64TraceConfiguration) : Prop where
  low : 16 * 1024 * 1024 ≤ result.memorySize
  high : result.memorySize ≤ 1024 * 1024 * 1024
  pages : ∀ n ∈ [result.memorySize, result.physicalBase, result.kernelPhys, result.virtualBase,
    result.actualMemorySize], 16384 ∣ n
  physical : result.physicalBase + result.memorySize < 2 ^ 64
  virtual : result.virtualBase + result.memorySize < 2 ^ 64
  kernel : result.physicalBase ≤ result.kernelPhys ∧
    result.kernelPhys < result.physicalBase + result.memorySize
  actual : result.memorySize ≤ result.actualMemorySize

/-- The budget of a trace, for the limit and the tier that were selected. -/
structure Budgeted (maximumBudget : Nat) (selectedBudget : Option Nat)
    (result : Arm64TraceConfiguration) : Prop where
  memory : result.memoryProfile.isSome = true → result.platform.isSome = true
  positive : 1 ≤ result.instructionBudget
  selected : ∀ budget, selectedBudget = some budget →
    result.instructionBudget = budget ∧ result.platform.isSome = true
  plain : result.platform = none → result.instructionBudget ≤ 8
  limit : result.platform.isSome = true → result.instructionBudget ≤ maximumBudget
  approved : result.instructionBudget ≤ 64 ∨ result.instructionBudget ∈ [256, 1024, 4096] ∨
    selectedBudget = some result.instructionBudget

section Condition

variable {maximumBudget : Nat} {selectedBudget : Option Nat} {result : Arm64TraceConfiguration}

theorem checkTrace_eq_ok (done : checkTrace maximumBudget selectedBudget result = .ok ()) :
    Placed result ∧ Budgeted maximumBudget selectedBudget result := by
  obtain ⟨clear, done⟩ := seq_eq_ok.mp done
  obtain ⟨stop, summed, clear'⟩ := bind_eq_ok.mp done
  obtain ⟨_, rfl⟩ := add_eq_ok.mp summed
  rw [rejectIf_eq_ok] at clear clear'
  simp only [not_or, not_isNone_checkedAdd, ne_eq, not_not] at clear clear'
  obtain ⟨low, memory, high, page, page₁, page₂, page₃, actual, page₄, physical, virtual, first⟩ :=
    clear
  obtain ⟨last, positive, selected, limit, approved⟩ := clear'
  have pages : ∀ n ∈ [result.memorySize, result.physicalBase, result.kernelPhys,
      result.virtualBase, result.actualMemorySize], 16384 ∣ n := by
    simp only [List.forall_mem_cons, List.not_mem_nil, false_implies, implies_true, and_true]
    exact ⟨Nat.dvd_of_mod_eq_zero page, Nat.dvd_of_mod_eq_zero page₁, Nat.dvd_of_mod_eq_zero page₂,
      Nat.dvd_of_mod_eq_zero page₃, Nat.dvd_of_mod_eq_zero page₄⟩
  refine ⟨⟨Nat.not_lt.mp low, Nat.not_lt.mp high, pages, physical, virtual,
    ⟨Nat.not_lt.mp first, Nat.not_le.mp last⟩, Nat.not_lt.mp actual⟩, ?_,
    Nat.pos_of_ne_zero positive, ?_, ?_, ?_, ?_⟩
  · intro profile
    rw [Option.isSome_iff_ne_none]
    intro none_given
    exact memory ⟨profile, none_given ▸ rfl⟩
  · rintro budget rfl
    rw [Option.any_some, decide_eq_true_eq, not_or, not_not] at selected
    refine ⟨selected.1, ?_⟩
    rw [Option.isSome_iff_ne_none]
    intro none_given
    exact selected.2 (none_given ▸ rfl)
  · intro plain
    rw [plain] at limit
    exact Nat.not_lt.mp limit
  · intro given
    rw [if_pos given] at limit
    exact Nat.not_lt.mp limit
  · by_cases small : result.instructionBudget ≤ 64
    · exact .inl small
    by_cases approved' : result.instructionBudget ∈ [256, 1024, 4096]
    · exact .inr (.inl approved')
    · refine .inr (.inr ?_)
      by_contra other
      exact approved ⟨Nat.not_le.mp small, approved', other⟩

theorem checkTrace_ne_panic : checkTrace maximumBudget selectedBudget result ≠ .panic := by
  apply bind_ne_panic rejectIf_ne_panic
  intro _ tested
  have clear := rejectIf_eq_ok.mp tested
  simp only [not_or, not_isNone_checkedAdd] at clear
  obtain ⟨_, _, _, _, _, _, _, _, _, physical, _, _⟩ := clear
  exact bind_ne_panic (add_ne_panic_iff.mpr physical) fun _ _ => rejectIf_ne_panic

/-- The vectors of a platform are inside the window, if there are any. -/
def VectorsInside (result : Arm64TraceConfiguration) : Prop :=
  ∀ platform, result.platform = some platform → platform.vectorBase ≠ 0 →
    result.physicalBase ≤ platform.vectorBase ∧
      platform.vectorBase + 2048 ≤ result.physicalBase + result.memorySize

theorem vectorsEscape_ne_panic {platform : Arm64PlatformConfiguration} (placed : Placed result) :
    vectorsEscape result platform ≠ .panic := by
  apply ite_ne_panic (ok_ne_panic _)
  apply ite_ne_panic (ok_ne_panic _)
  cases checkedAdd platform.vectorBase 2048 with
  | none => exact ok_ne_panic _
  | some stop =>
      exact bind_ne_panic (add_ne_panic_iff.mpr placed.physical) fun _ _ => ok_ne_panic _

theorem checkVectors_ne_panic (placed : Placed result) : checkVectors result ≠ .panic := by
  rw [checkVectors]
  cases result.platform with
  | none => exact ok_ne_panic _
  | some platform =>
      exact bind_ne_panic (vectorsEscape_ne_panic placed) fun _ _ => rejectIf_ne_panic

theorem checkVectors_eq_ok (done : checkVectors result = .ok ()) : VectorsInside result := by
  intro platform given nonzero
  rw [checkVectors, given] at done
  obtain ⟨escape, read, tested⟩ := bind_eq_ok.mp done
  have inside := rejectIf_eq_ok.mp tested
  rw [vectorsEscape, if_neg nonzero] at read
  split at read
  · cases read
    exact absurd rfl inside
  next first =>
    split at read
    · cases read
      exact absurd rfl inside
    next stop summed =>
      obtain ⟨_, rfl⟩ := checkedAdd_eq_some.mp summed
      obtain ⟨limit, summed', read⟩ := bind_eq_ok.mp read
      obtain ⟨_, rfl⟩ := add_eq_ok.mp summed'
      cases read
      rw [decide_eq_true_eq, Nat.not_lt] at inside
      exact ⟨Nat.not_lt.mp first, inside⟩

end Condition

/-! ### What a trace selects -/

/-- The trace names a tier. -/
def NamesTier (trace : Node) (tier : DiagnosticTier) : Prop :=
  ∃ node, dictionaryValue trace "DiagnosticTier" = .ok (some node) ∧
    node.hasTagName "string" = true ∧ scalarText node = .ok tier.label

section Selection

variable {capability : TraceTierCapability} {memoryProfile : Option Arm64TraceMemoryProfile}
  {value : Option Node}

theorem memoryProfileValue_eq_ok
    (done : memoryProfileValue capability value = .ok memoryProfile) :
    memoryProfile.isSome = true → capability = .mapped := by
  intro given
  cases value with
  | none =>
      cases done
      cases given
  | some node =>
      obtain ⟨tested, _⟩ := seq_eq_ok.mp done
      exact not_not.mp (rejectIf_eq_ok.mp tested)

theorem selectedBudgetValue_eq_ok {selectedBudget : Option Nat}
    (done : selectedBudgetValue capability memoryProfile value = .ok selectedBudget) :
    value = none ∧ selectedBudget = none ∨
      ∃ node tier, value = some node ∧ node.hasTagName "string" = true ∧
        scalarText node = .ok (DiagnosticTier.label tier) ∧ selectedBudget = some tier.budget ∧
          tier.Admitted capability memoryProfile := by
  cases value with
  | none =>
      cases done
      exact .inl ⟨rfl, rfl⟩
  | some node =>
      obtain ⟨tested, done⟩ := seq_eq_ok.mp done
      obtain ⟨tagged, done⟩ := seq_eq_ok.mp done
      obtain ⟨text, read, done⟩ := bind_eq_ok.mp done
      obtain ⟨budget, found, done⟩ := bind_eq_ok.mp done
      cases done
      have extended : capability ≠ .ordinary := rejectIf_eq_ok.mp tested
      obtain ⟨tier, rfl, rfl, admitted⟩ :=
        (tierBudget_eq_some extended).mp (ofOption_eq_ok.mp found)
      exact .inr ⟨node, tier, rfl, not_not.mp (rejectIf_eq_ok.mp tagged), read, rfl, admitted⟩

theorem traceFields_eq_ok {trace : Node} {result : Arm64TraceConfiguration}
    (done : traceFields trace memoryProfile = .ok result) :
    result.memoryProfile = memoryProfile := by
  iterate 13 obtain ⟨_, _, done⟩ := bind_eq_ok.mp done
  cases done
  rfl

end Selection

/-! ### No step panics -/

section Calm

variable {dict trace : Node} {wanted : String} {e : BootConfigError}

theorem topDictionary_ne_panic {document : Document} : topDictionary document ≠ .panic :=
  ofOption_ne_panic

theorem requiredValue_ne_panic : requiredValue dict wanted e ≠ .panic :=
  bind_ne_panic dictionaryValue_ne_panic fun _ _ => ofOption_ne_panic

theorem requiredString_ne_panic : requiredString dict wanted e ≠ .panic := by
  apply bind_ne_panic requiredValue_ne_panic
  intro value _
  exact bind_ne_panic rejectIf_ne_panic fun _ _ => scalarText_ne_panic

theorem normalizeAbsolutePath_ne_panic {path : String} : normalizeAbsolutePath path ≠ .panic := by
  apply bind_ne_panic rejectIf_ne_panic
  intro _ _
  apply bind_ne_panic rejectIf_ne_panic
  intro _ _
  apply bind_ne_panic rejectIf_ne_panic
  intro _ _
  exact bind_ne_panic rejectIf_ne_panic fun _ _ => ok_ne_panic _

theorem kernelArguments_ne_panic {value : Option Node} : kernelArguments value ≠ .panic := by
  cases value with
  | none => exact ok_ne_panic _
  | some node => exact bind_ne_panic rejectIf_ne_panic fun _ _ => scalarText_ne_panic

theorem integerValue_ne_panic {node : Node} : integerValue e node ≠ .panic := by
  apply bind_ne_panic rejectIf_ne_panic
  intro _ _
  exact bind_ne_panic scalarText_ne_panic fun _ _ => ofOption_ne_panic

theorem traceNumber_ne_panic : traceNumber trace wanted ≠ .panic :=
  bind_ne_panic requiredValue_ne_panic fun _ _ => integerValue_ne_panic

theorem platformNumber_ne_panic {options : Option Node} {default : Nat} :
    platformNumber options wanted default ≠ .panic := by
  cases options with
  | none => exact ok_ne_panic _
  | some options =>
      apply bind_ne_panic dictionaryValue_ne_panic
      intro value _
      cases value with
      | none => exact ok_ne_panic _
      | some node => exact integerValue_ne_panic

theorem checkPlatformOptions_ne_panic {options : Option Node} :
    checkPlatformOptions options ≠ .panic := by
  cases options with
  | none => exact ok_ne_panic _
  | some options =>
      apply bind_ne_panic rejectIf_ne_panic
      intro _ _
      apply forEach_ne_panic
      intro key _
      exact bind_ne_panic scalarText_ne_panic fun _ _ => rejectIf_ne_panic

theorem platformOf_ne_panic {profile : Node} {options : Option Node} :
    platformOf profile options ≠ .panic := by
  apply bind_ne_panic rejectIf_ne_panic
  intro _ _
  apply bind_ne_panic scalarText_ne_panic
  intro name _
  apply bind_ne_panic rejectIf_ne_panic
  intro _ _
  apply bind_ne_panic checkPlatformOptions_ne_panic
  intro _ _
  iterate 5
    apply bind_ne_panic platformNumber_ne_panic
    intro _ _
  exact bind_ne_panic rejectIf_ne_panic fun _ _ => ok_ne_panic _

theorem parseArm64PlatformConfiguration_ne_panic :
    parseArm64PlatformConfiguration trace ≠ .panic := by
  apply bind_ne_panic dictionaryValue_ne_panic
  intro profile _
  apply bind_ne_panic dictionaryValue_ne_panic
  intro options _
  cases profile with
  | none => exact bind_ne_panic rejectIf_ne_panic fun _ _ => ok_ne_panic _
  | some profile => exact platformOf_ne_panic

variable {capability : TraceTierCapability} {memoryProfile : Option Arm64TraceMemoryProfile}
  {value : Option Node}

theorem memoryProfileValue_ne_panic : memoryProfileValue capability value ≠ .panic := by
  cases value with
  | none => exact ok_ne_panic _
  | some node =>
      apply bind_ne_panic rejectIf_ne_panic
      intro _ _
      apply bind_ne_panic rejectIf_ne_panic
      intro _ _
      apply bind_ne_panic scalarText_ne_panic
      intro text _
      exact bind_ne_panic rejectIf_ne_panic fun _ _ => ok_ne_panic _

theorem selectedBudgetValue_ne_panic :
    selectedBudgetValue capability memoryProfile value ≠ .panic := by
  cases value with
  | none => exact ok_ne_panic _
  | some node =>
      apply bind_ne_panic rejectIf_ne_panic
      intro _ _
      apply bind_ne_panic rejectIf_ne_panic
      intro _ _
      apply bind_ne_panic scalarText_ne_panic
      intro text _
      exact bind_ne_panic ofOption_ne_panic fun _ _ => ok_ne_panic _

theorem videoValue_ne_panic : videoValue value ≠ .panic := by
  cases value with
  | none => exact ok_ne_panic _
  | some node =>
      apply bind_ne_panic rejectIf_ne_panic
      intro _ _
      apply bind_ne_panic scalarText_ne_panic
      intro text _
      exact bind_ne_panic rejectIf_ne_panic fun _ _ => ok_ne_panic _

theorem traceFields_ne_panic : traceFields trace memoryProfile ≠ .panic := by
  apply bind_ne_panic requiredValue_ne_panic
  intro path _
  apply bind_ne_panic rejectIf_ne_panic
  intro _ _
  iterate 5
    apply bind_ne_panic traceNumber_ne_panic
    intro _ _
  apply bind_ne_panic scalarText_ne_panic
  intro text _
  apply bind_ne_panic normalizeAbsolutePath_ne_panic
  intro deviceTreePath _
  apply bind_ne_panic traceNumber_ne_panic
  intro instructionBudget _
  apply bind_ne_panic parseArm64PlatformConfiguration_ne_panic
  intro platform _
  apply bind_ne_panic dictionaryValue_ne_panic
  intro value _
  exact bind_ne_panic videoValue_ne_panic fun _ _ => ok_ne_panic _

theorem traceConfiguration_ne_panic {maximumBudget : Nat} :
    traceConfiguration maximumBudget capability trace ≠ .panic := by
  apply bind_ne_panic dictionaryValue_ne_panic
  intro value _
  apply bind_ne_panic memoryProfileValue_ne_panic
  intro memoryProfile _
  apply bind_ne_panic dictionaryValue_ne_panic
  intro value' _
  apply bind_ne_panic selectedBudgetValue_ne_panic
  intro selectedBudget _
  apply bind_ne_panic requiredString_ne_panic
  intro abi _
  apply bind_ne_panic rejectIf_ne_panic
  intro _ _
  apply bind_ne_panic traceFields_ne_panic
  intro result _
  apply bind_ne_panic checkTrace_ne_panic
  intro _ checked
  have placed := (checkTrace_eq_ok checked).1
  exact bind_ne_panic (checkVectors_ne_panic placed) fun _ _ => ok_ne_panic _

theorem traceOf_ne_panic {document : Document} : traceOf document ≠ .panic := by
  apply bind_ne_panic topDictionary_ne_panic
  intro root _
  iterate 3
    apply bind_ne_panic requiredValue_ne_panic
    intro _ _
  exact bind_ne_panic rejectIf_ne_panic fun _ _ => ok_ne_panic _

variable [XmlParser] {input : Bytes}

theorem parseNamedKernelTarget_ne_panic {arm : Bool} :
    parseNamedKernelTarget input arm ≠ .panic := by
  apply bind_ne_panic parseDocument_ne_panic
  intro document _
  apply bind_ne_panic topDictionary_ne_panic
  intro dictionary _
  iterate 2
    apply bind_ne_panic requiredValue_ne_panic
    intro _ _
    apply bind_ne_panic rejectIf_ne_panic
    intro _ _
  apply bind_ne_panic requiredString_ne_panic
  intro name _
  apply bind_ne_panic ofOption_ne_panic
  intro profile _
  apply bind_ne_panic requiredString_ne_panic
  intro text _
  apply bind_ne_panic normalizeAbsolutePath_ne_panic
  intro path _
  apply bind_ne_panic dictionaryValue_ne_panic
  intro value _
  apply bind_ne_panic kernelArguments_ne_panic
  intro arguments _
  apply bind_ne_panic rejectIf_ne_panic
  intro _ _
  exact bind_ne_panic rejectIf_ne_panic fun _ _ => ok_ne_panic _

theorem parseArm64TraceWithPolicy_ne_panic {maximumBudget : Nat} :
    parseArm64TraceWithPolicy input maximumBudget capability ≠ .panic := by
  apply bind_ne_panic parseNamedKernelTarget_ne_panic
  intro target _
  apply bind_ne_panic rejectIf_ne_panic
  intro _ _
  apply bind_ne_panic parseDocument_ne_panic
  intro document _
  exact bind_ne_panic traceOf_ne_panic fun _ _ => traceConfiguration_ne_panic

end Calm

/-! ### Kernel targets -/

/-- What a kernel target may be. -/
structure KernelTargetOk (arm : Bool) (target : KernelTarget) : Prop where
  path : Canonical target.path
  short : utf16Units target.path ≤ maxPathUtf16Units
  printable : ∀ b ∈ asBytes target.arguments, 0x20 ≤ b ∧ b ≤ 0x7e
  arguments : (asBytes target.arguments).length ≤ 1023
  profile : target.profile = .xnu12377Pstart32 ↔ arm = false

/-- One of the two machines at most has a profile of a name. -/
theorem kernelProfile_apart {name : String} {profile : KernelProfile}
    (found : kernelProfile false name = some profile) : kernelProfile true name = none := by
  unfold kernelProfile at found ⊢
  split at found
  · next named =>
    obtain ⟨_, rfl⟩ := named
    decide
  · simp at found

/-- One profile is for the machine without `arm`, the others are for the other. -/
theorem kernelProfile_pstart {arm : Bool} {name : String} {profile : KernelProfile}
    (found : kernelProfile arm name = some profile) :
    profile = .xnu12377Pstart32 ↔ arm = false := by
  cases arm <;> grind [kernelProfile]

/-- What is read of a kernel for one machine. -/
def kernelTargetOf (arm : Bool) (kernel : Node) (name : String) : Result KernelTarget := do
  let profile ← ofOption .unsupportedKernelProfile (kernelProfile arm name)
  let text ← requiredString kernel "Path" .missingPath
  let path ← normalizeAbsolutePath text
  let value ← dictionaryValue kernel "Arguments"
  let arguments ← kernelArguments value
  rejectIf ((asBytes arguments).any fun byte => ¬ (0x20 ≤ byte ∧ byte ≤ 0x7e)) .invalidArguments
  rejectIf ((asBytes arguments).length > 1023) .argumentsTooLong
  pure ⟨path, arguments, profile⟩

theorem kernelTargetOf_ok {arm : Bool} {kernel : Node} {name : String} :
    Ensures (fun target => KernelTargetOk arm target ∧
      kernelProfile arm name = some target.profile) (kernelTargetOf arm kernel name) := by
  refine ensures_bind fun profile found => ensures_bind fun text _ =>
    ensures_bind fun path normal => ensures_bind fun value _ => ensures_bind fun arguments _ =>
    ensures_bind fun _ printable => ensures_bind fun _ short => ensures_ok ?_
  have known := ofOption_eq_ok.mp found
  obtain ⟨units, rfl, canonical⟩ := normalizeAbsolutePath_eq_ok.mp normal
  refine ⟨⟨canonical, utf16Units_backslashes.trans_le units, ?_,
    Nat.not_lt.mp (rejectIf_eq_ok.mp short), kernelProfile_pstart known⟩, known⟩
  simpa using rejectIf_eq_ok.mp printable

section KernelTargets

variable [XmlParser] {input : Bytes} {arm : Bool}

/-- The dictionary of the kernel and the name of its profile, which are read for both machines
alike. -/
def namedKernel (input : Bytes) : Result (Node × String) := do
  let document ← parseDocument input
  let dictionary ← topDictionary document
  let nextcore ← requiredValue dictionary "Nextcore" .missingKernelTarget
  requireTag nextcore "dict"
  let kernel ← requiredValue nextcore "Kernel" .missingKernelTarget
  requireTag kernel "dict"
  let name ← requiredString kernel "Profile" .unsupportedKernelProfile
  pure (kernel, name)

theorem parseNamedKernelTarget_eq : parseNamedKernelTarget input arm =
    namedKernel input >>= fun found => kernelTargetOf arm found.1 found.2 := by
  simp only [parseNamedKernelTarget, namedKernel, kernelTargetOf, bind_assoc, pure_eq, bind_ok]

/-- No kernel target is read with a panic; what is accepted is inside the policy, and no input has a
target for both machines. -/
theorem kernelTarget_policy (input : Bytes) :
    parseKernelTarget input ≠ .panic ∧
      ∀ target, parseKernelTarget input = .ok target → KernelTargetOk false target ∧
        ∀ other, parseArm64KernelTarget input ≠ .ok other := by
  refine ⟨parseNamedKernelTarget_ne_panic, fun target accepted => ?_⟩
  rw [parseKernelTarget, parseNamedKernelTarget_eq] at accepted
  obtain ⟨⟨kernel, name⟩, read, made⟩ := bind_eq_ok.mp accepted
  obtain ⟨inside, known⟩ := kernelTargetOf_ok target made
  refine ⟨inside, fun other both => ?_⟩
  rw [parseArm64KernelTarget, parseNamedKernelTarget_eq, read, bind_ok] at both
  have absent := kernelProfile_apart known
  rw [(kernelTargetOf_ok other both).2] at absent
  cases absent

end KernelTargets

/-! ### The entry points -/

/-- The entry points of the trace parser. -/
inductive TraceEntry where
  | standard
  | withLimit (maximum : Nat)
  | deep
  | long
  | initialization
  | mapped
  deriving DecidableEq, Repr

namespace TraceEntry

def parse [XmlParser] (entry : TraceEntry) (input : Bytes) : Result Arm64TraceConfiguration :=
  match entry with
  | standard => parseArm64TraceConfiguration input
  | withLimit maximum => parseArm64TraceConfigurationWithLimit input maximum
  | deep => parseArm64TraceConfigurationWithDeepTier input
  | long => parseArm64TraceConfigurationWithLongTier input
  | initialization => parseArm64TraceConfigurationWithInitializationTier input
  | mapped => parseArm64TraceConfigurationWithMappedTier input

/-- The limit of the caller. -/
def limit : TraceEntry → Nat
  | standard => 64
  | withLimit maximum => maximum
  | _ => 4096

def capability : TraceEntry → TraceTierCapability
  | standard => .ordinary
  | withLimit _ => .ordinary
  | deep => .deep
  | long => .long
  | initialization => .initialization
  | mapped => .mapped

theorem eq_mapped {entry : TraceEntry} (top : entry.capability = .mapped) : entry = mapped := by
  cases entry <;> first | rfl | cases top

end TraceEntry

/-- What the budget of an accepted trace may be. -/
structure BudgetOk (entry : TraceEntry) (trace : Node)
    (result : Arm64TraceConfiguration) : Prop where
  positive : 1 ≤ result.instructionBudget
  plain : result.platform = none → result.instructionBudget ≤ 8
  platform : result.platform.isSome = true → result.instructionBudget ≤ 64 ∨
    (result.instructionBudget ∈ [256, 1024, 4096] ∧ result.instructionBudget ≤ entry.limit) ∨
    ∃ tier, NamesTier trace tier ∧ result.instructionBudget = tier.budget ∧
      tier.Admitted entry.capability result.memoryProfile
  /-- A tier that is named is taken. -/
  named : dictionaryValue trace "DiagnosticTier" ≠ .ok none →
    ∃ tier, NamesTier trace tier ∧ result.instructionBudget = tier.budget
  memory : result.memoryProfile.isSome = true → entry = .mapped ∧ result.platform.isSome = true

section Policy

variable {entry : TraceEntry} {trace : Node} {input : Bytes} {result : Arm64TraceConfiguration}

/-- The budget of an accepted trace, by the tier that is selected. -/
theorem budgetOk_of_budgeted {selectedBudget : Option Nat} {value : Option Node}
    (found : dictionaryValue trace "DiagnosticTier" = .ok value)
    (selected : selectedBudgetValue entry.capability result.memoryProfile value =
      .ok selectedBudget)
    (budgeted : Budgeted (selectedBudget.getD entry.limit) selectedBudget result)
    (mapped : result.memoryProfile.isSome = true → entry.capability = .mapped) :
    BudgetOk entry trace result where
  positive := budgeted.positive
  plain := budgeted.plain
  platform := by
    intro given
    rcases selectedBudgetValue_eq_ok selected with
      ⟨_, rfl⟩ | ⟨node, tier, rfl, tag, text, rfl, rest⟩
    · rcases budgeted.approved with small | approved | wrong
      · exact .inl small
      · exact .inr (.inl ⟨approved, budgeted.limit given⟩)
      · cases wrong
    · exact .inr (.inr ⟨tier, ⟨node, found, tag, text⟩, (budgeted.selected _ rfl).1, rest⟩)
  named := by
    intro given
    rcases selectedBudgetValue_eq_ok selected with ⟨rfl, _⟩ | ⟨node, tier, rfl, tag, text, rfl, _⟩
    · exact absurd found given
    · exact ⟨tier, ⟨node, found, tag, text⟩, (budgeted.selected _ rfl).1⟩
  memory := by
    intro given
    exact ⟨TraceEntry.eq_mapped (mapped given), budgeted.memory given⟩

theorem traceConfiguration_eq_ok
    (done : traceConfiguration entry.limit entry.capability trace = .ok result) :
    BudgetOk entry trace result ∧ Placed result ∧ VectorsInside result := by
  obtain ⟨value, _, done⟩ := bind_eq_ok.mp done
  obtain ⟨memoryProfile, profiled, done⟩ := bind_eq_ok.mp done
  obtain ⟨value', found, done⟩ := bind_eq_ok.mp done
  obtain ⟨selectedBudget, selected, done⟩ := bind_eq_ok.mp done
  obtain ⟨_, _, done⟩ := bind_eq_ok.mp done
  obtain ⟨_, _, done⟩ := bind_eq_ok.mp done
  obtain ⟨result', read, done⟩ := bind_eq_ok.mp done
  obtain ⟨checked, done⟩ := seq_eq_ok.mp done
  obtain ⟨vectors, done⟩ := seq_eq_ok.mp done
  cases done
  obtain ⟨placed, budgeted⟩ := checkTrace_eq_ok checked
  rw [← traceFields_eq_ok read] at profiled selected
  exact ⟨budgetOk_of_budgeted found selected budgeted (memoryProfileValue_eq_ok profiled), placed,
    checkVectors_eq_ok vectors⟩

variable [XmlParser]

/-- `trace` is the trace of the document that `input` holds. -/
def HoldsTrace (input : Bytes) (trace : Node) : Prop :=
  ∃ document, parseDocument input = .ok document ∧ traceOf document = .ok trace

theorem parse_eq_ok (done : entry.parse input = .ok result) :
    parseArm64TraceWithPolicy input entry.limit entry.capability = .ok result := by
  cases entry with
  | standard => exact (seq_eq_ok.mp done).2
  | withLimit maximum => exact (seq_eq_ok.mp done).2
  | deep => exact done
  | long => exact done
  | initialization => exact done
  | mapped => exact done

theorem parse_ne_panic : entry.parse input ≠ .panic := by
  cases entry with
  | standard => exact bind_ne_panic rejectIf_ne_panic fun _ _ => parseArm64TraceWithPolicy_ne_panic
  | withLimit maximum =>
      exact bind_ne_panic rejectIf_ne_panic fun _ _ => parseArm64TraceWithPolicy_ne_panic
  | deep => exact parseArm64TraceWithPolicy_ne_panic
  | long => exact parseArm64TraceWithPolicy_ne_panic
  | initialization => exact parseArm64TraceWithPolicy_ne_panic
  | mapped => exact parseArm64TraceWithPolicy_ne_panic

/-- Whatever an entry point accepts is inside the policy; and no entry point panics. -/
theorem trace_policy (entry : TraceEntry) (input : Bytes) :
    entry.parse input ≠ .panic ∧
      Ensures (fun result => ∃ trace, HoldsTrace input trace ∧ BudgetOk entry trace result ∧
        Placed result ∧ VectorsInside result) (entry.parse input) := by
  refine ⟨parse_ne_panic, ?_⟩
  intro result done
  obtain ⟨_, _, done⟩ := bind_eq_ok.mp (parse_eq_ok done)
  obtain ⟨_, _, done⟩ := bind_eq_ok.mp done
  obtain ⟨document, parsed, done⟩ := bind_eq_ok.mp done
  obtain ⟨trace, held, done⟩ := bind_eq_ok.mp done
  exact ⟨trace, ⟨document, parsed, held⟩, traceConfiguration_eq_ok done⟩

end Policy

/-- The sample names a tier, and its budget is the one of that tier. -/
theorem trace_policy_sample : ∃ trace, @HoldsTrace sampleParser sampleInput trace ∧
    BudgetOk .deep trace sampleConfiguration ∧ Placed sampleConfiguration ∧
      VectorsInside sampleConfiguration := by
  have accepted : @TraceEntry.parse sampleParser .deep sampleInput = .ok sampleConfiguration :=
    parse_sample
  exact (@trace_policy sampleParser .deep sampleInput).2 sampleConfiguration accepted

end Nextcore.BootConfig
