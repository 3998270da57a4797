import Nextcore.Lib.Below
import Nextcore.BootConfig.Trace

/-!
The entry points of the trace parser, in the order of what they admit.

A `DiagnosticTier` has a label, a budget, and the least capability that admits it. The policy is
monotone in the limit and in the rank of the capability (`below_policy`), and each entry point has
at least those of the one before it.
-/

namespace Nextcore.BootConfig

open Checked Checked.Outcome

/-! ### Tiers -/

/-- The capabilities in their order. -/
def TraceTierCapability.rank : TraceTierCapability → Nat
  | .ordinary => 0
  | .deep => 1
  | .long => 2
  | .initialization => 3
  | .mapped => 4

inductive DiagnosticTier where
  | deep
  | long
  | transition
  | boundary
  | helperSpan
  | initialization
  deriving DecidableEq, Repr

namespace DiagnosticTier

def label : DiagnosticTier → String
  | .deep => "deep-16384"
  | .long => "long-65536"
  | .transition => "transition-1048576"
  | .boundary => "boundary-1114112"
  | .helperSpan => "helper-span-44040192"
  | .initialization => "initialization-67108864"

def budget : DiagnosticTier → Nat
  | .deep => 16384
  | .long => 65536
  | .transition => 1048576
  | .boundary => 1114112
  | .helperSpan => 44040192
  | .initialization => 67108864

/-- The least capability that admits the tier. -/
def least : DiagnosticTier → TraceTierCapability
  | .deep => .deep
  | .long => .long
  | .transition => .mapped
  | .boundary => .mapped
  | .helperSpan => .mapped
  | .initialization => .initialization

/-- The tiers that need a memory profile. -/
def needsMemory : DiagnosticTier → Bool
  | .transition => true
  | .boundary => true
  | .helperSpan => true
  | _ => false

/-- The capability admits the tier, and the memory profile is there where it needs one. -/
structure Admitted (tier : DiagnosticTier) (capability : TraceTierCapability)
    (memoryProfile : Option Arm64TraceMemoryProfile) : Prop where
  rank : tier.least.rank ≤ capability.rank
  memory : tier.needsMemory = true → memoryProfile.isSome = true

theorem Admitted.mono {tier : DiagnosticTier} {capability capability' : TraceTierCapability}
    {memoryProfile : Option Arm64TraceMemoryProfile}
    (admitted : tier.Admitted capability memoryProfile)
    (ranks : capability.rank ≤ capability'.rank) : tier.Admitted capability' memoryProfile where
  rank := admitted.rank.trans ranks
  memory := admitted.memory

end DiagnosticTier

section Tiers

variable {capability capability' : TraceTierCapability}
  {memoryProfile : Option Arm64TraceMemoryProfile}

theorem mapped_of_rank (top : TraceTierCapability.mapped.rank ≤ capability.rank) :
    capability = .mapped := by
  cases capability <;> first | rfl | exact absurd top (by decide)

/-- The `match` on a label finds the tiers that are admitted. It does not test for `ordinary`, which
has been turned away before. -/
theorem tierBudget_eq_some {name : String} {budget : Nat} (extended : capability ≠ .ordinary) :
    tierBudget capability memoryProfile name = some budget ↔
      ∃ tier : DiagnosticTier, tier.label = name ∧ tier.budget = budget ∧
        tier.Admitted capability memoryProfile := by
  constructor
  · intro found
    rw [tierBudget] at found
    split at found
    · next named =>
        refine ⟨.deep, named.symm, Option.some.inj found, ?_, fun needs => absurd needs (by decide)⟩
        cases capability <;> first | exact absurd rfl extended | decide
    split at found
    · next named =>
        refine ⟨.long, named.1.symm, Option.some.inj found, ?_,
          fun needs => absurd needs (by decide)⟩
        cases capability <;> first | exact absurd named.2 (by decide) | decide
    split at found
    · next named =>
        exact ⟨.transition, named.1.symm, Option.some.inj found, named.2.1 ▸ Nat.le_refl _,
          fun _ => named.2.2⟩
    split at found
    · next named =>
        exact ⟨.boundary, named.1.symm, Option.some.inj found, named.2.1 ▸ Nat.le_refl _,
          fun _ => named.2.2⟩
    split at found
    · next named =>
        exact ⟨.helperSpan, named.1.symm, Option.some.inj found, named.2.1 ▸ Nat.le_refl _,
          fun _ => named.2.2⟩
    split at found
    · next named =>
        refine ⟨.initialization, named.1.symm, Option.some.inj found, ?_,
          fun needs => absurd needs (by decide)⟩
        cases capability <;> first | exact absurd named.2 (by decide) | decide
    · cases found
  · rintro ⟨tier, rfl, rfl, rank, memory⟩
    cases tier with
    | deep => rfl
    | long => cases capability <;> first | rfl | exact absurd rank (by decide)
    | transition =>
        obtain rfl := mapped_of_rank rank
        simp [tierBudget, DiagnosticTier.label, DiagnosticTier.budget, memory rfl]
    | boundary =>
        obtain rfl := mapped_of_rank rank
        simp [tierBudget, DiagnosticTier.label, DiagnosticTier.budget, memory rfl]
    | helperSpan =>
        obtain rfl := mapped_of_rank rank
        simp [tierBudget, DiagnosticTier.label, DiagnosticTier.budget, memory rfl]
    | initialization => cases capability <;> first | rfl | exact absurd rank (by decide)

/-! ### What a capability reads -/

theorem below_memoryProfileValue (ranks : capability.rank ≤ capability'.rank)
    (value : Option Node) :
    Below (memoryProfileValue capability value) (memoryProfileValue capability' value) := by
  cases value with
  | none => exact .refl _
  | some node =>
      apply (below_rejectIf fun weak => ?_).bind fun _ _ => .refl _
      rintro rfl
      exact weak (mapped_of_rank ranks)

theorem below_selectedBudgetValue (ranks : capability.rank ≤ capability'.rank)
    (value : Option Node) :
    Below (selectedBudgetValue capability memoryProfile value)
      (selectedBudgetValue capability' memoryProfile value) := by
  cases value with
  | none => exact .refl _
  | some node =>
      have extends_ordinary : capability' = .ordinary → capability = .ordinary := by
        rintro rfl
        cases capability <;> first | rfl | exact absurd ranks (by decide)
      apply (below_rejectIf extends_ordinary).bind
      intro _ tested
      have extended : capability ≠ .ordinary := rejectIf_eq_ok.mp tested
      apply below_bind
      intro _ _
      apply below_bind
      intro name _
      refine (below_ofOption fun budget found => ?_).bind fun _ _ => .refl _
      obtain ⟨tier, labelled, budgeted, admitted⟩ := (tierBudget_eq_some extended).mp found
      exact (tierBudget_eq_some (extended ∘ extends_ordinary)).mpr
        ⟨tier, labelled, budgeted, admitted.mono ranks⟩

/-- A larger limit rejects less. -/
theorem below_checkTrace {limit limit' : Nat} {selectedBudget : Option Nat}
    {result : Arm64TraceConfiguration} (limits : limit ≤ limit') :
    Below (checkTrace limit selectedBudget result) (checkTrace limit' selectedBudget result) := by
  apply below_bind
  intro _ _
  apply below_bind
  intro stop _
  apply below_rejectIf
  rintro (rejected | rejected | rejected | above | rejected)
  · exact .inl rejected
  · exact .inr (.inl rejected)
  · exact .inr (.inr (.inl rejected))
  · refine .inr (.inr (.inr (.inl (Nat.lt_of_le_of_lt ?_ above))))
    split
    · exact limits
    · exact Nat.le_refl _
  · exact .inr (.inr (.inr (.inr rejected)))

theorem below_traceConfiguration {limit limit' : Nat} (limits : limit ≤ limit')
    (ranks : capability.rank ≤ capability'.rank) (trace : Node) :
    Below (traceConfiguration limit capability trace)
      (traceConfiguration limit' capability' trace) := by
  apply below_bind
  intro value _
  apply (below_memoryProfileValue ranks value).bind
  intro memoryProfile _
  apply below_bind
  intro value _
  apply (below_selectedBudgetValue ranks value).bind
  intro selectedBudget _
  apply below_bind
  intro abi _
  apply below_bind
  intro _ _
  apply below_bind
  intro result _
  have limits' : selectedBudget.getD limit ≤ selectedBudget.getD limit' := by
    cases selectedBudget with
    | none => exact limits
    | some budget => exact Nat.le_refl _
  exact (below_checkTrace limits').bind fun _ _ => .refl _

end Tiers

/-! ### The entry points -/

/-- The limit and the capability of each parser in the chain of the entry points, from the
weakest on. -/
def tracePolicies : List (Nat × TraceTierCapability) :=
  [(64, .ordinary), (256, .ordinary), (1024, .ordinary), (4096, .ordinary), (4096, .deep),
    (4096, .long), (4096, .initialization), (4096, .mapped)]

/-- Neither the limit nor the capability falls along the chain. -/
theorem pairwise_tracePolicies : tracePolicies.Pairwise fun policy policy' =>
    policy.1 ≤ policy'.1 ∧ policy.2.rank ≤ policy'.2.rank := by
  decide

section EntryPoints

variable [XmlParser]

/-- The policy is monotone in the limit and in the capability. -/
theorem below_policy {limit limit' : Nat} {capability capability' : TraceTierCapability}
    (limits : limit ≤ limit') (ranks : capability.rank ≤ capability'.rank) (input : Bytes) :
    Below (parseArm64TraceWithPolicy input limit capability)
      (parseArm64TraceWithPolicy input limit' capability') := by
  apply below_bind
  intro target _
  apply below_bind
  intro _ _
  apply below_bind
  intro document _
  apply below_bind
  intro trace _
  exact below_traceConfiguration limits ranks trace

theorem withLimit_eq {limit : Nat} (approved : limit ∈ [64, 256, 1024, 4096]) (input : Bytes) :
    parseArm64TraceConfigurationWithLimit input limit =
      parseArm64TraceWithPolicy input limit .ordinary := by
  rw [parseArm64TraceConfigurationWithLimit, rejectIf_of_not _ (not_not.mpr approved), bind_ok]

/-- The chain of the entry points. -/
def traceParsers : List (Bytes → Result Arm64TraceConfiguration) :=
  [fun input => parseArm64TraceConfigurationWithLimit input 64,
    fun input => parseArm64TraceConfigurationWithLimit input 256,
    fun input => parseArm64TraceConfigurationWithLimit input 1024,
    fun input => parseArm64TraceConfigurationWithLimit input 4096,
    parseArm64TraceConfigurationWithDeepTier,
    parseArm64TraceConfigurationWithLongTier,
    parseArm64TraceConfigurationWithInitializationTier,
    parseArm64TraceConfigurationWithMappedTier]

/-- A stronger parser returns whatever a weaker one does. -/
def Extends (weaker stronger : Bytes → Result Arm64TraceConfiguration) : Prop :=
  ∀ input configuration, weaker input = .ok configuration → stronger input = .ok configuration

theorem traceParsers_eq : traceParsers =
    tracePolicies.map fun policy input => parseArm64TraceWithPolicy input policy.1 policy.2 := by
  have limited : ∀ limit ∈ [64, 256, 1024, 4096],
      (fun input => parseArm64TraceConfigurationWithLimit input limit) =
        fun input => parseArm64TraceWithPolicy input limit .ordinary := by
    intro limit approved
    exact funext (withLimit_eq approved)
  rw [traceParsers, limited 64 (by decide), limited 256 (by decide), limited 1024 (by decide),
    limited 4096 (by decide)]
  rfl

/-- Each parser of the chain extends all of those before it. -/
theorem traceParsers_extend : traceParsers.Pairwise Extends := by
  rw [traceParsers_eq, List.pairwise_map]
  refine pairwise_tracePolicies.imp ?_
  intro policy policy' ordered input configuration done
  exact below_policy ordered.1 ordered.2 input configuration done

end EntryPoints

/-! ### A sample -/

/-- A key and a value that is a text. -/
structure SampleRow where
  key : String
  tag : String
  text : String

def SampleRow.nodes (row : SampleRow) : List Node :=
  [.element "key" none [] [.text row.key], .element row.tag none [] [.text row.text]]

def SampleRow.xml (row : SampleRow) : List Char :=
  ["<key>", row.key, "</key><", row.tag, ">", row.text, "</", row.tag, ">"].flatMap String.toList

def sampleKernel : List SampleRow :=
  [⟨"Profile", "string", "x86-efi-arm64-trace"⟩, ⟨"Path", "string", "/kernel.kc"⟩]

def sampleTrace : List SampleRow :=
  [⟨"HandoffAbi", "string", "unprovisioned-sptm-prefix"⟩,
    ⟨"PhysicalBase", "integer", "0x40000000"⟩, ⟨"VirtualBase", "integer", "0xfffffe0000000000"⟩,
    ⟨"MemorySize", "integer", "67108864"⟩, ⟨"ActualMemorySize", "integer", "67108864"⟩,
    ⟨"KernelPhysical", "integer", "0x42000000"⟩, ⟨"DeviceTreePath", "string", "/diagnostic.dt"⟩,
    ⟨"InstructionBudget", "integer", "16384"⟩,
    ⟨"PlatformProfile", "string", "nextcore-irq-compat-v1"⟩,
    ⟨"DiagnosticTier", "string", "deep-16384"⟩]

/-- Rows, and one more key with a dictionary. -/
def sampleDict (rows : List SampleRow) (below : List (String × Node)) : Node :=
  .element "dict" none [] (rows.flatMap SampleRow.nodes ++
    below.flatMap fun pair => [.element "key" none [] [.text pair.1], pair.2])

def sampleDocument : Document where
  before := []
  root := .element "plist" none [⟨"version", none, "1.0"⟩] [sampleDict [] [("Nextcore",
    sampleDict [] [("Kernel", sampleDict sampleKernel [("Trace", sampleDict sampleTrace [])])])]]
  behind := []
  root_element := rfl
  others := by
    intro node mem
    cases mem

def sampleChars : List Char :=
  ["<plist ", "version='1.0'>", "<dict><key>Nextcore</key>", "<dict><key>Kernel</key>",
      "<dict>"].flatMap String.toList ++
    sampleKernel.flatMap SampleRow.xml ++ "<key>Trace</key><dict>".toList ++
    sampleTrace.flatMap SampleRow.xml ++
    ["</dict></dict>", "</dict></dict>", "</plist>"].flatMap String.toList

def sampleInput : Bytes := sampleChars.flatMap String.utf8EncodeChar

/-- The parser on the sample, which has no blank texts between its tags. -/
abbrev sampleParser : XmlParser where
  parseWithOptions _ _ text :=
    if text = String.ofList sampleChars then .ok sampleDocument else .error .other

def sampleConfiguration : Arm64TraceConfiguration where
  physicalBase := 0x40000000
  virtualBase := 0xfffffe0000000000
  memorySize := 67108864
  actualMemorySize := 67108864
  kernelPhys := 0x42000000
  deviceTreePath := "\\diagnostic.dt"
  instructionBudget := 16384
  platform := some ⟨.nextcoreIrqCompatV1, 0, 0x3c5, 0, false, false⟩
  video := none
  memoryProfile := none

/-- The input is neither too large nor of another format, and its tags are in order. -/
theorem scan_sample : sampleInput.length ≤ maxInputBytes ∧
    ¬ ((asBytes "bplist").isPrefixOf sampleInput ∨ [0xff, 0xfe].isPrefixOf sampleInput ∨
      [0xfe, 0xff].isPrefixOf sampleInput) ∧
    ¬ (sampleInput.count 0x3c > maxXmlNodes * 2 ∨ sampleInput.count 0x3d > maxXmlNodes) ∧
    scanFrom 0 sampleChars = .ok () := by
  decide +kernel

theorem parseDocument_sample : @parseDocument sampleParser sampleInput = .ok sampleDocument := by
  have encoded : asBytes (String.ofList sampleChars) = sampleInput := asBytes_ofList sampleChars
  have text : fromUtf8 sampleInput = some (String.ofList sampleChars) :=
    fromUtf8_eq_some.mpr encoded
  obtain ⟨small, xml, few, scanned⟩ := scan_sample
  have parsed : @xmlDocument sampleParser (String.ofList sampleChars) = .ok sampleDocument :=
    @xmlDocument_of_ok sampleParser _ _ (if_pos rfl)
  have valid : validateStructure sampleDocument = .ok () := by decide +kernel
  unfold parseDocument
  rw [rejectIf_of_not _ (Nat.not_lt.mpr small), bind_ok, rejectIf_of_not _ xml, bind_ok, text,
    ofOption_some, bind_ok, encoded, rejectIf_of_not _ few, bind_ok, scanXmlBounds,
    String.toList_ofList, scanned, bind_ok, parsed, bind_ok, valid, bind_ok, pure_eq]

theorem traceConfiguration_sample :
    traceConfiguration 4096 .deep (sampleDict sampleTrace []) = .ok sampleConfiguration := by
  decide +kernel

theorem parse_sample : @parseArm64TraceConfigurationWithDeepTier sampleParser sampleInput =
    .ok sampleConfiguration := by
  have target : @parseArm64KernelTarget sampleParser sampleInput =
      .ok ⟨"\\kernel.kc", "", .x86EfiArm64Trace⟩ := by
    unfold parseArm64KernelTarget parseNamedKernelTarget
    rw [parseDocument_sample, bind_ok]
    decide +kernel
  have trace : traceOf sampleDocument = .ok (sampleDict sampleTrace []) := rfl
  unfold parseArm64TraceConfigurationWithDeepTier parseArm64TraceWithPolicy
  rw [target, bind_ok, rejectIf_of_not _ (by decide), bind_ok, parseDocument_sample, bind_ok, trace,
    bind_ok, traceConfiguration_sample]

/-- The parsers behind the deep tier read the sample as that one does. -/
theorem traceParsers_extend_sample :
    @parseArm64TraceConfigurationWithMappedTier sampleParser sampleInput =
      .ok sampleConfiguration := by
  have chain := List.pairwise_iff_getElem.mp (@traceParsers_extend sampleParser)
  have extended : Extends (@parseArm64TraceConfigurationWithDeepTier sampleParser)
      (@parseArm64TraceConfigurationWithMappedTier sampleParser) :=
    chain 4 7 (by decide) (by decide) (by decide)
  exact extended sampleInput sampleConfiguration parse_sample

end Nextcore.BootConfig
