import Nextcore.BootConfig.Input

/-!
The kernel target and the trace configuration (`src/boot_config.rs`).

`parseArm64TraceWithPolicy` reads both from the bytes of a configuration. What a trace may ask for
depends on the limit and on the capability of the entry point that is called. A `u64` is a natural
number, and a sum that leaves the word is a panic.
-/

namespace Nextcore.BootConfig

open Checked Checked.Outcome

/-! ### The kernel target -/

inductive KernelProfile where
  | xnu12377Pstart32
  | xnuArm64Uefi
  | qemuVirtArm64Probe
  | x86EfiArm64JitProbe
  | x86EfiArm64Trace
  deriving DecidableEq, Repr

structure KernelTarget where
  path : String
  arguments : String
  profile : KernelProfile
  deriving DecidableEq, Repr

/-- The `match` on the name of the profile. -/
def kernelProfile (arm : Bool) (name : String) : Option KernelProfile :=
  if arm = false ∧ name = "xnu-12377-pstart32" then some .xnu12377Pstart32
  else if arm = true ∧ name = "xnu-arm64-uefi" then some .xnuArm64Uefi
  else if arm = true ∧ name = "qemu-virt-arm64-probe" then some .qemuVirtArm64Probe
  else if arm = true ∧ name = "x86-efi-arm64-jit-probe" then some .x86EfiArm64JitProbe
  else if arm = true ∧ name = "x86-efi-arm64-trace" then some .x86EfiArm64Trace
  else none

/-- A value that has to be there. -/
def requiredValue (dict : Node) (wanted : String) (e : BootConfigError) : Result Node := do
  let value ← dictionaryValue dict wanted
  ofOption e value

/-- A string that has to be there. -/
def requiredString (dict : Node) (wanted : String) (e : BootConfigError) : Result String := do
  let value ← requiredValue dict wanted e
  requireTag value "string"
  scalarText value

/-- The optional arguments of a kernel. -/
def kernelArguments : Option Node → Result String
  | none => pure ""
  | some value => do
    requireTag value "string"
    scalarText value

section Kernel

variable [XmlParser]

def parseNamedKernelTarget (input : Bytes) (arm : Bool) : Result KernelTarget := do
  let document ← parseDocument input
  let dictionary ← topDictionary document
  let nextcore ← requiredValue dictionary "Nextcore" .missingKernelTarget
  requireTag nextcore "dict"
  let kernel ← requiredValue nextcore "Kernel" .missingKernelTarget
  requireTag kernel "dict"
  let name ← requiredString kernel "Profile" .unsupportedKernelProfile
  let profile ← ofOption .unsupportedKernelProfile (kernelProfile arm name)
  let text ← requiredString kernel "Path" .missingPath
  let path ← normalizeAbsolutePath text
  let value ← dictionaryValue kernel "Arguments"
  let arguments ← kernelArguments value
  rejectIf ((asBytes arguments).any fun byte => ¬ (0x20 ≤ byte ∧ byte ≤ 0x7e)) .invalidArguments
  rejectIf ((asBytes arguments).length > 1023) .argumentsTooLong
  pure ⟨path, arguments, profile⟩

def parseKernelTarget (input : Bytes) : Result KernelTarget := parseNamedKernelTarget input false

def parseArm64KernelTarget (input : Bytes) : Result KernelTarget :=
  parseNamedKernelTarget input true

end Kernel

/-! ### Numbers -/

/-- `char::to_digit`. -/
def toDigit (radix : Nat) (c : Char) : Option Nat :=
  let value :=
    if '0' ≤ c ∧ c ≤ '9' then c.toNat - '0'.toNat
    else if 'a' ≤ c ∧ c ≤ 'z' then c.toNat - 'a'.toNat + 10
    else if 'A' ≤ c ∧ c ≤ 'Z' then c.toNat - 'A'.toNat + 10
    else radix
  if value < radix then some value else none

/-- One digit more. -/
def pushDigit (radix : Nat) (value : Nat) (c : Char) : Option Nat := do
  let digit ← toDigit radix c
  let shifted ← checkedMul value radix
  checkedAdd shifted digit

/-- `u64::from_str_radix`: there may be a plus sign, and there has to be a digit. -/
def fromStrRadix (radix : Nat) (text : List Char) : Option Nat :=
  let digits := if text.head? = some '+' then text.tail else text
  if digits = [] then none else digits.foldlM (pushDigit radix) 0

/-- The `number` closures: hexadecimal behind `0x`, else decimal. -/
def parseNumber (text : String) : Option Nat :=
  let text := (trim text).toList
  if "0x".toList.isPrefixOf text then fromStrRadix 16 (text.drop 2) else fromStrRadix 10 text

/-- The value of an integer. -/
def integerValue (e : BootConfigError) (node : Node) : Result Nat := do
  requireTag node "integer"
  let text ← scalarText node
  ofOption e (parseNumber text)

/-! ### The platform -/

inductive Arm64PlatformProfile where
  | nextcoreIrqCompatV1
  deriving DecidableEq, Repr

structure Arm64PlatformConfiguration where
  profile : Arm64PlatformProfile
  initialOverride : Nat
  initialPstate : Nat
  vectorBase : Nat
  irqLevel : Bool
  fiqLevel : Bool
  deriving DecidableEq, Repr

/-- The keys that the options of a platform may have. -/
def platformKeys : List String :=
  ["InitialOverride", "InitialPstate", "VectorBase", "IrqLevel", "FiqLevel"]

/-- The check of the optional options. -/
def checkPlatformOptions : Option Node → Result Unit
  | none => pure ()
  | some options => do
    requireTag options "dict"
    forEach (fun key => do
      let text ← scalarText key
      rejectIf (text ∉ platformKeys) .invalidPlatformConfiguration)
      (options.children.filter fun node => node.hasTagName "key")

/-- A number of the options, or its default. -/
def platformNumber (options : Option Node) (name : String) (default : Nat) : Result Nat :=
  match options with
  | none => pure default
  | some options => do
    let value ← dictionaryValue options name
    match value with
    | none => pure default
    | some node => integerValue .invalidPlatformConfiguration node

/-- A platform whose profile is named. -/
def platformOf (profile : Node) (options : Option Node) :
    Result (Option Arm64PlatformConfiguration) := do
  requireTag profile "string"
  let name ← scalarText profile
  rejectIf (name ≠ "nextcore-irq-compat-v1") .invalidPlatformConfiguration
  checkPlatformOptions options
  let initialOverride ← platformNumber options "InitialOverride" 0
  let initialPstate ← platformNumber options "InitialPstate" 0x3c5
  let vectorBase ← platformNumber options "VectorBase" 0
  let irqLevel ← platformNumber options "IrqLevel" 0
  let fiqLevel ← platformNumber options "FiqLevel" 0
  rejectIf (andNot initialOverride 0x00f00000 ≠ 0 ∨
    (initialOverride >>> 20) &&& 3 ∉ [0, 2] ∨
    (initialOverride >>> 22) &&& 3 ∉ [0, 2] ∨
    andNot initialPstate 0xf00003cf ≠ 0 ∨
    initialPstate &&& 15 ∉ [4, 5] ∨
    vectorBase &&& 2047 ≠ 0 ∨
    irqLevel > 1 ∨
    fiqLevel > 1) .invalidPlatformConfiguration
  pure (some ⟨.nextcoreIrqCompatV1, initialOverride, initialPstate, vectorBase, irqLevel ≠ 0,
    fiqLevel ≠ 0⟩)

def parseArm64PlatformConfiguration (trace : Node) :
    Result (Option Arm64PlatformConfiguration) := do
  let profile ← dictionaryValue trace "PlatformProfile"
  let options ← dictionaryValue trace "Platform"
  match profile with
  | none => do
    rejectIf options.isSome .invalidPlatformConfiguration
    pure none
  | some profile => platformOf profile options

/-! ### The trace -/

inductive Arm64TraceVideo where
  | gopFramebuffer
  deriving DecidableEq, Repr

inductive Arm64TraceMemoryProfile where
  | mappedNormalNcV1
  deriving DecidableEq, Repr

structure Arm64TraceConfiguration where
  physicalBase : Nat
  virtualBase : Nat
  memorySize : Nat
  actualMemorySize : Nat
  kernelPhys : Nat
  deviceTreePath : String
  instructionBudget : Nat
  platform : Option Arm64PlatformConfiguration
  video : Option Arm64TraceVideo
  memoryProfile : Option Arm64TraceMemoryProfile
  deriving DecidableEq, Repr

inductive TraceTierCapability where
  | ordinary
  | deep
  | long
  | initialization
  | mapped
  deriving DecidableEq, Repr

/-- The `match` on the optional memory profile. -/
def memoryProfileValue (capability : TraceTierCapability) :
    Option Node → Result (Option Arm64TraceMemoryProfile)
  | none => pure none
  | some node => do
    rejectIf (capability ≠ .mapped) .invalidTraceConfiguration
    requireTag node "string"
    let text ← scalarText node
    rejectIf (text ≠ "mapped-normal-nc-v1") .invalidTraceConfiguration
    pure (some .mappedNormalNcV1)

/-- The `match` on the name of a tier. -/
def tierBudget (capability : TraceTierCapability)
    (memoryProfile : Option Arm64TraceMemoryProfile) (tier : String) : Option Nat :=
  if tier = "deep-16384" then some 16384
  else if tier = "long-65536" ∧ capability ∈ [.long, .initialization, .mapped] then some 65536
  else if tier = "transition-1048576" ∧ capability = .mapped ∧ memoryProfile.isSome then
    some 1048576
  else if tier = "boundary-1114112" ∧ capability = .mapped ∧ memoryProfile.isSome then
    some 1114112
  else if tier = "helper-span-44040192" ∧ capability = .mapped ∧ memoryProfile.isSome then
    some 44040192
  else if tier = "initialization-67108864" ∧ capability ∈ [.initialization, .mapped] then
    some 67108864
  else none

/-- The budget that the optional tier selects. -/
def selectedBudgetValue (capability : TraceTierCapability)
    (memoryProfile : Option Arm64TraceMemoryProfile) : Option Node → Result (Option Nat)
  | none => pure none
  | some tier => do
    rejectIf (capability = .ordinary) .invalidTraceConfiguration
    requireTag tier "string"
    let text ← scalarText tier
    let budget ← ofOption .invalidTraceConfiguration (tierBudget capability memoryProfile text)
    pure (some budget)

/-- A number of the trace. -/
def traceNumber (trace : Node) (name : String) : Result Nat := do
  let node ← requiredValue trace name .invalidTraceConfiguration
  integerValue .invalidTraceConfiguration node

/-- The `match` on the optional video. -/
def videoValue : Option Node → Result (Option Arm64TraceVideo)
  | none => pure none
  | some node => do
    requireTag node "string"
    let text ← scalarText node
    rejectIf (text ≠ "gop-framebuffer") .invalidTraceConfiguration
    pure (some .gopFramebuffer)

/-- The fields of the configuration, in the order in which they are read. -/
def traceFields (trace : Node) (memoryProfile : Option Arm64TraceMemoryProfile) :
    Result Arm64TraceConfiguration := do
  let path ← requiredValue trace "DeviceTreePath" .invalidTraceConfiguration
  requireTag path "string"
  let physicalBase ← traceNumber trace "PhysicalBase"
  let virtualBase ← traceNumber trace "VirtualBase"
  let memorySize ← traceNumber trace "MemorySize"
  let actualMemorySize ← traceNumber trace "ActualMemorySize"
  let kernelPhys ← traceNumber trace "KernelPhysical"
  let text ← scalarText path
  let deviceTreePath ← normalizeAbsolutePath text
  let instructionBudget ← traceNumber trace "InstructionBudget"
  let platform ← parseArm64PlatformConfiguration trace
  let value ← dictionaryValue trace "Video"
  let video ← videoValue value
  pure ⟨physicalBase, virtualBase, memorySize, actualMemorySize, kernelPhys, deviceTreePath,
    instructionBudget, platform, video, memoryProfile⟩

/-- The large condition. Its terms are evaluated up to the first one that holds: the sum is taken
behind the terms that guard it. -/
def checkTrace (maximumBudget : Nat) (selectedBudget : Option Nat)
    (result : Arm64TraceConfiguration) : Result Unit := do
  rejectIf (result.memorySize < 16 * 1024 * 1024 ∨
    (result.memoryProfile.isSome ∧ result.platform.isNone) ∨
    result.memorySize > 1024 * 1024 * 1024 ∨
    result.memorySize % 16384 ≠ 0 ∨
    result.physicalBase % 16384 ≠ 0 ∨
    result.kernelPhys % 16384 ≠ 0 ∨
    result.virtualBase % 16384 ≠ 0 ∨
    result.actualMemorySize < result.memorySize ∨
    result.actualMemorySize % 16384 ≠ 0 ∨
    (checkedAdd result.physicalBase result.memorySize).isNone ∨
    (checkedAdd result.virtualBase result.memorySize).isNone ∨
    result.kernelPhys < result.physicalBase) .invalidTraceConfiguration
  let stop ← add result.physicalBase result.memorySize
  rejectIf (result.kernelPhys ≥ stop ∨
    result.instructionBudget = 0 ∨
    (selectedBudget.any fun budget => result.instructionBudget ≠ budget ∨ result.platform.isNone) ∨
    result.instructionBudget > (if result.platform.isSome then maximumBudget else 8) ∨
    (result.instructionBudget > 64 ∧ result.instructionBudget ∉ [256, 1024, 4096] ∧
      selectedBudget ≠ some result.instructionBudget)) .invalidTraceConfiguration

/-- Whether the vectors of a platform leave the window. -/
def vectorsEscape (result : Arm64TraceConfiguration) (platform : Arm64PlatformConfiguration) :
    Result Bool :=
  if platform.vectorBase = 0 then pure false
  else if platform.vectorBase < result.physicalBase then pure true
  else
    match checkedAdd platform.vectorBase 2048 with
    | none => pure true
    | some stop => do
      let limit ← add result.physicalBase result.memorySize
      pure (decide (stop > limit))

/-- The check of the optional platform. -/
def checkVectors (result : Arm64TraceConfiguration) : Result Unit :=
  match result.platform with
  | none => pure ()
  | some platform => do
    let escape ← vectorsEscape result platform
    rejectIf escape .invalidPlatformConfiguration

/-- What is read of a trace, with its checks. -/
def traceConfiguration (maximumBudget : Nat) (capability : TraceTierCapability) (trace : Node) :
    Result Arm64TraceConfiguration := do
  let value ← dictionaryValue trace "MemoryProfile"
  let memoryProfile ← memoryProfileValue capability value
  let value ← dictionaryValue trace "DiagnosticTier"
  let selectedBudget ← selectedBudgetValue capability memoryProfile value
  let maximumBudget := selectedBudget.getD maximumBudget
  let abi ← requiredString trace "HandoffAbi" .invalidTraceConfiguration
  rejectIf (abi ≠ "unprovisioned-sptm-prefix") .invalidTraceConfiguration
  let result ← traceFields trace memoryProfile
  checkTrace maximumBudget selectedBudget result
  checkVectors result
  pure result

section Parsers

variable [XmlParser]

/-- The trace of a document. -/
def traceOf (document : Document) : Result Node := do
  let root ← topDictionary document
  let nextcore ← requiredValue root "Nextcore" .missingKernelTarget
  let kernel ← requiredValue nextcore "Kernel" .missingKernelTarget
  let trace ← requiredValue kernel "Trace" .invalidTraceConfiguration
  requireTag trace "dict"
  pure trace

def parseArm64TraceWithPolicy (input : Bytes) (maximumBudget : Nat)
    (capability : TraceTierCapability) : Result Arm64TraceConfiguration := do
  let target ← parseArm64KernelTarget input
  rejectIf (target.profile ≠ .x86EfiArm64Trace) .unsupportedKernelProfile
  let document ← parseDocument input
  let trace ← traceOf document
  traceConfiguration maximumBudget capability trace

def parseArm64TraceConfigurationWithLimit (input : Bytes) (maximumBudget : Nat) :
    Result Arm64TraceConfiguration := do
  rejectIf (maximumBudget ∉ [64, 256, 1024, 4096]) .invalidTraceConfiguration
  parseArm64TraceWithPolicy input maximumBudget .ordinary

def parseArm64TraceConfiguration (input : Bytes) : Result Arm64TraceConfiguration :=
  parseArm64TraceConfigurationWithLimit input 64

def parseArm64TraceConfigurationWithDeepTier (input : Bytes) : Result Arm64TraceConfiguration :=
  parseArm64TraceWithPolicy input 4096 .deep

def parseArm64TraceConfigurationWithLongTier (input : Bytes) : Result Arm64TraceConfiguration :=
  parseArm64TraceWithPolicy input 4096 .long

def parseArm64TraceConfigurationWithInitializationTier (input : Bytes) :
    Result Arm64TraceConfiguration :=
  parseArm64TraceWithPolicy input 4096 .initialization

def parseArm64TraceConfigurationWithMappedTier (input : Bytes) : Result Arm64TraceConfiguration :=
  parseArm64TraceWithPolicy input 4096 .mapped

end Parsers

end Nextcore.BootConfig
