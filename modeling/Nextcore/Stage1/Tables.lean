import Nextcore.Lib.Bytes

/-!
The stage-1 translation tables (`arm64_stage1_tables.rs`).

The tables are one byte string, a multiple of 16 KiB long: the first two pages are the
root tables of the low and of the high half of the address space, and every further page is
a table that `mapPage` made on its way down to a leaf. A table is meant by its offset in the
byte string, and a slot holds the guest address of the next table or of a page. `walk` is
the hardware's reading of the same bytes.
-/

namespace Nextcore.Stage1

open Checked Checked.Outcome

def pageSize : Nat := 16 * 1024
def maxMemorySize : Nat := 1024 * 1024 * 1024
def maxTableBytes : Nat := 2 * 1024 * 1024
def maxAliasBytes : Nat := 128 * 1024 * 1024
def lowEnd : Nat := 2 ^ 47
def highStart : Nat := 0xffff800000000000
def paEnd : Nat := 2 ^ 48
def addressMask : Nat := 0x0000ffffffffc000

inductive Error where
  | invalidRange
  | alignment
  | addressOverflow
  | tableCapacity
  | unmappedAddress
  | overlappingRange
  deriving DecidableEq, Repr

structure Stage1Alias where
  virtualBase : Nat
  physicalBase : Nat
  bytes : Nat
  deriving DecidableEq, Repr

structure Arm64Stage1Tables where
  bytes : Bytes
  tableBase : Nat
  ramBase : Nat
  virtualBase : Nat
  memorySize : Nat
  deriving DecidableEq, Repr

/-- `(0..stop).step_by(step)`. -/
def stepBy (stop step : Nat) : List Nat := (List.range (divCeil stop step)).map (· * step)

def rangesOverlap (aStart aEnd bStart bEnd : Nat) : Prop := aStart < bEnd ∧ bStart < aEnd

instance (aStart aEnd bStart bEnd : Nat) : Decidable (rangesOverlap aStart aEnd bStart bEnd) :=
  inferInstanceAs (Decidable (_ ∧ _))

namespace Arm64Stage1Tables

def ttbr0 (t : Arm64Stage1Tables) : Nat := t.tableBase

def ttbr1 (t : Arm64Stage1Tables) : Nat := t.tableBase + pageSize

def virtualAddress (t : Arm64Stage1Tables) (pa : Nat) : Outcome Error Nat := do
  let offset ← ofOption .unmappedAddress (checkedSub pa t.ramBase)
  rejectIf (t.memorySize ≤ offset) .unmappedAddress
  ofOption .addressOverflow (checkedAdd t.virtualBase offset)

/-- A zeroed page behind the others. The result is its offset. -/
def allocateTable (t : Arm64Stage1Tables) : Outcome Error (Nat × Arm64Stage1Tables) := do
  let start := t.bytes.length
  let stop ← ofOption .tableCapacity (checkedAdd start pageSize)
  rejectIf (maxTableBytes < stop) .tableCapacity
  rejectIf ((checkedAdd t.tableBase stop).all fun address => paEnd < address) .addressOverflow
  pure (start, { t with bytes := resize t.bytes stop })

/-- The offset of the slot that an address selects in a table. -/
def slotOf (table va shift : Nat) : Outcome Error Nat := do
  let displacement ← mul ((va >>> shift) &&& 0x7ff) 8
  add table displacement

/-- One turn of the loop over the upper levels: the table that the slot leads to, made if the
slot is zero. -/
def descend (va : Nat) (reached : Nat × Arm64Stage1Tables) (shift : Nat) :
    Outcome Error (Nat × Arm64Stage1Tables) := do
  let (table, t) := reached
  let slot ← slotOf table va shift
  let stop ← add slot 8
  let descriptor ← index t.bytes slot stop
  if fromLeBytes descriptor = 0 then
    let (next, t) ← allocateTable t
    let address ← add t.tableBase next
    let bytes ← copyFrom t.bytes slot stop (toLeBytes 8 (address ||| 3))
    pure (next, { t with bytes })
  else
    let table ← sub (fromLeBytes descriptor &&& addressMask) t.tableBase
    pure (table, t)

def mapPage (t : Arm64Stage1Tables) (root va pa : Nat) : Outcome Error Arm64Stage1Tables := do
  let (table, t) ← [36, 25].foldlM (descend va) (root, t)
  let slot ← slotOf table va 14
  let stop ← add slot 8
  let leaf ← index t.bytes slot stop
  rejectIf (leaf.any (· != 0)) .overlappingRange
  let bytes ← copyFrom t.bytes slot stop (toLeBytes 8 (pa ||| 0x403))
  pure { t with bytes }

/-- The body of the loop of `new`: one page of RAM, at both of its addresses. -/
def mapBoth (physicalBase virtualBase : Nat) (t : Arm64Stage1Tables) (offset : Nat) :
    Outcome Error Arm64Stage1Tables := do
  let pa ← add physicalBase offset
  let t ← mapPage t 0 pa pa
  let va ← add virtualBase offset
  mapPage t pageSize va pa

def new (physicalBase virtualBase memorySize : Nat) : Outcome Error Arm64Stage1Tables := do
  rejectIf ((physicalBase ||| virtualBase ||| memorySize) &&& (pageSize - 1) ≠ 0) .alignment
  rejectIf (memorySize = 0 ∨ maxMemorySize < memorySize) .invalidRange
  let tableBase ← ofOption .addressOverflow (checkedAdd physicalBase memorySize)
  let _ ← ofOption .addressOverflow (checkedAdd virtualBase memorySize)
  rejectIf (lowEnd < tableBase ∨ virtualBase < highStart) .invalidRange
  let (_, t) ← allocateTable
    { bytes := [], tableBase, ramBase := physicalBase, virtualBase, memorySize }
  let (_, t) ← allocateTable t
  (stepBy memorySize pageSize).foldlM (mapBoth physicalBase virtualBase) t

/-- Whether an alias runs into an earlier one. -/
def overlapsEarlier (a : Stage1Alias) (aliasEnd : Nat) (other : Stage1Alias) :
    Outcome Error Bool := do
  let otherEnd ← add other.virtualBase other.bytes
  pure (decide (rangesOverlap a.virtualBase aliasEnd other.virtualBase otherEnd))

/-- Whether an alias runs into the linear map or into an earlier alias. -/
def overlapsAny (virtualBase linearEnd : Nat) (earlier : List Stage1Alias) (a : Stage1Alias)
    (aliasEnd : Nat) : Outcome Error Bool :=
  if rangesOverlap a.virtualBase aliasEnd virtualBase linearEnd then .ok true
  else anyM (overlapsEarlier a aliasEnd) earlier

def checkAlias (physicalBase physicalEnd virtualBase linearEnd : Nat) (earlier : List Stage1Alias)
    (a : Stage1Alias) : Outcome Error Unit := do
  rejectIf ((a.virtualBase ||| a.physicalBase ||| a.bytes) &&& (pageSize - 1) ≠ 0)
    .alignment
  rejectIf (a.bytes = 0 ∨ maxAliasBytes < a.bytes ∨ a.virtualBase < highStart)
    .invalidRange
  let aliasEnd ← ofOption .addressOverflow (checkedAdd a.virtualBase a.bytes)
  let aliasPhysicalEnd ← ofOption .addressOverflow (checkedAdd a.physicalBase a.bytes)
  rejectIf (a.physicalBase < physicalBase ∨ physicalEnd < aliasPhysicalEnd) .invalidRange
  let overlaps ← overlapsAny virtualBase linearEnd earlier a aliasEnd
  rejectIf (overlaps = true) .overlappingRange

/-- The loop over the aliases, with those before the next one. -/
def checkAliases (physicalBase physicalEnd virtualBase linearEnd : Nat) :
    List Stage1Alias → List Stage1Alias → Outcome Error Unit
  | _, [] => .ok ()
  | earlier, a :: rest => do
    checkAlias physicalBase physicalEnd virtualBase linearEnd earlier a
    checkAliases physicalBase physicalEnd virtualBase linearEnd (earlier ++ [a]) rest

/-- The body of the loop over the pages of an alias. -/
def mapAliasPage (a : Stage1Alias) (t : Arm64Stage1Tables) (offset : Nat) :
    Outcome Error Arm64Stage1Tables := do
  let va ← add a.virtualBase offset
  let pa ← add a.physicalBase offset
  mapPage t pageSize va pa

def mapAlias (t : Arm64Stage1Tables) (a : Stage1Alias) : Outcome Error Arm64Stage1Tables :=
  (stepBy a.bytes pageSize).foldlM (mapAliasPage a) t

def newWithAliases (physicalBase virtualBase memorySize : Nat) (aliases : List Stage1Alias) :
    Outcome Error Arm64Stage1Tables := do
  rejectIf (2 < aliases.length) .invalidRange
  let physicalEnd ← ofOption .addressOverflow (checkedAdd physicalBase memorySize)
  let linearEnd ← ofOption .addressOverflow (checkedAdd virtualBase memorySize)
  checkAliases physicalBase physicalEnd virtualBase linearEnd [] aliases
  let t ← new physicalBase virtualBase memorySize
  aliases.foldlM mapAlias t

/-! ### The walk

The reading of the bytes by the hardware, as the test's independent descriptor reader has
it. -/

/-- The descriptor in one slot of the table at a guest address, if that is owned. -/
def descriptorAt (t : Arm64Stage1Tables) (base i : Nat) : Option Nat := do
  let table ← checkedSub base t.tableBase
  let bytes ← getRange t.bytes (table + i * 8) (table + i * 8 + 8)
  pure (fromLeBytes bytes)

/-- The page that an address leads to, from the table at `base` down the given levels. -/
def walkFrom (t : Arm64Stage1Tables) (va base : Nat) : List Nat → Option Nat
  | [] => none
  | shift :: rest => do
    let descriptor ← t.descriptorAt base ((va >>> shift) % 2048)
    if descriptor &&& 3 ≠ 3 then none
    else match rest with
      | [] => some ((descriptor &&& addressMask) + va % 16384)
      | _ :: _ => t.walkFrom va (descriptor &&& addressMask) rest

/-- Where a virtual address leads: the low half starts at `ttbr0`, the high half at `ttbr1`,
and other addresses lead nowhere. -/
def walk (t : Arm64Stage1Tables) (va : Nat) : Option Nat :=
  if va >>> 47 = 0 then t.walkFrom va t.ttbr0 [36, 25, 14]
  else if va >>> 47 = 0x1ffff then t.walkFrom va t.ttbr1 [36, 25, 14]
  else none

end Arm64Stage1Tables

end Nextcore.Stage1
