import Nextcore.BootArgs.Encode
import Nextcore.FlatDt.Accepted

/-!
The second reading of the device tree.

The reading of the memory follows the tree that the validator has found in the bytes
(`readDramNode_eq`): a node adds what its properties describe (`describedAt`), which is nothing but
for a child of the root that is called `chosen`. The names of a node's properties are distinct, so
that it does not matter where among them its name stands (`nextDram_foldl`).
-/

namespace Nextcore.BootArgs

open Checked Checked.Outcome
open FlatDt (WireProperty WireNode PropertyFramed NodeFramed serializeAll)

/-! ### Properties -/

/-- The value of the property with a name. -/
def valueOf (name : Bytes) (properties : List WireProperty) : Option Bytes :=
  (properties.find? (·.name = name)).map (·.value)

theorem valueOf_cons_of_eq {name : Bytes} {p : WireProperty} (called : p.name = name)
    (rest : List WireProperty) : valueOf name (p :: rest) = some p.value := by
  rw [valueOf, List.find?_cons_of_pos (by simpa using called), Option.map_some]

theorem valueOf_cons_of_ne {name : Bytes} {p : WireProperty} (other : p.name ≠ name)
    (rest : List WireProperty) : valueOf name (p :: rest) = valueOf name rest := by
  rw [valueOf, valueOf, List.find?_cons_of_neg (by simpa using other)]

theorem valueOf_eq_none {name : Bytes} {properties : List WireProperty}
    (absent : name ∉ properties.map (·.name)) : valueOf name properties = none := by
  rw [valueOf, Option.map_eq_none_iff, List.find?_eq_none]
  intro p mem called
  exact absent (of_decide_eq_true called ▸ List.mem_map_of_mem mem)

/-- With distinct names, a property is the one with its name. -/
theorem valueOf_eq_some_iff {name value : Bytes} {properties : List WireProperty}
    (distinct : (properties.map (·.name)).Nodup) :
    valueOf name properties = some value ↔ ⟨name, value⟩ ∈ properties := by
  induction properties with
  | nil => simp [valueOf]
  | cons p rest ih =>
      rw [List.map_cons, List.nodup_cons] at distinct
      obtain ⟨new, distinct⟩ := distinct
      by_cases same : p.name = name
      · rw [valueOf_cons_of_eq same, List.mem_cons, Option.some_inj]
        constructor
        · rintro rfl
          left
          rw [← same]
        · rintro (here | later)
          · rw [← here]
          · exact absurd (same ▸ List.mem_map_of_mem later) new
      · have other : (⟨name, value⟩ : WireProperty) ≠ p := fun here => same (here ▸ rfl)
        rw [valueOf_cons_of_ne same, ih distinct, List.mem_cons]
        exact (or_iff_right other).symm

/-- A loop that keeps something of each property with the name ends with that of the one there
is. -/
theorem get_foldl {σ β : Type} {name : Bytes} {step : σ → WireProperty → σ} {get : σ → β}
    {read : Bytes → β}
    (follows : ∀ s p, get (step s p) = if p.name = name then read p.value else get s)
    {properties : List WireProperty} (distinct : (properties.map (·.name)).Nodup) (s : σ) :
    get (properties.foldl step s) = ((valueOf name properties).map read).getD (get s) := by
  induction properties generalizing s with
  | nil => rfl
  | cons p rest ih =>
      rw [List.map_cons, List.nodup_cons] at distinct
      obtain ⟨new, distinct⟩ := distinct
      rw [List.foldl_cons, ih distinct, follows]
      by_cases called : p.name = name
      · rw [if_pos called, valueOf_cons_of_eq called, valueOf_eq_none (called ▸ new)]
        rfl
      · rw [if_neg called, valueOf_cons_of_ne called]

/-! ### The scan of a node -/

/-- The scan behind a property. -/
def DramScan.behind (depth : Nat) (scan : DramScan) (p : WireProperty) : DramScan :=
  { scan with cursor := scan.cursor + p.serialize.length }.property depth p.name p.value

/-- The scan with the cursor of another. -/
theorem cursor_property (scan : DramScan) (depth : Nat) (name value : Bytes) :
    (scan.property depth name value).cursor = scan.cursor := by
  unfold DramScan.property
  split_ifs <;> rfl

theorem cursor_foldl_behind (depth : Nat) (properties : List WireProperty) (scan : DramScan) :
    (properties.foldl (DramScan.behind depth) scan).cursor =
      scan.cursor + (properties.flatMap WireProperty.serialize).length := by
  induction properties generalizing scan with
  | nil => rfl
  | cons p rest ih =>
      rw [List.foldl_cons, ih, DramScan.behind, cursor_property, List.flatMap_cons,
        List.length_append, Nat.add_assoc]

section Scan

variable {bytes : Bytes} (word : bytes.length < 2 ^ 64) {depth : Nat}
include word

theorem readDramProperty_of_holds {scan : DramScan} {p : WireProperty} (framed : PropertyFramed p)
    (holds : Holds bytes scan.cursor p.serialize) :
    readDramProperty bytes depth scan = .ok (scan.behind depth p) := by
  obtain ⟨⟨nonzero, short⟩, small⟩ := framed
  have sized := length_padded (Nat.le_of_lt short)
  obtain ⟨name_holds, size_holds, value_holds, padding_holds⟩ :=
    (FlatDt.holds_serializeProperty (Nat.le_of_lt short)).mp holds
  have name_read : (index (padded 32 p.name) 0 p.name.length : Result Bytes) = .ok p.name := by
    rw [index_of_le (Nat.zero_le _) (by omega), Nat.sub_zero, window, List.drop_zero, padded,
      List.take_left]
  have aligned := FlatDt.length_alignment p.value.length
  have length := FlatDt.length_serializeProperty (Nat.le_of_lt short)
  simp only [readDramProperty, takeBytes, readU32]
  rw [(take_eq_ok word).mpr ⟨name_holds, sized, rfl⟩, bind_ok]
  dsimp only
  rw [findIdx?_padded nonzero short, Option.getD_some, name_read, bind_ok,
    (takeWord_eq_ok word).mpr ⟨size_holds, small, rfl⟩, bind_ok]
  dsimp only
  rw [(take_eq_ok word).mpr ⟨value_holds, rfl, rfl⟩, bind_ok]
  dsimp only
  rw [(take_eq_ok word).mpr ⟨padding_holds, List.length_replicate, rfl⟩, bind_ok, pure_eq,
    ok.injEq, DramScan.behind]
  congr 2
  rw [length, ← aligned, FlatDt.alignment, List.length_replicate]
  omega

theorem readDramProperties_of_holds {scan : DramScan} {properties : List WireProperty}
    (framed : ∀ p ∈ properties, PropertyFramed p)
    (holds : Holds bytes scan.cursor (properties.flatMap WireProperty.serialize)) :
    readDramProperties bytes depth properties.length scan =
      .ok (properties.foldl (DramScan.behind depth) scan) := by
  induction properties generalizing scan with
  | nil => rfl
  | cons p rest ih =>
      obtain ⟨first, others⟩ := List.forall_mem_cons.mp framed
      rw [List.flatMap_cons, holds_append] at holds
      rw [List.length_cons, readDramProperties, readDramProperty_of_holds word first holds.1,
        bind_ok]
      apply ih others
      rw [DramScan.behind, cursor_property]
      exact holds.2

end Scan

/-! ### What a node describes -/

/-- What a node's properties are read as: nothing new, unless the node is a child of the root that
is called `chosen`. -/
def describedAt (depth : Nat) (properties : List WireProperty) (dram : Option Range) :
    Result (Option Range) :=
  if depth = 1 ∧ valueOf (asBytes "name") properties = some (asBytes "chosen" ++ [0]) then do
    let range ← chosenDram ⟨0, true, valueOf (asBytes "dram-base") properties,
      valueOf (asBytes "dram-size") properties⟩
    pure (some range)
  else pure dram

mutual

/-- What a tree is read as. -/
def describedFrom : WireNode → (depth : Nat) → Option Range → Result (Option Range)
  | ⟨properties, children⟩, depth, dram => do
    let dram ← describedAt depth properties dram
    describedAll children (depth + 1) dram

def describedAll : List WireNode → (depth : Nat) → Option Range → Result (Option Range)
  | [], _, dram => pure dram
  | node :: rest, depth, dram => do
    let dram ← describedFrom node depth dram
    describedAll rest depth dram

end

section Fold

variable {properties : List WireProperty} {depth : Nat}

theorem chosen_behind (scan : DramScan) (p : WireProperty) : (scan.behind depth p).chosen =
    if p.name = asBytes "name" then decide (depth = 1 ∧ p.value = asBytes "chosen" ++ [0])
    else scan.chosen := by
  unfold DramScan.behind DramScan.property
  split_ifs <;> rfl

theorem base_behind (scan : DramScan) (p : WireProperty) : (scan.behind 1 p).base =
    if p.name = asBytes "dram-base" then some p.value else scan.base := by
  have apart : asBytes "dram-base" ≠ asBytes "name" := by decide
  unfold DramScan.behind DramScan.property
  split_ifs <;> simp_all

theorem size_behind (scan : DramScan) (p : WireProperty) : (scan.behind 1 p).size =
    if p.name = asBytes "dram-size" then some p.value else scan.size := by
  have apart : asBytes "dram-size" ≠ asBytes "name" := by decide
  have apart' : asBytes "dram-size" ≠ asBytes "dram-base" := by decide
  unfold DramScan.behind DramScan.property
  split_ifs <;> simp_all

variable (distinct : (properties.map (·.name)).Nodup) (cursor : Nat)
include distinct

theorem chosen_foldl :
    (properties.foldl (DramScan.behind depth) ⟨cursor, false, none, none⟩).chosen =
      decide (depth = 1 ∧
        valueOf (asBytes "name") properties = some (asBytes "chosen" ++ [0])) := by
  rw [@get_foldl _ _ _ _ DramScan.chosen
    (fun value => decide (depth = 1 ∧ value = asBytes "chosen" ++ [0])) chosen_behind _ distinct]
  cases valueOf (asBytes "name") properties with
  | none => simp
  | some value => simp

theorem base_foldl : (properties.foldl (DramScan.behind 1) ⟨cursor, false, none, none⟩).base =
    valueOf (asBytes "dram-base") properties := by
  rw [@get_foldl _ _ _ _ DramScan.base some base_behind _ distinct]
  cases valueOf (asBytes "dram-base") properties with
  | none => rfl
  | some value => rfl

theorem size_foldl : (properties.foldl (DramScan.behind 1) ⟨cursor, false, none, none⟩).size =
    valueOf (asBytes "dram-size") properties := by
  rw [@get_foldl _ _ _ _ DramScan.size some size_behind _ distinct]
  cases valueOf (asBytes "dram-size") properties with
  | none => rfl
  | some value => rfl

/-- The order of the properties does not matter. -/
theorem nextDram_foldl (dram : Option Range) :
    nextDram (properties.foldl (DramScan.behind depth) ⟨cursor, false, none, none⟩) dram =
      describedAt depth properties dram := by
  have chosen := @chosen_foldl _ depth distinct cursor
  unfold nextDram describedAt
  by_cases hit : depth = 1 ∧
      valueOf (asBytes "name") properties = some (asBytes "chosen" ++ [0])
  · rw [if_pos hit, if_pos (chosen.trans (decide_eq_true hit))]
    obtain ⟨rfl, _⟩ := hit
    rw [chosenDram, base_foldl distinct, size_foldl distinct]
    rfl
  · rw [if_neg hit, if_neg (by rw [chosen]; simpa using hit)]

end Fold

/-! ### The traversal -/

/-- What the reading needs of a node to find its parts. -/
structure Readable (node : WireNode) : Prop where
  framed : NodeFramed node
  distinct : (node.properties.map (·.name)).Nodup

section Traversal

variable {bytes : Bytes}

/-- The part in front of the children. -/
theorem readDramHeader_of_holds (word : bytes.length < 2 ^ 64)
    {properties : List WireProperty} {children cursor depth : Nat}
    (few_properties : properties.length < 2 ^ 32) (each : ∀ p ∈ properties, PropertyFramed p)
    (few : children < 2 ^ 32)
    (holds : Holds bytes cursor (FlatDt.serializeHeader properties children)) :
    readU32 bytes cursor = .ok (properties.length, cursor + 4) ∧
      readU32 bytes (cursor + 4) = .ok (children, cursor + 4 + 4) ∧
      readDramProperties bytes depth properties.length ⟨cursor + 4 + 4, false, none, none⟩ =
        .ok (properties.foldl (DramScan.behind depth) ⟨cursor + 4 + 4, false, none, none⟩) := by
  obtain ⟨count_holds, children_holds, properties_holds⟩ := FlatDt.holds_serializeHeader.mp holds
  refine ⟨(takeWord_eq_ok word).mpr ⟨count_holds, few_properties, rfl⟩,
    (takeWord_eq_ok word).mpr ⟨children_holds, few, rfl⟩, ?_⟩
  exact readDramProperties_of_holds word each properties_holds

mutual

/-- The reading follows the tree in the bytes, to its end. -/
theorem readDramNode_eq (word : bytes.length < 2 ^ 64) : ∀ (node : WireNode)
    {fuel depth cursor : Nat} (dram : Option Range),
    (∀ entry ∈ node.nodesFrom depth, Readable entry.2) → Holds bytes cursor node.serialize →
    node.serialize.length < fuel →
    readDramNode bytes fuel depth (cursor, dram) =
      describedFrom node depth dram >>= fun dram => .ok (cursor + node.serialize.length, dram)
  | ⟨properties, children⟩, fuel, depth, cursor, dram, readable, holds, enough => by
    rw [WireNode.nodesFrom, List.forall_mem_cons] at readable
    obtain ⟨⟨framed, distinct⟩, below⟩ := readable
    rw [WireNode.serialize, List.length_append] at enough
    rw [WireNode.serialize, holds_append] at holds
    have sized := @FlatDt.length_serializeHeader properties children.length
    cases fuel with
    | zero => exact absurd enough (Nat.not_lt_zero _)
    | succ fuel =>
        obtain ⟨count_read, children_read, properties_read⟩ :=
          @readDramHeader_of_holds _ word properties _ _ depth framed.properties framed.each
            framed.children holds.1
        have behind : (properties.foldl (DramScan.behind depth)
            ⟨cursor + 4 + 4, false, none, none⟩).cursor =
              cursor + (FlatDt.serializeHeader properties children.length).length := by
          rw [cursor_foldl_behind, sized, ← Nat.add_assoc]
        rw [readDramNode, count_read, bind_ok]
        dsimp only
        rw [children_read, bind_ok]
        dsimp only
        rw [properties_read, bind_ok, nextDram_foldl distinct, describedFrom, bind_assoc]
        congr 1
        funext dram
        rw [behind, readDramChildren_eq word children dram below holds.2 (by omega),
          WireNode.serialize, List.length_append, Nat.add_assoc]

theorem readDramChildren_eq (word : bytes.length < 2 ^ 64) : ∀ (nodes : List WireNode)
    {fuel depth cursor : Nat} (dram : Option Range),
    (∀ entry ∈ FlatDt.allNodesFrom nodes depth, Readable entry.2) →
    Holds bytes cursor (serializeAll nodes) → (serializeAll nodes).length < fuel →
    readDramChildren (readDramNode bytes fuel depth) nodes.length (cursor, dram) =
      describedAll nodes depth dram >>= fun dram => .ok (cursor + (serializeAll nodes).length, dram)
  | [], fuel, depth, cursor, dram, _, _, _ => by
    rw [describedAll]
    rfl
  | node :: rest, fuel, depth, cursor, dram, readable, holds, enough => by
    rw [FlatDt.allNodesFrom, List.forall_mem_append] at readable
    rw [serializeAll, List.length_append] at enough
    rw [serializeAll, holds_append] at holds
    rw [List.length_cons, readDramChildren,
      readDramNode_eq word node dram readable.1 holds.1 (by omega), describedAll, bind_assoc,
      bind_assoc]
    congr 1
    funext dram
    rw [bind_ok, readDramChildren_eq word rest dram readable.2 holds.2 (by omega), serializeAll,
      List.length_append, Nat.add_assoc]

end

end Traversal

/-! ### The meaning of a tree -/

/-- The node is called `chosen`, as the reading has it. -/
def IsChosen (node : WireNode) : Prop :=
  valueOf (asBytes "name") node.properties = some (asBytes "chosen" ++ [0])

/-- The memory that the properties of a node describe. -/
def chosenIn (node : WireNode) : Result Range :=
  chosenDram ⟨0, true, valueOf (asBytes "dram-base") node.properties,
    valueOf (asBytes "dram-size") node.properties⟩

theorem describedAt_of_not {depth : Nat} {node : WireNode} (other : ¬ (depth = 1 ∧ IsChosen node))
    (dram : Option Range) : describedAt depth node.properties dram = .ok dram :=
  if_neg other

mutual

/-- Below the children of the root nothing is described. -/
theorem describedFrom_deep : ∀ (node : WireNode) {depth : Nat} (dram : Option Range), 2 ≤ depth →
    describedFrom node depth dram = .ok dram
  | ⟨properties, children⟩, depth, dram, deep => by
    have other : ¬ (depth = 1 ∧ IsChosen ⟨properties, children⟩) := by
      rintro ⟨rfl, _⟩
      omega
    rw [describedFrom, describedAt_of_not other, bind_ok,
      describedAll_deep children dram (by omega)]

theorem describedAll_deep : ∀ (nodes : List WireNode) {depth : Nat} (dram : Option Range),
    2 ≤ depth → describedAll nodes depth dram = .ok dram
  | [], _, _, _ => by
    rw [describedAll, pure_eq]
  | node :: rest, depth, dram, deep => by
    rw [describedAll, describedFrom_deep node dram deep, bind_ok, describedAll_deep rest dram deep]

end

/-- A child of the root that is not called `chosen`. -/
theorem describedFrom_of_not {node : WireNode} (other : ¬ IsChosen node) (dram : Option Range) :
    describedFrom node 1 dram = .ok dram := by
  obtain ⟨properties, children⟩ := node
  rw [describedFrom, describedAt_of_not (fun both => other both.2), bind_ok,
    describedAll_deep children dram (by decide)]

theorem describedFrom_of_chosen {node : WireNode} (chosen : IsChosen node) (dram : Option Range) :
    describedFrom node 1 dram = chosenIn node >>= fun range => .ok (some range) := by
  obtain ⟨properties, children⟩ := node
  have described : describedAt 1 properties dram =
      chosenIn ⟨properties, children⟩ >>= fun range => .ok (some range) := if_pos ⟨rfl, chosen⟩
  rw [describedFrom, described, bind_assoc]
  congr 1
  funext range
  rw [bind_ok, describedAll_deep children _ (by decide)]

theorem describedAll_of_not {nodes : List WireNode} (others : ∀ node ∈ nodes, ¬ IsChosen node)
    (dram : Option Range) : describedAll nodes 1 dram = .ok dram := by
  induction nodes with
  | nil => rw [describedAll, pure_eq]
  | cons node rest ih =>
      obtain ⟨first, others⟩ := List.forall_mem_cons.mp others
      rw [describedAll, describedFrom_of_not first, bind_ok, ih others]

/-- Of children of which one at most is called `chosen`, that one describes the memory. -/
theorem describedAll_of_chosen {nodes : List WireNode} {node : WireNode}
    (apart : nodes.Pairwise fun a b => ¬ (IsChosen a ∧ IsChosen b)) (mem : node ∈ nodes)
    (chosen : IsChosen node) (dram : Option Range) :
    describedAll nodes 1 dram = chosenIn node >>= fun range => .ok (some range) := by
  induction nodes generalizing dram with
  | nil => cases mem
  | cons first rest ih =>
      obtain ⟨alone, apart⟩ := List.pairwise_cons.mp apart
      rcases List.mem_cons.mp mem with rfl | later
      · have others : ∀ other ∈ rest, ¬ IsChosen other :=
          fun other among also => alone other among ⟨chosen, also⟩
        rw [describedAll, describedFrom_of_chosen chosen, bind_assoc]
        congr 1
        funext range
        rw [bind_ok, describedAll_of_not others]
      · have other : ¬ IsChosen first := fun also => alone node later ⟨also, chosen⟩
        rw [describedAll, describedFrom_of_not other, bind_ok, ih apart later]

/-- The root itself describes nothing. -/
theorem describedFrom_root (root : WireNode) (dram : Option Range) :
    describedFrom root 0 dram = describedAll root.children 1 dram := by
  obtain ⟨properties, children⟩ := root
  have other : ¬ ((0 : Nat) = 1 ∧ IsChosen ⟨properties, children⟩) := by simp
  rw [describedFrom, describedAt_of_not other, bind_ok]

/-- In a tree of the format, the node that is read as `chosen` is the one that is named so. -/
theorem isChosen_iff {depth : Nat} {node : WireNode} (ok : FlatDt.NodeOk depth node) :
    IsChosen node ↔ node.name? = some (asBytes "chosen") := by
  unfold IsChosen valueOf WireNode.name? FlatDt.nameIn
  cases found : node.properties.find? (·.name = asBytes "name") with
  | none => simp
  | some p =>
      have hit := List.find?_some found
      have called := of_decide_eq_true hit
      obtain ⟨name, value, _⟩ :=
        (ok.properties.each p (List.mem_of_find?_eq_some found)).value called
      rw [Option.map_some, Option.map_some, value, List.dropLast_concat, Option.some_inj,
        Option.some_inj, List.append_left_inj]

/-- The memory that `dram-base` and `dram-size` describe: both are eight bytes, and the range is
not empty and does not wrap. -/
structure Describes (properties : List WireProperty) (range : Range) : Prop where
  base : ∃ value, ⟨asBytes "dram-base", value⟩ ∈ properties ∧ value.length = 8 ∧
    fromLeBytes value = range.start
  size : ∃ value, ⟨asBytes "dram-size", value⟩ ∈ properties ∧ value.length = 8 ∧
    range.start + fromLeBytes value = range.stop
  nonempty : range.start < range.stop
  word : range.stop < 2 ^ 64

theorem dramWord_eq_ok {value : Option Bytes} {n : Nat} :
    dramWord value = .ok n ↔
      ∃ bytes, value = some bytes ∧ bytes.length = 8 ∧ fromLeBytes bytes = n := by
  simp only [dramWord, bind_eq_ok, exists_const, ofOption_eq_ok, rejectIf_eq_ok, not_not, pure_eq,
    ok.injEq]

theorem chosenIn_eq_ok {node : WireNode} {range : Range}
    (distinct : (node.properties.map (·.name)).Nodup) :
    chosenIn node = .ok range ↔ Describes node.properties range := by
  simp only [chosenIn, chosenDram, bind_eq_ok, exists_const, rejectIf_eq_ok, dramWord_eq_ok,
    Range.new, ofOption_eq_ok, checkedAdd_eq_some, pure_eq, ok.injEq, valueOf_eq_some_iff distinct]
  constructor
  · rintro ⟨_, base, ⟨_, base_mem, base_size, rfl⟩, size, ⟨_, size_mem, size_size, rfl⟩, some, _,
      ⟨word, rfl⟩, rfl⟩
    exact ⟨⟨_, base_mem, base_size, rfl⟩, ⟨_, size_mem, size_size, rfl⟩,
      Nat.lt_add_of_pos_right (Nat.pos_of_ne_zero some), word⟩
  · obtain ⟨start, stop⟩ := range
    rintro ⟨⟨base, base_mem, base_size, rfl⟩, ⟨size, size_mem, size_size, ends⟩, some, word⟩
    dsimp only at ends some word
    subst ends
    refine ⟨?_, _, ⟨base, base_mem, base_size, rfl⟩, _, ⟨size, size_mem, size_size, rfl⟩, by omega,
      _, ⟨word, rfl⟩, rfl⟩
    rw [(valueOf_eq_some_iff distinct).mpr base_mem, (valueOf_eq_some_iff distinct).mpr size_mem]
    simp

/-- The two errors that a description of the memory can have. -/
def IsDramError (e : Arm64BootArgsError) : Prop :=
  e = .missingDramProperties ∨ e = .invalidDramProperties

theorem chosenIn_ends (node : WireNode) : Ends (fun _ => True) IsDramError (chosenIn node) := by
  have reads (value : Option Bytes) : Ends (fun _ => True) IsDramError (dramWord value) := by
    apply (ends_ofOption fun _ => .inl rfl).bind
    intro bytes _
    apply (ends_rejectIf fun _ => .inr rfl).bind
    intro _ _
    trivial
  apply (ends_rejectIf fun _ => .inl rfl).bind
  intro _ _
  apply (reads _).bind
  intro base _
  apply (reads _).bind
  intro size _
  apply (ends_rejectIf fun _ => .inr rfl).bind
  intro _ _
  apply (ends_ofOption fun _ => .inr rfl).bind
  intro stop _
  trivial

/-! ### Agreement -/

section Agreement

open FlatDt (Grammatical)

variable {root : WireNode}

theorem readable_of_grammatical (ok : Grammatical root) :
    ∀ entry ∈ root.nodesFrom 0, Readable entry.2 :=
  fun entry mem => ⟨ok.framed entry mem, (ok.each entry mem).properties.distinct⟩

/-- The whole reading of an accepted string. -/
theorem readDramNode_root (ok : Grammatical root) :
    readDramNode root.serialize (root.serialize.length + 1) 0 (0, none) =
      describedAll root.children 1 none >>= fun dram => .ok (root.serialize.length, dram) := by
  have word : root.serialize.length < 2 ^ 64 := Nat.lt_of_le_of_lt ok.bytes (by decide)
  rw [readDramNode_eq word root none (readable_of_grammatical ok) (holds_self _)
    (Nat.lt_succ_self _), describedFrom_root, Nat.zero_add]

theorem mem_allNodesFrom {nodes : List WireNode} {child : WireNode} (mem : child ∈ nodes)
    (depth : Nat) : (depth, child) ∈ FlatDt.allNodesFrom nodes depth := by
  induction nodes with
  | nil => cases mem
  | cons node rest ih =>
      rw [FlatDt.allNodesFrom, List.mem_append]
      rcases List.mem_cons.mp mem with rfl | later
      · exact .inl (child.mem_nodesFrom depth)
      · exact .inr (ih later)

theorem children_ok (ok : Grammatical root) : ∀ child ∈ root.children, FlatDt.NodeOk 1 child := by
  obtain ⟨properties, children⟩ := root
  intro child mem
  have each := ok.each
  rw [WireNode.nodesFrom, List.forall_mem_cons] at each
  exact each.2 _ (mem_allNodesFrom mem _)

/-- No two children have one name. -/
theorem children_distinct (ok : Grammatical root) :
    root.children.Pairwise fun a b => a.name? ≠ b.name? :=
  List.pairwise_map.mp (ok.each _ (root.mem_nodesFrom 0)).distinct

/-- One child at most is called `chosen`. -/
theorem children_apart (ok : Grammatical root) :
    root.children.Pairwise fun a b => ¬ (IsChosen a ∧ IsChosen b) := by
  refine (children_distinct ok).imp_of_mem ?_
  rintro a b a_mem b_mem different ⟨a_chosen, b_chosen⟩
  apply different
  rw [(isChosen_iff (children_ok ok a a_mem)).mp a_chosen,
    (isChosen_iff (children_ok ok b b_mem)).mp b_chosen]

/-- What the reading of an accepted string ends in: its end, or a complaint about the memory. -/
theorem readDramNode_ends (ok : Grammatical root) :
    Ends (fun reading => reading.1 = root.serialize.length) IsDramError
      (readDramNode root.serialize (root.serialize.length + 1) 0 (0, none)) := by
  rw [readDramNode_root ok]
  by_cases hit : ∃ node ∈ root.children, IsChosen node
  · obtain ⟨node, mem, chosen⟩ := hit
    rw [describedAll_of_chosen (children_apart ok) mem chosen, bind_assoc]
    apply (chosenIn_ends node).bind
    intro range _
    rfl
  · rw [describedAll_of_not fun node mem chosen => hit ⟨node, mem, chosen⟩, bind_ok]
    rfl

/-- The reading is broken off only for a child called `chosen` that describes no range. -/
theorem readDramNode_fails_iff (ok : Grammatical root) :
    (∃ e, readDramNode root.serialize (root.serialize.length + 1) 0 (0, none) = .err e) ↔
      ∃ child ∈ root.children, child.name? = some (asBytes "chosen") ∧
        ∀ range, ¬ Describes child.properties range := by
  rw [readDramNode_root ok]
  constructor
  · rintro ⟨e, failed⟩
    by_cases hit : ∃ node ∈ root.children, IsChosen node
    · obtain ⟨node, mem, chosen⟩ := hit
      have node_ok := children_ok ok node mem
      refine ⟨node, mem, (isChosen_iff node_ok).mp chosen, fun range described => ?_⟩
      rw [describedAll_of_chosen (children_apart ok) mem chosen,
        (chosenIn_eq_ok node_ok.properties.distinct).mpr described] at failed
      cases failed
    · rw [describedAll_of_not fun node mem chosen => hit ⟨node, mem, chosen⟩] at failed
      cases failed
  · rintro ⟨node, mem, named, none⟩
    have node_ok := children_ok ok node mem
    have chosen := (isChosen_iff node_ok).mpr named
    rw [describedAll_of_chosen (children_apart ok) mem chosen]
    cases read : chosenIn node with
    | ok range =>
        exact absurd ((chosenIn_eq_ok node_ok.properties.distinct).mp read) (none range)
    | err e => exact ⟨e, rfl⟩
    | panic => exact absurd read (chosenIn_ends node).ne_panic

/-- A range is returned exactly for a child called `chosen` that describes it. -/
theorem dramRange_eq_ok (ok : Grammatical root) {range : Range} :
    dramRange root.serialize = .ok range ↔
      ∃ child ∈ root.children, child.name? = some (asBytes "chosen") ∧
        Describes child.properties range := by
  rw [dramRange, readDramNode_root ok]
  constructor
  · intro read
    by_cases hit : ∃ node ∈ root.children, IsChosen node
    · obtain ⟨node, mem, chosen⟩ := hit
      rw [describedAll_of_chosen (children_apart ok) mem chosen] at read
      simp only [bind_assoc, bind_ok, ofOption_some, bind_eq_ok, Outcome.ok.injEq,
        exists_eq_right] at read
      have node_ok := children_ok ok node mem
      exact ⟨node, mem, (isChosen_iff node_ok).mp chosen,
        (chosenIn_eq_ok node_ok.properties.distinct).mp read⟩
    · rw [describedAll_of_not fun node mem chosen => hit ⟨node, mem, chosen⟩] at read
      cases read
  · rintro ⟨node, mem, named, described⟩
    have node_ok := children_ok ok node mem
    have chosen := (isChosen_iff node_ok).mpr named
    rw [describedAll_of_chosen (children_apart ok) mem chosen,
      (chosenIn_eq_ok node_ok.properties.distinct).mpr described]
    rfl

end Agreement

/-- The second reading agrees with the validator: it goes through an accepted string to its end, or
complains about the memory that is described, and returns the range that the one child of the root
called `chosen` describes, if any. -/
theorem dramRange_agrees {bytes : Bytes} (accepted : FlatDt.validate bytes = .ok ()) :
    ∃ root, FlatDt.Grammatical root ∧ root.serialize = bytes ∧
      root.children.Pairwise (fun a b => a.name? ≠ b.name?) ∧
      readDramNode bytes (bytes.length + 1) 0 (0, none) ≠ .panic ∧
      (∀ e, readDramNode bytes (bytes.length + 1) 0 (0, none) = .err e → IsDramError e) ∧
      ((∃ e, readDramNode bytes (bytes.length + 1) 0 (0, none) = .err e) ↔
        ∃ child ∈ root.children, child.name? = some (asBytes "chosen") ∧
          ∀ range, ¬ Describes child.properties range) ∧
      (∀ cursor dram, readDramNode bytes (bytes.length + 1) 0 (0, none) = .ok (cursor, dram) →
        cursor = bytes.length) ∧
      ∀ range, dramRange bytes = .ok range ↔
        ∃ child ∈ root.children, child.name? = some (asBytes "chosen") ∧
          Describes child.properties range := by
  obtain ⟨root, ok, rfl⟩ := FlatDt.validate_eq_ok.mp accepted
  have ends := readDramNode_ends ok
  exact ⟨root, ok, rfl, children_distinct ok, ends.ne_panic, fun _ failed => ends.of_err failed,
    readDramNode_fails_iff ok, fun _ _ done => ends.of_ok done, fun _ => dramRange_eq_ok ok⟩

/-- A root with a node `chosen` whose name stands behind the memory that it describes, and with a
property of its own that is called `dram-base`. -/
def sampleDramTree : Bytes :=
  WireNode.serialize ⟨[⟨asBytes "name", [0]⟩, ⟨asBytes "dram-base", [1]⟩],
    [⟨[⟨asBytes "dram-base", toLeBytes 8 0x40000000⟩, ⟨asBytes "dram-size", toLeBytes 8 0x20000000⟩,
      ⟨asBytes "name", asBytes "chosen" ++ [0]⟩], []⟩]⟩

theorem dramRange_agrees_sample :
    ∃ root : WireNode, root.serialize = sampleDramTree ∧ ∃ child ∈ root.children,
      child.name? = some (asBytes "chosen") ∧
      Describes child.properties ⟨0x40000000, 0x60000000⟩ := by
  have accepted : FlatDt.validate sampleDramTree = .ok () := by decide +kernel
  have read : dramRange sampleDramTree = .ok ⟨0x40000000, 0x60000000⟩ := by decide +kernel
  obtain ⟨root, _, same, _, _, _, _, _, described⟩ := dramRange_agrees accepted
  exact ⟨root, same, (described _).mp read⟩

/-- A root with a node `chosen` that describes no memory and has a child, from 100 on. -/
def bareChosenTree : Bytes :=
  WireNode.serialize ⟨[⟨asBytes "name", [0]⟩],
    [⟨[⟨asBytes "name", asBytes "chosen" ++ [0]⟩],
      [⟨[⟨asBytes "name", asBytes "x" ++ [0]⟩], []⟩]⟩]⟩

/-- An accepted string need not be read to its end: behind the properties of this `chosen` the
reading is broken off, and what stands from there on is never looked at. -/
theorem readDramNode_breaks_off :
    FlatDt.validate bareChosenTree = .ok () ∧ bareChosenTree.length = 148 ∧
      readDramNode bareChosenTree 149 0 (0, none) = .err .missingDramProperties ∧
      readDramNode (bareChosenTree.take 100) 149 0 (0, none) = .err .missingDramProperties := by
  decide +kernel

end Nextcore.BootArgs
