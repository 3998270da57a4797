import Nextcore.FlatDt.Validate

/-!
The strings that the validator accepts.

An accepted string has one tree (`Grammatical.unique`), and nothing may follow it or be missing
from it: of two accepted strings neither continues the other (`accepted_append`). The validator
never panics, so a string that is not accepted is refused with an error (`validate_rejects`).
-/

namespace Nextcore.FlatDt

open Checked Checked.Outcome

/-! ### One tree -/

theorem value_le_flatMap {properties : List WireProperty} {p : WireProperty}
    (mem : p ∈ properties) :
    p.value.length ≤ (properties.flatMap WireProperty.serialize).length := by
  have inside : p.serialize.length ≤ (properties.flatMap WireProperty.serialize).length :=
    (List.sublist_flatten_of_mem (List.mem_map_of_mem mem)).length_le
  refine Nat.le_trans ?_ inside
  simp only [WireProperty.serialize, List.length_append]
  omega

mutual

/-- No value is longer than the tree that it is in. -/
theorem WireNode.value_le : ∀ (node : WireNode) {depth : Nat} {entry : Nat × WireNode},
    entry ∈ node.nodesFrom depth → ∀ p ∈ entry.2.properties,
      p.value.length ≤ node.serialize.length
  | ⟨properties, children⟩, depth, entry, mem, p, among => by
    rw [WireNode.serialize, List.length_append, length_serializeHeader]
    rw [WireNode.nodesFrom, List.mem_cons] at mem
    rcases mem with rfl | below
    · have := value_le_flatMap among
      dsimp only at this
      omega
    · have := value_le_serializeAll children below p among
      omega

theorem value_le_serializeAll : ∀ (nodes : List WireNode) {depth : Nat} {entry : Nat × WireNode},
    entry ∈ allNodesFrom nodes depth → ∀ p ∈ entry.2.properties,
      p.value.length ≤ (serializeAll nodes).length
  | [], _, _, mem, _, _ => by
    rw [allNodesFrom] at mem
    cases mem
  | node :: rest, depth, entry, mem, p, among => by
    rw [serializeAll, List.length_append]
    rw [allNodesFrom, List.mem_append] at mem
    rcases mem with first | later
    · have := node.value_le first p among
      omega
    · have := value_le_serializeAll rest later p among
      omega

end

theorem NodeOk.framed {depth : Nat} {node : WireNode} (ok : NodeOk depth node)
    (small : ∀ p ∈ node.properties, p.value.length < 2 ^ 32) : NodeFramed node where
  properties := Nat.lt_of_le_of_lt ok.properties.few (by decide)
  each := fun p mem => (ok.properties.each p mem).framed (small p mem)
  children := Nat.lt_of_le_of_lt ok.few (by decide)

theorem Grammatical.framed {root : WireNode} (ok : Grammatical root) :
    ∀ entry ∈ root.nodesFrom 0, NodeFramed entry.2 := by
  intro entry mem
  refine (ok.each entry mem).framed fun p among => ?_
  exact Nat.lt_of_le_of_lt ((root.value_le mem p among).trans ok.bytes) (by decide)

/-- Trees of the format that are written alike in front of anything are equal. -/
theorem Grammatical.append_inj {root root' : WireNode} (ok : Grammatical root)
    (ok' : Grammatical root') {x y : Bytes}
    (same : root.serialize ++ x = root'.serialize ++ y) : root = root' ∧ x = y :=
  root.serialize_append_inj root' ok.framed ok'.framed same

theorem Grammatical.unique {root root' : WireNode} (ok : Grammatical root)
    (ok' : Grammatical root') (same : root.serialize = root'.serialize) : root = root' :=
  (ok.append_inj ok' (x := []) (y := []) (by rw [same])).1

/-- Of two accepted strings, neither continues the other. -/
theorem accepted_append {bytes rest : Bytes} (accepted : validate bytes = .ok ())
    (continued : validate (bytes ++ rest) = .ok ()) : rest = [] := by
  obtain ⟨root, ok, rfl⟩ := validate_eq_ok.mp accepted
  obtain ⟨root', ok', same⟩ := validate_eq_ok.mp continued
  exact (ok'.append_inj ok (x := []) (by rw [List.append_nil, same])).2.symm

/-! ### No panics -/

section NoPanic

variable {bytes : Bytes} {depth : Nat}

theorem Budget.addBytes_ne_panic {budget : Budget} {size : Nat} :
    budget.addBytes size ≠ .panic := by
  refine bind_ne_panic ofOption_ne_panic fun _ _ => ?_
  exact bind_ne_panic rejectIf_ne_panic fun _ _ => by simp

theorem Budget.node_ne_panic {budget : Budget} {properties children : Nat} :
    budget.node depth properties children ≠ .panic := by
  refine bind_ne_panic rejectIf_ne_panic fun _ _ => ?_
  refine bind_ne_panic ofOption_ne_panic fun _ _ => ?_
  refine bind_ne_panic ofOption_ne_panic fun _ _ => ?_
  exact bind_ne_panic rejectIf_ne_panic fun _ _ => addBytes_ne_panic

theorem propertySize_ne_panic {size : Nat} : propertySize size ≠ .panic := by
  by_cases small : size ≤ maxSerializedSize
  · rw [propertySize_eq_ok.mpr ⟨small, rfl⟩]
    simp
  · rw [propertySize, rejectIf_of _ (Nat.lt_of_not_le small)]
    simp

theorem readName_ne_panic {cursor : Nat} : readName bytes cursor ≠ .panic := by
  refine bind_ne_panic take_ne_panic fun (field, cursor) _ => ?_
  refine bind_ne_panic ofOption_ne_panic fun i found => ?_
  have inside := (List.findIdx?_eq_some_iff_getElem.mp (ofOption_eq_ok.mp found)).1
  rw [index_of_le (Nat.zero_le _) (Nat.le_of_lt inside), bind_ok]
  refine bind_ne_panic rejectIf_ne_panic fun _ _ => ?_
  rw [indexFrom, index_of_le (Nat.le_of_lt inside) (Nat.le_refl _), bind_ok]
  exact bind_ne_panic rejectIf_ne_panic fun _ _ => by simp

theorem nameOfValue_ne_panic {value : Bytes} : nameOfValue value depth ≠ .panic := by
  refine bind_ne_panic rejectIf_ne_panic fun _ last => ?_
  rw [rejectIf_eq_ok, not_not] at last
  have some : 0 < value.length := List.length_pos_of_mem (List.mem_of_getLast? last)
  rw [sub_of_le some, bind_ok, index_of_le (Nat.zero_le _) (Nat.sub_le ..), bind_ok]
  exact bind_ne_panic rejectIf_ne_panic fun _ _ => by simp

theorem nextNodeName_ne_panic {name value : Bytes} {nodeName : Option Bytes} :
    nextNodeName depth name value nodeName ≠ .panic := by
  unfold nextNodeName
  split
  · exact bind_ne_panic nameOfValue_ne_panic fun _ _ => by simp
  · simp

theorem readProperty_ne_panic {scan : PropertyScan} : readProperty bytes depth scan ≠ .panic := by
  refine bind_ne_panic readName_ne_panic fun (name, cursor) _ => ?_
  refine bind_ne_panic rejectIf_ne_panic fun _ _ => ?_
  refine bind_ne_panic takeWord_ne_panic fun (size, cursor) _ => ?_
  refine bind_ne_panic propertySize_ne_panic fun wireSize _ => ?_
  refine bind_ne_panic Budget.addBytes_ne_panic fun budget _ => ?_
  refine bind_ne_panic take_ne_panic fun (value, cursor) _ => ?_
  refine bind_ne_panic nextNodeName_ne_panic fun nodeName _ => ?_
  refine bind_ne_panic take_ne_panic fun (padding, cursor) _ => ?_
  exact bind_ne_panic rejectIf_ne_panic fun _ _ => by simp

theorem readProperties_ne_panic {count : Nat} {scan : PropertyScan} :
    readProperties bytes depth count scan ≠ .panic := by
  induction count generalizing scan with
  | zero => simp [readProperties]
  | succ count ih => exact bind_ne_panic readProperty_ne_panic fun _ _ => ih

theorem readHeader_ne_panic {reading : Reading} : readHeader bytes depth reading ≠ .panic := by
  refine bind_ne_panic takeWord_ne_panic fun (properties, cursor) _ => ?_
  refine bind_ne_panic takeWord_ne_panic fun (children, cursor) _ => ?_
  refine bind_ne_panic Budget.node_ne_panic fun budget _ => ?_
  refine bind_ne_panic readProperties_ne_panic fun scan _ => ?_
  exact bind_ne_panic ofOption_ne_panic fun _ _ => by simp

theorem readChildren_ne_panic {child : Reading → Result (Bytes × Reading)}
    (each : ∀ reading, child reading ≠ .panic) {count : Nat} {names : List Bytes}
    {reading : Reading} : readChildren child count names reading ≠ .panic := by
  induction count generalizing names reading with
  | zero => simp [readChildren]
  | succ count ih =>
      refine bind_ne_panic (each reading) fun _ _ => ?_
      exact bind_ne_panic rejectIf_ne_panic fun _ _ => ih

theorem readNode_ne_panic (reading : Reading) : readNode bytes depth reading ≠ .panic := by
  -- By induction on the levels that are left: a node below the last of them has no header.
  induction levels : maxDepth + 1 - depth generalizing depth reading with
  | zero =>
      rw [readNode_eq]
      refine bind_ne_panic readHeader_ne_panic fun header read => ?_
      have := depth_le_of_readHeader read
      omega
  | succ levels ih =>
      rw [readNode_eq]
      refine bind_ne_panic readHeader_ne_panic fun (children, name, reading) _ => ?_
      refine bind_ne_panic (readChildren_ne_panic fun reading => ?_) fun _ _ => by simp
      exact ih reading (by omega)

theorem validate_ne_panic : validate bytes ≠ .panic := by
  refine bind_ne_panic rejectIf_ne_panic fun _ _ => ?_
  exact bind_ne_panic (readNode_ne_panic _) fun (name, reading) _ => rejectIf_ne_panic

end NoPanic

/-- What is not accepted is refused with an error. -/
theorem validate_rejects {bytes : Bytes} (refused : validate bytes ≠ .ok ()) :
    ∃ e, validate bytes = .err e := by
  rcases eq : validate bytes with u | e | _
  · exact absurd eq refused
  · exact ⟨e, rfl⟩
  · exact absurd eq validate_ne_panic

/-! ### The language of the validator -/

/-- The validator accepts the serializations of the grammar's trees, each of one tree only, and
refuses what continues an accepted string or breaks it off. -/
theorem validate_exact (bytes : Bytes) :
    (validate bytes = .ok () ↔ ∃! root, Grammatical root ∧ root.serialize = bytes) ∧
      ∀ rest : Bytes, rest ≠ [] →
        (validate bytes = .ok () → ∃ e, validate (bytes ++ rest) = .err e) ∧
          (validate (bytes ++ rest) = .ok () → ∃ e, validate bytes = .err e) := by
  refine ⟨?_, fun rest some => ⟨fun accepted => ?_, fun continued => ?_⟩⟩
  · rw [validate_eq_ok]
    refine ⟨?_, ExistsUnique.exists⟩
    rintro ⟨root, ok, rfl⟩
    exact ⟨root, ⟨ok, rfl⟩, fun other ⟨other_ok, same⟩ => other_ok.unique ok same⟩
  · exact validate_rejects fun continued => some (accepted_append accepted continued)
  · exact validate_rejects fun accepted => some (accepted_append accepted continued)

/-- A byte behind a root without a name is refused. -/
theorem validate_exact_sample :
    ∃ e, validate (WireNode.serialize ⟨[⟨asBytes "name", [0]⟩], []⟩ ++ [0]) = .err e :=
  ((validate_exact _).2 [0] (by decide)).1 (by decide +kernel)

end Nextcore.FlatDt
