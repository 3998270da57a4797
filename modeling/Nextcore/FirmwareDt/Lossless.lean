import Nextcore.FirmwareDt.Tree

/-!
The firmware parser is lossless.

What a parser has read is described as for the runtime format: a property
(`Parser.property_eq_ok`), the counts in front of a node (`Parser.counts_eq_ok`), the children for
any parser of one child (`Parser.children_eq_ok`), and by induction on the levels that are left a
node (`parsesNodes_node`). Each says that the parsed tree, written back, lies at the position, and
that the position and the statistics moved by just that much.
-/

namespace Nextcore.FirmwareDt

open Checked Checked.Outcome

theorem NameOk.nonzero {name : Bytes} (ok : NameOk name) : 0 ∉ name := by
  intro mem
  have shown := List.all_eq_true.mp ok.printable 0 mem
  exact absurd shown (by decide)

/-- A field is read as the name that is padded in it. -/
theorem propertyName_eq_ok {rawName : Bytes} {name : String} (sized : rawName.length = 32) :
    propertyName rawName = .ok name ↔
      NameOk (asBytes name) ∧ rawName = padded 32 (asBytes name) := by
  simp only [propertyName, indexFrom, bind_eq_ok, exists_const, index_eq_ok, rejectIf_eq_ok,
    ofOption_eq_ok, fromUtf8_eq_some, not_or, Nat.sub_zero, Bool.not_eq_false]
  constructor
  · rintro ⟨_, ⟨⟨_, inside⟩, rfl⟩, _, ⟨_, rfl⟩, ⟨nonzero, shown, zeros⟩, read⟩
    generalize (rawName.findIdx? (· = 0)).getD 32 = terminator at *
    have front : (window rawName 0 terminator).length = terminator := length_window (by omega)
    have back : window rawName terminator (rawName.length - terminator) =
        rawName.drop terminator := by
      rw [window, List.take_of_length_le (by rw [List.length_drop])]
    have split : rawName = window rawName 0 terminator ++ window rawName terminator
        (rawName.length - terminator) := by
      rw [back, window, List.drop_zero, List.take_append_drop]
    rw [not_any_ne_zero, length_window (by omega)] at zeros
    rw [read]
    refine ⟨⟨?_, by omega, shown⟩, ?_⟩
    · exact List.length_pos_iff.mp (by omega)
    · rw [zeros] at split
      rw [padded, front, ← sized]
      exact split
  · rintro ⟨ok, rfl⟩
    have short := ok.short
    have terminated : ((padded 32 (asBytes name)).findIdx? (· = 0)).getD 32 =
        (asBytes name).length := by
      rcases Nat.lt_or_eq_of_le short with inside | full
      · rw [findIdx?_padded ok.nonzero inside, Option.getD_some]
      · have whole : padded 32 (asBytes name) = asBytes name := by
          rw [padded, full]
          simp
        have clear : (asBytes name).findIdx? (· = 0) = none := by
          rw [List.findIdx?_eq_none_iff]
          intro b mem
          exact decide_eq_false fun zero => ok.nonzero (zero ▸ mem)
        rw [whole, clear, Option.getD_none, full]
    have front : window (padded 32 (asBytes name)) 0 (asBytes name).length = asBytes name := by
      rw [window, List.drop_zero, padded, List.take_left]
    have back : window (padded 32 (asBytes name)) (asBytes name).length
        (32 - (asBytes name).length) = List.replicate (32 - (asBytes name).length) 0 := by
      rw [window, padded, List.drop_left, List.take_of_length_le (by rw [List.length_replicate])]
    have positive := List.length_pos_iff.mpr ok.nonempty
    rw [terminated, sized]
    refine ⟨_, ⟨⟨Nat.zero_le _, short⟩, front⟩, _, ⟨⟨short, Nat.le_refl _⟩, back⟩,
      ⟨by omega, ok.printable, ?_⟩, rfl⟩
    rw [not_any_ne_zero, List.length_replicate]

/-! ### Properties -/

/-- The parser behind so many bytes, with these statistics on top of its own. -/
def Parser.behind (parser : Parser) (statistics : FirmwareDtStatistics) (bytes : Nat) : Parser :=
  ⟨parser.position + bytes, parser.statistics.plus statistics⟩

@[simp] theorem Parser.behind_behind (parser : Parser)
    (statistics statistics' : FirmwareDtStatistics)
    (bytes bytes' : Nat) : (parser.behind statistics bytes).behind statistics' bytes' =
      parser.behind (statistics.plus statistics') (bytes + bytes') := by
  rw [behind, behind, behind, FirmwareDtStatistics.plus_assoc, Nat.add_assoc]

@[simp] theorem Parser.behind_empty (parser : Parser) : parser.behind .empty 0 = parser := by
  simp [behind]

/-- What the properties of a node add to the statistics on their own. -/
def templateStatistics (properties : List FirmwareProperty) : FirmwareDtStatistics :=
  ⟨0, 0, templatesIn properties, 0⟩

section Reading

variable {source : Bytes} (word : source.length < 2 ^ 64)
include word

theorem Parser.take_eq_ok {parser parser' : Parser} {count : Nat} {out : Bytes} :
    parser.take source count = .ok (out, parser') ↔
      Holds source parser.position out ∧ out.length = count ∧
        parser' = ⟨parser.position + count, parser.statistics⟩ := by
  simp only [take, bind_eq_ok, Prod.exists, Checked.take_eq_ok word, pure_eq, ok.injEq,
    Prod.mk.injEq]
  constructor
  · rintro ⟨_, _, ⟨holds, sized, rfl⟩, rfl, rfl⟩
    exact ⟨holds, sized, rfl⟩
  · rintro ⟨holds, sized, rfl⟩
    exact ⟨_, _, ⟨holds, sized, rfl⟩, rfl, rfl⟩

theorem Parser.word_eq_ok {parser parser' : Parser} {n : Nat} :
    parser.word source = .ok (n, parser') ↔
      Holds source parser.position (toLeBytes 4 n) ∧ n < 2 ^ 32 ∧
        parser' = ⟨parser.position + 4, parser.statistics⟩ := by
  simp only [Parser.word, bind_eq_ok, Prod.exists, takeWord_eq_ok word, pure_eq, ok.injEq,
    Prod.mk.injEq]
  constructor
  · rintro ⟨_, _, ⟨holds, small, rfl⟩, rfl, rfl⟩
    exact ⟨holds, small, rfl⟩
  · rintro ⟨holds, small, rfl⟩
    exact ⟨_, _, ⟨holds, small, rfl⟩, rfl, rfl⟩

/-- A property was read: it lies at the position, which is its offset. -/
theorem Parser.property_eq_ok {parser parser' : Parser} {p : FirmwareProperty}
    (room : parser.statistics.templates + 1 < 2 ^ 64) :
    parser.property source = .ok (p, parser') ↔
      PropertyOk p ∧ p.offset = parser.position ∧ Holds source parser.position p.serialize ∧
        parser' = parser.behind (templateStatistics [p]) p.serialize.length := by
  have counted {templates rawLength : Nat} :
      countTemplate rawLength parser.statistics.templates = .ok templates ↔
        templates = parser.statistics.templates +
          if rawLength &&& templateFlag ≠ 0 then 1 else 0 := by
    unfold countTemplate
    split
    · rw [add_eq_ok, eq_comm (a := templates)]
      exact and_iff_right room
    · rw [pure_eq, ok.injEq, Nat.add_zero, eq_comm]
  have template : templatesIn [p] = if p.rawLength &&& templateFlag ≠ 0 then 1 else 0 := by
    rw [templatesIn, List.countP_singleton, FirmwareProperty.kind]
    split <;> simp
  simp only [Parser.property, bind_eq_ok, Prod.exists, Parser.take_eq_ok word,
    Parser.word_eq_ok word, pure_eq, ok.injEq, Prod.mk.injEq]
  constructor
  · rintro ⟨rawName, _, ⟨name_holds, sized, rfl⟩, name, named, rawLength, _,
      ⟨length_holds, small, rfl⟩, value, _, ⟨value_holds, value_sized, rfl⟩, padding, _,
      ⟨padding_holds, padding_sized, rfl⟩, _, tallied, rfl, rfl⟩
    obtain rfl := counted.mp tallied
    obtain ⟨name_ok, same⟩ := (propertyName_eq_ok sized).mp named
    dsimp only at *
    rw [← value_sized] at padding_sized
    have ok : PropertyOk ⟨parser.position, rawName, name, rawLength, value, padding⟩ :=
      ⟨name_ok, same, small, value_sized, padding_sized⟩
    refine ⟨ok, rfl, ?_, ?_⟩
    · simp only [FirmwareProperty.serialize, holds_append, List.length_append, sized,
        length_toLeBytes, ← Nat.add_assoc]
      rw [← value_sized] at padding_holds
      exact ⟨⟨⟨name_holds, length_holds⟩, value_holds⟩, padding_holds⟩
    · rw [behind, templateStatistics, template]
      simp only [FirmwareDtStatistics.plus, Nat.add_zero, Nat.max_zero, FirmwareProperty.serialize,
        List.length_append, length_toLeBytes, sized, padding_sized, value_sized, Nat.add_assoc]
  · rintro ⟨ok, placed, holds, rfl⟩
    have sized : p.rawName.length = 32 := by rw [ok.rawName, length_padded ok.name.short]
    simp only [FirmwareProperty.serialize, holds_append, List.length_append, sized,
      length_toLeBytes, ← Nat.add_assoc] at holds
    obtain ⟨⟨⟨name_holds, length_holds⟩, value_holds⟩, padding_holds⟩ := holds
    have padding_sized := ok.padding
    rw [ok.value] at padding_sized padding_holds
    refine ⟨_, _, ⟨name_holds, sized, rfl⟩, p.name,
      (propertyName_eq_ok sized).mpr ⟨ok.name, ok.rawName⟩, _, _,
      ⟨length_holds, ok.rawLength, rfl⟩, _, _, ⟨value_holds, ok.value, rfl⟩, _, _,
      ⟨padding_holds, padding_sized, rfl⟩, _, counted.mpr rfl, ?_, ?_⟩
    · rw [← placed]
    · rw [behind, templateStatistics, template]
      simp only [FirmwareDtStatistics.plus, Nat.add_zero, Nat.max_zero, FirmwareProperty.serialize,
        List.length_append, length_toLeBytes, sized, padding_sized, ok.value, Nat.add_assoc]

/-- The loop has read properties one behind the other. -/
theorem Parser.properties_eq_ok {count : Nat} {parser parser' : Parser}
    {properties : List FirmwareProperty} (inside : parser.position ≤ source.length)
    (room : parser.statistics.templates + count < 2 ^ 64) :
    Parser.properties source count parser = .ok (properties, parser') ↔
      properties.length = count ∧ (∀ p ∈ properties, PropertyOk p) ∧
        PropertiesPlacedAt properties parser.position ∧
        Holds source parser.position (properties.flatMap FirmwareProperty.serialize) ∧
        parser' = parser.behind (templateStatistics properties)
          (properties.flatMap FirmwareProperty.serialize).length := by
  induction count generalizing parser properties with
  | zero =>
      simp only [Parser.properties, pure_eq, ok.injEq, Prod.mk.injEq]
      constructor
      · rintro ⟨rfl, rfl⟩
        exact ⟨rfl, by simp, trivial, holds_nil.mpr inside, parser.behind_empty.symm⟩
      · rintro ⟨none, _, _, _, rfl⟩
        obtain rfl := List.length_eq_zero_iff.mp none
        exact ⟨rfl, parser.behind_empty.symm⟩
  | succ count ih =>
      have first_room : parser.statistics.templates + 1 < 2 ^ 64 := by omega
      have more_room (p : FirmwareProperty) :
          (parser.behind (templateStatistics [p]) p.serialize.length).statistics.templates + count <
            2 ^ 64 := by
        have := templatesIn_le [p]
        simp only [behind, FirmwareDtStatistics.plus, templateStatistics,
          List.length_singleton] at *
        omega
      have total (p : FirmwareProperty) (rest : List FirmwareProperty) :
          (parser.behind (templateStatistics [p]) p.serialize.length).behind
            (templateStatistics rest) (rest.flatMap FirmwareProperty.serialize).length =
          parser.behind (templateStatistics (p :: rest))
            ((p :: rest).flatMap FirmwareProperty.serialize).length := by
        rw [behind_behind, List.flatMap_cons, List.length_append]
        congr 1
        simp only [FirmwareDtStatistics.plus, templateStatistics, templatesIn,
          ← List.countP_append, List.singleton_append, Nat.add_zero, Nat.max_self]
      simp only [Parser.properties, bind_eq_ok, Prod.exists, Parser.property_eq_ok word first_room,
        pure_eq, ok.injEq, Prod.mk.injEq]
      constructor
      · rintro ⟨p, _, ⟨ok, placed, holds, rfl⟩, rest, _, read, rfl, rfl⟩
        obtain ⟨rfl, each, listed, others, rfl⟩ := (ih holds.fits (more_room p)).mp read
        refine ⟨rfl, List.forall_mem_cons.mpr ⟨ok, each⟩, ⟨placed, listed⟩, ?_, total ..⟩
        rw [List.flatMap_cons]
        exact holds_append.mpr ⟨holds, others⟩
      · rintro ⟨length, each, placed, holds, rfl⟩
        cases properties with
        | nil => cases length
        | cons p rest =>
            obtain ⟨ok, each⟩ := List.forall_mem_cons.mp each
            rw [List.flatMap_cons, holds_append] at holds
            refine ⟨p, _, ⟨ok, placed.1, holds.1, rfl⟩, rest, _, ?_, rfl, rfl⟩
            exact (ih holds.1.fits (more_room p)).mpr
              ⟨Nat.succ.inj length, each, placed.2, holds.2, (total ..).symm⟩

/-! ### Nodes -/

/-- What holds of a parser between two nodes. -/
structure Parser.Within (source : Bytes) (parser : Parser) : Prop where
  inside : parser.position ≤ source.length
  limits : parser.statistics.Within
  templates : parser.statistics.templates ≤ parser.statistics.properties

/-- The two counts were read: they lie at the position, and the limits and the bytes that are
left have room for what they announce. -/
theorem Parser.counts_eq_ok {parser parser' : Parser} {depth properties children : Nat}
    (start : parser.Within source) (few : parser.statistics.nodes < maxNodes) :
    parser.counts source depth = .ok (properties, children, parser') ↔
      (properties ≤ maxPropertiesPerNode ∧ children ≤ maxChildrenPerNode ∧
        parser.statistics.properties + properties ≤ maxProperties ∧
        parser.statistics.nodes + 1 + children ≤ maxNodes) ∧
      Holds source parser.position (toLeBytes 4 properties ++ toLeBytes 4 children) ∧
      parser.position + 8 + properties * 36 + children * 8 ≤ source.length ∧
      parser' = parser.behind ⟨1, properties, 0, depth⟩ 8 := by
  have properties_word : maxPropertiesPerNode * 36 + maxChildrenPerNode * 8 < 2 ^ 32 := by decide
  have children_word : maxChildrenPerNode * 8 < 2 ^ 32 := by decide
  have limits_word : maxNodes < 2 ^ 64 ∧ maxProperties < 2 ^ 64 := by decide
  obtain ⟨inside, ⟨_, properties_left⟩, _⟩ := start
  simp only [Parser.counts, bind_eq_ok, exists_const, Prod.exists, Parser.word_eq_ok word,
    sub_eq_ok, rejectIf_eq_ok, mul_eq_ok, add_eq_ok, ofOption_eq_ok, Option.bind_eq_some_iff,
    checkedMul_eq_some, checkedAdd_eq_some, pure_eq, ok.injEq, Prod.mk.injEq, holds_append,
    length_toLeBytes, not_or, Nat.not_lt]
  constructor
  · rintro ⟨_, _, ⟨first, _, rfl⟩, _, _, ⟨second, _, rfl⟩, _, ⟨_, rfl⟩, _, ⟨_, rfl⟩, _, ⟨_, rfl⟩,
      ⟨few_properties, few_children, properties_fit, children_fit⟩, _, ⟨_, rfl⟩, _,
      ⟨_, ⟨_, rfl⟩, _, rfl⟩, _, ⟨_, rfl⟩, enough, _, ⟨_, rfl⟩, _, ⟨_, rfl⟩, rfl, rfl, rfl⟩
    have fits := second.fits
    dsimp only at *
    rw [length_toLeBytes] at fits
    refine ⟨⟨few_properties, few_children, by omega, by omega⟩, ⟨first, second⟩, by omega, rfl⟩
  · rintro ⟨⟨few_properties, few_children, properties_fit, children_fit⟩, ⟨first, second⟩, enough,
      rfl⟩
    have fits := second.fits
    rw [length_toLeBytes] at fits
    have node_left : 1 ≤ maxNodes - parser.statistics.nodes := by omega
    have properties_room : properties ≤ maxProperties - parser.statistics.properties := by omega
    have children_room : children ≤ maxNodes - parser.statistics.nodes - 1 := by omega
    have bytes_room :
      properties * 36 + children * 8 ≤ source.length - (parser.position + 4 + 4) := by
      omega
    have nodes_word : parser.statistics.nodes + 1 < 2 ^ 64 := by omega
    have total_word : parser.statistics.properties + properties < 2 ^ 64 := by omega
    exact ⟨_, _, ⟨first, by omega, rfl⟩, _, _, ⟨second, by omega, rfl⟩, _, ⟨properties_left, rfl⟩,
      _, ⟨Nat.le_of_lt few, rfl⟩, _, ⟨node_left, rfl⟩,
      ⟨few_properties, few_children, properties_room, children_room⟩, _, ⟨by omega, rfl⟩, _,
      ⟨_, ⟨by omega, rfl⟩, by omega, rfl⟩, _, ⟨fits, rfl⟩, bytes_room, _, ⟨nodes_word, rfl⟩, _,
      ⟨total_word, rfl⟩, rfl, rfl, rfl⟩

/-- What `node` reads in front of the children: their number, and the properties. -/
def Parser.header (source : Bytes) (depth : Nat) (parser : Parser) :
    Result (Nat × List FirmwareProperty × Parser) := do
  let (propertyCount, childCount, parser) ← parser.counts source depth
  let (properties, parser) ← Parser.properties source propertyCount parser
  pure (childCount, properties, parser)

/-- The part of a node in front of its children was read. -/
theorem Parser.header_eq_ok {parser parser' : Parser} {depth children : Nat}
    {properties : List FirmwareProperty} (start : parser.Within source)
    (few : parser.statistics.nodes < maxNodes) :
    Parser.header source depth parser = .ok (children, properties, parser') ↔
      (properties.length ≤ maxPropertiesPerNode ∧ children ≤ maxChildrenPerNode ∧
        parser.statistics.properties + properties.length ≤ maxProperties ∧
        parser.statistics.nodes + 1 + children ≤ maxNodes) ∧
      (∀ p ∈ properties, PropertyOk p) ∧ PropertiesPlacedAt properties (parser.position + 8) ∧
      Holds source parser.position (serializeHeader properties children) ∧
      parser.position + 8 + properties.length * 36 + children * 8 ≤ source.length ∧
      parser' = parser.behind ⟨1, properties.length, templatesIn properties, depth⟩
        (serializeHeader properties children).length := by
  have room {count : Nat} (fits : parser.statistics.properties + count ≤ maxProperties) :
      parser.statistics.templates + count < 2 ^ 64 := by
    have few_templates := start.templates
    have : maxProperties < 2 ^ 64 := by decide
    omega
  have total : (parser.behind ⟨1, properties.length, 0, depth⟩ 8).behind
      (templateStatistics properties) (properties.flatMap FirmwareProperty.serialize).length =
      parser.behind ⟨1, properties.length, templatesIn properties, depth⟩
        (serializeHeader properties children).length := by
    rw [behind_behind, length_serializeHeader]
    simp [FirmwareDtStatistics.plus, templateStatistics]
  have split : Holds source parser.position (serializeHeader properties children) ↔
      Holds source parser.position (toLeBytes 4 properties.length ++ toLeBytes 4 children) ∧
        Holds source (parser.position + 8) (properties.flatMap FirmwareProperty.serialize) := by
    rw [serializeHeader, holds_append, List.length_append, length_toLeBytes, length_toLeBytes]
  simp only [Parser.header, bind_eq_ok, Prod.exists, Parser.counts_eq_ok word start few, pure_eq,
    ok.injEq, Prod.mk.injEq]
  rw [split]
  constructor
  · rintro ⟨count, _, _, ⟨limits, holds, enough, rfl⟩, _, _, listed, rfl, rfl, rfl⟩
    have inside : parser.position + 8 ≤ source.length := by omega
    have counted : (parser.behind ⟨1, count, 0, depth⟩ 8).statistics.templates + count < 2 ^ 64 :=
      room limits.2.2.1
    obtain ⟨rfl, each, placed, others, rfl⟩ :=
      (Parser.properties_eq_ok word inside counted).mp listed
    exact ⟨limits, each, placed, ⟨holds, others⟩, enough, total⟩
  · rintro ⟨limits, each, placed, ⟨holds, others⟩, enough, rfl⟩
    have inside : parser.position + 8 ≤ source.length := by omega
    have counted : (parser.behind ⟨1, properties.length, 0, depth⟩ 8).statistics.templates +
        properties.length < 2 ^ 64 := room limits.2.2.1
    exact ⟨_, _, _, ⟨limits, holds, enough, rfl⟩, _, _,
      (Parser.properties_eq_ok word inside counted).mpr ⟨rfl, each, placed, others, total.symm⟩,
      rfl, rfl, rfl⟩

end Reading

/-- From one parser to another, the nodes of some trees were read. -/
structure ParsedAs (source : Bytes) (parser parser' : Parser) (nodes : List (Nat × FirmwareNode))
    (chunk : Bytes) : Prop where
  each : ∀ entry ∈ nodes, NodeOk entry.1 entry.2
  holds : Holds source parser.position chunk
  behind : parser' = parser.behind (statisticsOf nodes) chunk.length
  limits : parser'.statistics.Within

theorem FirmwareDtStatistics.Within.of_plus {a b : FirmwareDtStatistics}
    (within : (a.plus b).Within) :
    a.Within :=
  ⟨(Nat.le_add_right ..).trans within.nodes, (Nat.le_add_right ..).trans within.properties⟩

theorem parsedAs_append {source a b : Bytes} {parser parser' : Parser}
    {nodes nodes' : List (Nat × FirmwareNode)} :
    ParsedAs source parser parser' (nodes ++ nodes') (a ++ b) ↔
      ParsedAs source parser (parser.behind (statisticsOf nodes) a.length) nodes a ∧
        ParsedAs source (parser.behind (statisticsOf nodes) a.length) parser' nodes' b := by
  have split : parser.behind (statisticsOf (nodes ++ nodes')) (a ++ b).length =
      (parser.behind (statisticsOf nodes) a.length).behind (statisticsOf nodes') b.length := by
    rw [Parser.behind_behind, statisticsOf_append, List.length_append]
  constructor
  · rintro ⟨each, holds, rfl, limits⟩
    obtain ⟨first, others⟩ := List.forall_mem_append.mp each
    obtain ⟨front, back⟩ := holds_append.mp holds
    rw [split] at limits ⊢
    exact ⟨⟨first, front, rfl, limits.of_plus⟩, others, back, rfl, limits⟩
  · rintro ⟨⟨first, front, _, _⟩, others, back, rfl, limits⟩
    exact ⟨List.forall_mem_append.mpr ⟨first, others⟩, holds_append.mpr ⟨front, back⟩,
      split.symm, limits⟩

/-- A parser that has read nodes is as good to go on from as it was. -/
theorem ParsedAs.within {source chunk : Bytes} {parser parser' : Parser}
    {nodes : List (Nat × FirmwareNode)} (parsed : ParsedAs source parser parser' nodes chunk)
    (start : parser.Within source) : parser'.Within source := by
  obtain ⟨_, holds, rfl, limits⟩ := parsed
  refine ⟨holds.fits, limits, ?_⟩
  exact Nat.add_le_add start.templates (templates_le_properties nodes)

/-- A parser of single nodes, which accepts those of the grammar. -/
def ParsesNodes (source : Bytes) (depth : Nat)
    (child : Parser → Result (FirmwareNode × Parser)) : Prop :=
  ∀ parser node parser', parser.Within source →
    (child parser = .ok (node, parser') ↔ node.PlacedAt parser.position ∧
      ParsedAs source parser parser' (node.nodesFrom depth) node.serialize)

/-- The loop over the children has read nodes one behind the other. -/
theorem Parser.children_eq_ok {source : Bytes} {depth : Nat}
    {child : Parser → Result (FirmwareNode × Parser)} (parses : ParsesNodes source depth child)
    {count : Nat} {parser parser' : Parser} {nodes : List FirmwareNode}
    (start : parser.Within source) :
    Parser.children child count parser = .ok (nodes, parser') ↔
      nodes.length = count ∧ AllPlacedAt nodes parser.position ∧
        ParsedAs source parser parser' (allNodesFrom nodes depth) (serializeAll nodes) := by
  induction count generalizing parser nodes with
  | zero =>
      simp only [Parser.children, pure_eq, ok.injEq, Prod.mk.injEq]
      constructor
      · rintro ⟨rfl, rfl⟩
        rw [allNodesFrom, serializeAll]
        exact ⟨rfl, by simp [AllPlacedAt], by simp, holds_nil.mpr start.inside,
          parser.behind_empty.symm, start.limits⟩
      · rintro ⟨none, _, parsed⟩
        obtain rfl := List.length_eq_zero_iff.mp none
        exact ⟨rfl, by rw [parsed.behind]; exact parser.behind_empty.symm⟩
  | succ count ih =>
      simp only [Parser.children, bind_eq_ok, Prod.exists, parses _ _ _ start, pure_eq, ok.injEq,
        Prod.mk.injEq]
      constructor
      · rintro ⟨node, between, ⟨placed, first⟩, rest, _, read, rfl, rfl⟩
        obtain ⟨rfl, listed, others⟩ := (ih (first.within start)).mp read
        rw [AllPlacedAt, allNodesFrom, serializeAll, parsedAs_append, ← first.behind]
        rw [first.behind] at listed
        exact ⟨rfl, ⟨placed, listed⟩, first, others⟩
      · rintro ⟨length, placed, parsed⟩
        cases nodes with
        | nil => cases length
        | cons node rest =>
            rw [AllPlacedAt] at placed
            rw [allNodesFrom, serializeAll, parsedAs_append] at parsed
            refine ⟨node, _, ⟨placed.1, parsed.1⟩, rest, parser', ?_, rfl, rfl⟩
            exact (ih (parsed.1.within start)).mpr ⟨Nat.succ.inj length, placed.2, parsed.2⟩

theorem statisticsOf_singleton {depth : Nat} {node : FirmwareNode} :
    statisticsOf [(depth, node)] =
      ⟨1, node.properties.length, templatesIn node.properties, depth⟩ := by
  simp [statisticsOf]

theorem Parser.node_eq (source : Bytes) (depth : Nat) (parser : Parser) :
    Parser.node source depth parser = (do
      rejectIf (depth > maxDepth ∨ parser.statistics.nodes = maxNodes) .limitsExceeded
      let (childCount, properties, between) ← Parser.header source depth parser
      let (children, between) ← Parser.children (Parser.node source (depth + 1)) childCount between
      pure (⟨parser.position, properties, children⟩, between)) := by
  rw [Parser.node]
  split
  · rw [rejectIf_of _ ‹_›]
    rfl
  · rw [rejectIf_of_not _ ‹_›, bind_ok, Parser.header]
    simp only [bind_assoc, pure_eq, bind_ok]

/-- A node was read: it lies at the position, with the offsets that it has there, and the limits
had room for it. -/
theorem parsesNodes_node {source : Bytes} (word : source.length < 2 ^ 64) (depth : Nat) :
    ParsesNodes source depth (Parser.node source depth) := by
  -- By induction on the levels that are left; below the last of them nothing is read.
  induction levels : maxDepth + 1 - depth generalizing depth with
  | zero =>
      intro parser node parser' start
      rw [Parser.node_eq, rejectIf_of _ (.inl (by omega)), bind_err]
      constructor
      · intro failed
        cases failed
      · rintro ⟨_, parsed⟩
        obtain ⟨offset, properties, children⟩ := node
        rw [FirmwareNode.nodesFrom] at parsed
        have shallow := (parsed.each _ List.mem_cons_self).shallow
        dsimp only at shallow
        omega
  | succ levels ih =>
      have parses := ih (depth + 1) (by omega)
      intro parser node parser' start
      obtain ⟨offset, properties, children⟩ := node
      rw [FirmwareNode.PlacedAt, FirmwareNode.nodesFrom, FirmwareNode.serialize,
        ← List.singleton_append, parsedAs_append, statisticsOf_singleton]
      simp only [Parser.node_eq, bind_eq_ok, exists_const, Prod.exists, rejectIf_eq_ok, not_or,
        Nat.not_lt, pure_eq, ok.injEq, Prod.mk.injEq, FirmwareNode.mk.injEq]
      constructor
      · rintro ⟨⟨shallow, left⟩, count, listed, _, headed, nodes, _, below, ⟨rfl, rfl, rfl⟩, rfl⟩
        have few := Nat.lt_of_le_of_ne start.limits.nodes left
        obtain ⟨⟨few_properties, few_children, properties_fit, nodes_fit⟩, each, placed, holds, _,
          rfl⟩ := (Parser.header_eq_ok word start few).mp headed
        have limits : (parser.behind ⟨1, listed.length, templatesIn listed, depth⟩
            (serializeHeader listed count).length).statistics.Within :=
          ⟨(Nat.le_add_right ..).trans nodes_fit, properties_fit⟩
        have within : (parser.behind ⟨1, listed.length, templatesIn listed, depth⟩
            (serializeHeader listed count).length).Within source :=
          ⟨holds.fits, limits, Nat.add_le_add start.templates (templatesIn_le listed)⟩
        obtain ⟨rfl, arranged, parsed⟩ := (Parser.children_eq_ok parses within).mp below
        refine ⟨⟨rfl, placed, arranged⟩, ⟨?_, holds, ?_, limits⟩, parsed⟩
        · exact List.forall_mem_singleton.mpr ⟨shallow, few_properties, few_children, each⟩
        · rw [statisticsOf_singleton]
      · rintro ⟨⟨rfl, placed, arranged⟩, ⟨noded, holds, _, limits⟩, parsed⟩
        obtain ⟨shallow, few_properties, few_children, each⟩ := List.forall_mem_singleton.mp noded
        dsimp only at shallow few_properties few_children each
        -- The limits at the end bound the nodes that the children have at least, each one its own.
        have nodes_end : parser.statistics.nodes + 1 +
            (allNodesFrom children (depth + 1)).length ≤ maxNodes := by
          have := parsed.limits.nodes
          rwa [parsed.behind] at this
        have own_nodes := length_le_allNodesFrom children (depth + 1)
        have own_bytes := length_children children
        have listed_bytes := length_properties each
        have behind := parsed.holds.fits
        have header := @length_serializeHeader properties children.length
        have few : parser.statistics.nodes < maxNodes := by omega
        have enough : parser.position + 8 + properties.length * 36 + children.length * 8 ≤
            source.length := by
          simp only [Parser.behind] at behind
          omega
        have within : (parser.behind ⟨1, properties.length, templatesIn properties, depth⟩
            (serializeHeader properties children.length).length).Within source :=
          ⟨holds.fits, limits, Nat.add_le_add start.templates (templatesIn_le properties)⟩
        have headed : Parser.header source depth parser = _ :=
          (Parser.header_eq_ok word start few).mpr
          ⟨⟨few_properties, few_children, limits.properties, by omega⟩, each, placed, holds, enough,
            rfl⟩
        exact ⟨⟨shallow, Nat.ne_of_lt few⟩, _, _, _, headed, children, parser',
          (Parser.children_eq_ok parses within).mpr ⟨rfl, arranged, parsed⟩, ⟨rfl, rfl, rfl⟩, rfl⟩

/-! ### The parser -/

theorem Parser.empty_within (source : Bytes) : Parser.Within source ⟨0, .empty⟩ :=
  ⟨Nat.zero_le _, ⟨Nat.zero_le _, Nat.zero_le _⟩, Nat.le_refl _⟩

/-- A source parses as a tree exactly when the tree is one of the format and is written as the
source. -/
theorem parse_eq_ok {source : Bytes} {tree : FirmwareDeviceTree} :
    FirmwareDeviceTree.parse source = .ok tree ↔
      Grammatical tree.root ∧ tree.root.serialize = source ∧ tree.source = source ∧
        tree.statistics = statisticsOf (tree.root.nodesFrom 0) := by
  simp only [FirmwareDeviceTree.parse, bind_eq_ok, exists_const, Prod.exists, rejectIf_eq_ok,
    Nat.not_lt, not_not, pure_eq, ok.injEq]
  constructor
  · rintro ⟨small, root, parser, read, all, rfl⟩
    have word : source.length < 2 ^ 64 := Nat.lt_of_le_of_lt small (by decide)
    obtain ⟨placed, each, holds, rfl, limits⟩ :=
      (parsesNodes_node word 0 _ root parser (Parser.empty_within source)).mp read
    simp only [Parser.behind, Nat.zero_add, FirmwareDtStatistics.empty_plus] at all limits
    have same := holds.eq_of_length all
    refine ⟨⟨each, limits, ?_, placed⟩, same, rfl, ?_⟩
    · rwa [same]
    · exact FirmwareDtStatistics.empty_plus _
  · rintro ⟨ok, rfl, from_source, counted⟩
    have word : tree.root.serialize.length < 2 ^ 64 := Nat.lt_of_le_of_lt ok.bytes (by decide)
    refine ⟨ok.bytes, tree.root, _, (parsesNodes_node word 0 _ tree.root _
      (Parser.empty_within _)).mpr ⟨ok.placed, ok.each, holds_self _, rfl, ?_⟩, ?_, ?_⟩
    · simp only [Parser.behind, FirmwareDtStatistics.empty_plus]
      exact ok.within
    · simp only [Parser.behind, Nat.zero_add]
    · simp only [Parser.behind, FirmwareDtStatistics.empty_plus, ← counted]
      rw [← from_source]

/-! ### No underflow -/

section NoPanic

variable {source : Bytes} {parser : Parser}

theorem Parser.take_ne_panic {count : Nat} : parser.take source count ≠ .panic :=
  bind_ne_panic Checked.take_ne_panic fun _ _ => by simp

theorem Parser.word_ne_panic : parser.word source ≠ .panic :=
  bind_ne_panic takeWord_ne_panic fun _ _ => by simp

theorem propertyName_ne_panic {rawName : Bytes} (sized : rawName.length = 32) :
    propertyName rawName ≠ .panic := by
  have inside : (rawName.findIdx? (· = 0)).getD 32 ≤ rawName.length := by
    cases found : rawName.findIdx? (· = 0) with
    | none => rw [Option.getD_none, sized]
    | some i => exact Nat.le_of_lt (List.findIdx?_eq_some_iff_getElem.mp found).1
  rw [propertyName, index_of_le (Nat.zero_le _) inside, bind_ok, indexFrom,
    index_of_le inside (Nat.le_refl _), bind_ok]
  exact bind_ne_panic rejectIf_ne_panic fun _ _ => ofOption_ne_panic

variable (word : source.length < 2 ^ 64)
include word

theorem Parser.property_ne_panic (room : parser.statistics.templates + 1 < 2 ^ 64) :
    parser.property source ≠ .panic := by
  refine bind_ne_panic take_ne_panic fun (rawName, parser) read => ?_
  obtain ⟨_, sized, rfl⟩ := (take_eq_ok word).mp read
  refine bind_ne_panic (propertyName_ne_panic sized) fun name _ => ?_
  refine bind_ne_panic word_ne_panic fun (rawLength, parser) read => ?_
  obtain ⟨_, _, rfl⟩ := (word_eq_ok word).mp read
  refine bind_ne_panic take_ne_panic fun (value, parser) read => ?_
  obtain ⟨_, _, rfl⟩ := (take_eq_ok word).mp read
  refine bind_ne_panic take_ne_panic fun (padding, parser) read => ?_
  obtain ⟨_, _, rfl⟩ := (take_eq_ok word).mp read
  refine bind_ne_panic ?_ fun _ _ => by simp
  unfold countTemplate
  split
  · rw [add_of_lt room]
    simp
  · simp

theorem Parser.properties_ne_panic {count : Nat}
    (room : parser.statistics.templates + count < 2 ^ 64) :
    Parser.properties source count parser ≠ .panic := by
  induction count generalizing parser with
  | zero => simp [Parser.properties]
  | succ count ih =>
      have first_room : parser.statistics.templates + 1 < 2 ^ 64 := by omega
      refine bind_ne_panic (property_ne_panic word first_room) fun (p, between) read => ?_
      obtain ⟨_, _, _, rfl⟩ := (property_eq_ok word first_room).mp read
      refine bind_ne_panic (ih ?_) fun _ _ => by simp
      have := templatesIn_le [p]
      simp only [behind, FirmwareDtStatistics.plus, templateStatistics, List.length_singleton] at *
      omega

/-- Neither the limits nor the source are smaller than what is taken from them. -/
theorem Parser.counts_ne_panic {depth : Nat} (start : parser.Within source)
    (few : parser.statistics.nodes < maxNodes) : parser.counts source depth ≠ .panic := by
  refine bind_ne_panic word_ne_panic fun (properties, parser) read => ?_
  obtain ⟨_, _, rfl⟩ := (word_eq_ok word).mp read
  refine bind_ne_panic word_ne_panic fun (children, parser) read => ?_
  obtain ⟨holds, _, rfl⟩ := (word_eq_ok word).mp read
  have inside := holds.fits
  rw [length_toLeBytes] at inside
  dsimp only at inside ⊢
  rw [sub_of_le start.limits.properties, bind_ok, sub_of_le start.limits.nodes, bind_ok,
    sub_of_le (Nat.sub_pos_of_lt few), bind_ok]
  refine bind_ne_panic rejectIf_ne_panic fun _ within => ?_
  simp only [rejectIf_eq_ok, not_or, Nat.not_lt] at within
  obtain ⟨_, few_children, properties_fit, _⟩ := within
  have children_word : maxChildrenPerNode * 8 < 2 ^ 64 := by decide
  have limits_word : maxNodes < 2 ^ 64 ∧ maxProperties < 2 ^ 64 := by decide
  have properties_left := start.limits.properties
  rw [mul_of_lt (by omega), bind_ok]
  refine bind_ne_panic ofOption_ne_panic fun minimum _ => ?_
  rw [sub_of_le inside, bind_ok]
  refine bind_ne_panic rejectIf_ne_panic fun _ _ => ?_
  have nodes_word : parser.statistics.nodes + 1 < 2 ^ 64 := by omega
  have total_word : parser.statistics.properties + properties < 2 ^ 64 := by omega
  rw [add_of_lt nodes_word, bind_ok, add_of_lt total_word, bind_ok]
  simp

theorem Parser.header_ne_panic {depth : Nat} (start : parser.Within source)
    (few : parser.statistics.nodes < maxNodes) : Parser.header source depth parser ≠ .panic := by
  refine bind_ne_panic (counts_ne_panic word start few)
    fun (properties, children, between) read => ?_
  obtain ⟨⟨_, _, properties_fit, _⟩, _, _, rfl⟩ := (counts_eq_ok word start few).mp read
  refine bind_ne_panic (properties_ne_panic word ?_) fun _ _ => by simp
  have few_templates := start.templates
  have : maxProperties < 2 ^ 64 := by decide
  simp only [behind, FirmwareDtStatistics.plus]
  omega

omit word in
theorem Parser.children_ne_panic {depth : Nat} {child : Parser → Result (FirmwareNode × Parser)}
    (parses : ParsesNodes source depth child)
    (each : ∀ parser, parser.Within source → child parser ≠ .panic) {count : Nat}
    (start : parser.Within source) : Parser.children child count parser ≠ .panic := by
  induction count generalizing parser with
  | zero => simp [Parser.children]
  | succ count ih =>
      refine bind_ne_panic (each parser start) fun (node, between) read => ?_
      obtain ⟨_, parsed⟩ := (parses _ _ _ start).mp read
      exact bind_ne_panic (ih (parsed.within start)) fun _ _ => by simp

theorem Parser.node_ne_panic {depth : Nat} (start : parser.Within source) :
    Parser.node source depth parser ≠ .panic := by
  -- By induction on the levels that are left, as in what a node is read as.
  induction levels : maxDepth + 1 - depth generalizing depth parser with
  | zero =>
      rw [node_eq, rejectIf_of _ (.inl (by omega)), bind_err]
      simp
  | succ levels ih =>
      rw [node_eq]
      refine bind_ne_panic rejectIf_ne_panic fun _ allowed => ?_
      rw [rejectIf_eq_ok, not_or] at allowed
      have few := Nat.lt_of_le_of_ne start.limits.nodes allowed.2
      refine bind_ne_panic (header_ne_panic word start few) fun (count, listed, between) read => ?_
      obtain ⟨⟨_, _, properties_fit, nodes_fit⟩, _, _, holds, _, rfl⟩ :=
        (header_eq_ok word start few).mp read
      have within : (parser.behind ⟨1, listed.length, templatesIn listed, depth⟩
          (serializeHeader listed count).length).Within source :=
        ⟨holds.fits, ⟨(Nat.le_add_right ..).trans nodes_fit, properties_fit⟩,
          Nat.add_le_add start.templates (templatesIn_le listed)⟩
      refine bind_ne_panic (children_ne_panic (parsesNodes_node word (depth + 1)) ?_ within)
        fun _ _ => by simp
      exact fun parser start => ih start (by omega)

end NoPanic

theorem parse_ne_panic (source : Bytes) : FirmwareDeviceTree.parse source ≠ .panic := by
  refine bind_ne_panic rejectIf_ne_panic fun _ small => ?_
  rw [rejectIf_eq_ok, Nat.not_lt] at small
  have word : source.length < 2 ^ 64 := Nat.lt_of_le_of_lt small (by decide)
  refine bind_ne_panic (Parser.node_ne_panic word (Parser.empty_within source)) fun _ _ => ?_
  exact bind_ne_panic rejectIf_ne_panic fun _ _ => by simp

theorem foldr_max_le {list : List Nat} {bound : Nat} (each : ∀ a ∈ list, a ≤ bound) :
    list.foldr max 0 ≤ bound := by
  induction list with
  | nil => exact Nat.zero_le _
  | cons a rest ih =>
      obtain ⟨first, others⟩ := List.forall_mem_cons.mp each
      exact Nat.max_le.mpr ⟨first, ih others⟩

/-- Nothing is lost: the parsed tree is written back as the source, its offsets are where its
parts stand, and its statistics are those of the tree. No subtraction underflows on the way. -/
theorem parse_lossless (source : Bytes) :
    FirmwareDeviceTree.parse source ≠ .panic ∧
      ∀ tree, FirmwareDeviceTree.parse source = .ok tree →
        tree.root.serialize = source ∧
        (tree.root.PlacedAt 0 ∧ tree.root.offsets.Pairwise (· < ·)) ∧
        tree.statistics = statisticsOf (tree.root.nodesFrom 0) ∧
        tree.statistics.nodes ≤ maxNodes ∧ tree.statistics.properties ≤ maxProperties ∧
        tree.statistics.templates ≤ tree.statistics.properties ∧
        tree.statistics.maximumDepth ≤ maxDepth := by
  refine ⟨parse_ne_panic source, fun tree parsed => ?_⟩
  obtain ⟨ok, same, _, counted⟩ := parse_eq_ok.mp parsed
  rw [counted]
  refine ⟨same, ⟨ok.placed, (ascending_node _ ok.placed).ordered⟩, rfl, ok.within.nodes,
    ok.within.properties, templates_le_properties _, foldr_max_le ?_⟩
  rw [List.forall_mem_map]
  exact fun entry mem => (ok.each entry mem).shallow

/-- A root with one template parses, and is written back as it was. -/
theorem parse_lossless_sample :
    ∃ tree, FirmwareDeviceTree.parse
        (toLeBytes 4 1 ++ toLeBytes 4 0 ++ padded 32 [109] ++ [1, 0, 0, 128, 7, 1, 2, 3]) =
          .ok tree ∧
      tree.root.serialize =
        toLeBytes 4 1 ++ toLeBytes 4 0 ++ padded 32 [109] ++ [1, 0, 0, 128, 7, 1, 2, 3] := by
  obtain ⟨tree, parsed⟩ := Outcome.isOk_iff.mp (by decide +kernel : (FirmwareDeviceTree.parse
    (toLeBytes 4 1 ++ toLeBytes 4 0 ++ padded 32 [109] ++ [1, 0, 0, 128, 7, 1, 2, 3])).isOk = true)
  exact ⟨tree, parsed, ((parse_lossless _).2 tree parsed).1⟩

end Nextcore.FirmwareDt
