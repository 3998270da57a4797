import Mathlib.Data.Finmap

/-!
Finite maps that are filled one entry after the other.

An entry takes the place of an earlier one with its key, so a key has the value of the last entry
for it (`lookup_filled`). Nothing is lost exactly where the keys are pairwise different
(`card_keys_filled`), and then the map is the list (`filled_entries`).
-/

namespace Checked

section LastOf

variable {κ ν : Type} {entries : List (κ × ν)} {e last : κ × ν}

/-- `e` is the last of the entries with its key. -/
def LastOf (entries : List (κ × ν)) (e : κ × ν) : Prop :=
  ∃ before behind, entries = before ++ e :: behind ∧ ∀ e' ∈ behind, e'.1 ≠ e.1

/-- A further entry is the last with its key, and hides no entry with another one. -/
theorem lastOf_concat :
    LastOf (entries ++ [last]) e ↔ e = last ∨ last.1 ≠ e.1 ∧ LastOf entries e := by
  constructor
  · rintro ⟨before, behind, split, clear⟩
    rcases List.eq_nil_or_concat' behind with rfl | ⟨behind, hindmost, rfl⟩
    · obtain ⟨_, same⟩ := List.append_inj' split rfl
      exact .inl (List.singleton_inj.mp same).symm
    · rw [← List.cons_append, ← List.append_assoc] at split
      obtain ⟨split, same⟩ := List.append_inj' split rfl
      rw [List.singleton_inj.mp same]
      exact .inr ⟨clear hindmost (by simp), before, behind, split,
        fun e' mem => clear e' (List.mem_append_left _ mem)⟩
  · rintro (rfl | ⟨other, before, behind, rfl, clear⟩)
    · exact ⟨entries, [], rfl, by simp⟩
    · refine ⟨before, behind ++ [last], by simp, ?_⟩
      intro e' mem
      rcases List.mem_append.mp mem with inside | hindmost
      · exact clear e' inside
      · rwa [List.mem_singleton.mp hindmost]

/-- Among entries with different keys each is the last with its own. -/
theorem lastOf_of_nodup (nodup : (entries.map Prod.fst).Nodup) :
    LastOf entries e ↔ e ∈ entries := by
  constructor
  · rintro ⟨before, behind, rfl, _⟩
    simp
  · intro mem
    obtain ⟨before, behind, rfl⟩ := List.append_of_mem mem
    refine ⟨before, behind, rfl, fun e' mem' same => ?_⟩
    rw [List.map_append, List.map_cons, List.nodup_append'] at nodup
    exact (List.nodup_cons.mp nodup.2.1).1 (same ▸ List.mem_map_of_mem mem')

end LastOf

variable {κ ν : Type} [DecidableEq κ]

/-- `map.insert(key, value)` for each entry in turn. -/
def filled (map : Finmap fun _ : κ => ν) (entries : List (κ × ν)) : Finmap fun _ : κ => ν :=
  entries.foldl (fun map e => map.insert e.1 e.2) map

variable {map : Finmap fun _ : κ => ν} {entries : List (κ × ν)} {e : κ × ν} {key : κ} {value : ν}

theorem filled_concat : filled map (entries ++ [e]) = (filled map entries).insert e.1 e.2 := by
  rw [filled, List.foldl_append]
  rfl

/-- A key has the value of the last entry for it. -/
theorem lookup_filled :
    (filled ∅ entries).lookup key = some value ↔ LastOf entries (key, value) := by
  induction entries using List.reverseRecOn with
  | nil =>
      constructor
      · intro found
        cases found
      · rintro ⟨before, behind, split, _⟩
        simp at split
  | append_singleton entries last ih =>
      rw [filled_concat, lastOf_concat]
      by_cases same : last.1 = key
      · subst same
        rw [Finmap.lookup_insert, Option.some.injEq, Prod.ext_iff]
        constructor
        · rintro rfl
          exact .inl ⟨rfl, rfl⟩
        · rintro (⟨_, eq⟩ | ⟨other, _⟩)
          · exact eq.symm
          · exact absurd rfl other
      · rw [Finmap.lookup_insert_of_ne _ (Ne.symm same), ih]
        constructor
        · exact fun found => .inr ⟨same, found⟩
        · rintro (rfl | ⟨_, found⟩)
          · exact absurd rfl same
          · exact found

theorem keys_filled : (filled ∅ entries).keys = (entries.map Prod.fst).toFinset := by
  induction entries using List.reverseRecOn with
  | nil => rfl
  | append_singleton entries last ih =>
      ext key
      rw [filled_concat, Finmap.mem_keys, Finmap.mem_insert, ← Finmap.mem_keys, ih]
      simp only [List.mem_toFinset, List.map_append, List.mem_append, List.map_cons, List.map_nil,
        List.mem_singleton]
      exact or_comm

/-- As many keys as entries are left exactly where no two entries have one key. -/
theorem card_keys_filled :
    (filled ∅ entries).keys.card = entries.length ↔ (entries.map Prod.fst).Nodup := by
  rw [keys_filled, ← List.length_map Prod.fst]
  exact Multiset.toFinset_card_eq_card_iff_nodup

/-- A map is filled with its own entries, in whatever order they stand. -/
theorem filled_entries (order : AList fun _ : κ => ν) :
    filled ∅ (order.entries.map fun e => (e.1, e.2)) = order.toFinmap := by
  have names : (order.entries.map fun e => (e.1, e.2)).map Prod.fst = order.keys := by
    rw [List.map_map]
    rfl
  have nodup : ((order.entries.map fun e => (e.1, e.2)).map Prod.fst).Nodup :=
    names ▸ order.keys_nodup
  refine Finmap.ext_lookup fun key => Option.ext fun value => ?_
  rw [Finmap.lookup_toFinmap, lookup_filled, lastOf_of_nodup nodup, ← Option.mem_def,
    AList.mem_lookup_iff, List.mem_map]
  constructor
  · rintro ⟨⟨_, _⟩, mem, rfl, rfl⟩
    exact mem
  · intro mem
    exact ⟨⟨key, value⟩, mem, rfl⟩

end Checked
