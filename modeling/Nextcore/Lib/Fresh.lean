import Mathlib.Data.List.Nodup

/-!
Keys that a loop compares with the ones before them.

A loop that keeps the keys it has seen and stops at one that comes again gets to its end exactly
when its keys are `Fresh`; `fresh_cons` is one turn of the loop.
-/

variable {κ : Type}

/-- The keys are distinct, and none of them was seen before. -/
structure Fresh (seen keys : List κ) : Prop where
  distinct : keys.Nodup
  unseen : ∀ k ∈ keys, k ∉ seen

theorem fresh_nil (seen : List κ) : Fresh seen [] := ⟨List.nodup_nil, by simp⟩

theorem fresh_cons {seen keys : List κ} {k : κ} :
    Fresh seen (k :: keys) ↔ k ∉ seen ∧ Fresh (seen ++ [k]) keys := by
  constructor
  · rintro ⟨distinct, unseen⟩
    obtain ⟨new, unseen⟩ := List.forall_mem_cons.mp unseen
    obtain ⟨apart, distinct⟩ := List.nodup_cons.mp distinct
    refine ⟨new, distinct, fun other mem among => ?_⟩
    rcases List.mem_append.mp among with old | last
    · exact unseen other mem old
    · exact apart (List.mem_singleton.mp last ▸ mem)
  · rintro ⟨new, distinct, unseen⟩
    have apart : k ∉ keys := fun mem => unseen k mem (List.mem_append_right seen (by simp))
    refine ⟨List.nodup_cons.mpr ⟨apart, distinct⟩, List.forall_mem_cons.mpr ⟨new, ?_⟩⟩
    exact fun other mem old => unseen other mem (List.mem_append_left _ old)

theorem fresh_iff_nodup {keys : List κ} : Fresh [] keys ↔ keys.Nodup :=
  ⟨Fresh.distinct, fun distinct => ⟨distinct, by simp⟩⟩
