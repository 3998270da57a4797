import Nextcore.Lib.Bytes
import Mathlib.Data.List.Basic

/-!
Writers whose output can be split again.

A writer is `Unambiguous` on the values that satisfy `P` when, of two of them written in front
of anything, equal byte strings come from equal values and equal rests. Writers of one length
that tell their values apart are; so is one after the other, and a list whose length is known.
A format that writes its counts in front is put together from these three, and no strict prefix
of what it writes is of the format (`Unambiguous.not_of_take`).
-/

namespace Checked

variable {α : Type} {P Q : α → Prop} {write : α → Bytes}

/-- What was written, and what follows it, can be told from the bytes. -/
def Unambiguous (P : α → Prop) (write : α → Bytes) : Prop :=
  ∀ ⦃a b⦄, P a → P b → ∀ ⦃x y⦄, write a ++ x = write b ++ y → a = b ∧ x = y

/-- Values of one length that are told apart. -/
theorem unambiguous_of_length {n : Nat} (length : ∀ a, P a → (write a).length = n)
    (inj : ∀ a b, P a → P b → write a = write b → a = b) : Unambiguous P write := by
  intro a b ha hb x y same
  obtain ⟨front, back⟩ := List.append_inj same ((length a ha).trans (length b hb).symm)
  exact ⟨inj a b ha hb front, back⟩

theorem Unambiguous.imp (clear : Unambiguous P write) (weaken : ∀ a, Q a → P a) :
    Unambiguous Q write :=
  fun _ _ ha hb _ _ same => clear (weaken _ ha) (weaken _ hb) same

theorem Unambiguous.inj (clear : Unambiguous P write) {a b : α} (ha : P a) (hb : P b)
    (same : write a = write b) : a = b :=
  (clear (x := []) (y := []) ha hb (by rw [same])).1

/-- A list of known length is as clear as its elements. -/
theorem Unambiguous.flatMap (clear : Unambiguous P write) {as bs : List α}
    (has : ∀ a ∈ as, P a) (hbs : ∀ b ∈ bs, P b) (length : as.length = bs.length) {x y : Bytes}
    (same : as.flatMap write ++ x = bs.flatMap write ++ y) : as = bs ∧ x = y := by
  induction as generalizing bs with
  | nil =>
      obtain rfl := List.length_eq_zero_iff.mp length.symm
      exact ⟨rfl, same⟩
  | cons a as ih =>
      cases bs with
      | nil => cases length
      | cons b bs =>
          obtain ⟨ha, has⟩ := List.forall_mem_cons.mp has
          obtain ⟨hb, hbs⟩ := List.forall_mem_cons.mp hbs
          rw [List.flatMap_cons, List.flatMap_cons, List.append_assoc, List.append_assoc] at same
          obtain ⟨first, rest⟩ := clear ha hb same
          obtain ⟨others, follow⟩ := ih has hbs (Nat.succ.inj length) rest
          exact ⟨by rw [first, others], follow⟩

theorem unambiguous_toLeBytes (width : Nat) : Unambiguous (· < 256 ^ width) (toLeBytes width) :=
  unambiguous_of_length (fun _ _ => length_toLeBytes ..)
    fun _ _ ha hb same => (toLeBytes_inj ha hb).mp same

/-- One part behind the other. -/
theorem Unambiguous.append {β : Type} {R : β → Prop} {write' : β → Bytes}
    (clear : Unambiguous P write) (clear' : Unambiguous R write') :
    Unambiguous (fun ab : α × β => P ab.1 ∧ R ab.2) fun ab => write ab.1 ++ write' ab.2 := by
  rintro ⟨a, b⟩ ⟨a', b'⟩ ⟨ha, hb⟩ ⟨ha', hb'⟩ x y same
  simp only [List.append_assoc] at same
  obtain ⟨first, same⟩ := clear ha ha' same
  obtain ⟨second, rest⟩ := clear' hb hb' same
  exact ⟨Prod.ext first second, rest⟩

/-- A list behind its length. -/
theorem Unambiguous.counted (clear : Unambiguous P write) (width : Nat) :
    Unambiguous (fun as : List α => as.length < 256 ^ width ∧ ∀ a ∈ as, P a)
      fun as => toLeBytes width as.length ++ as.flatMap write := by
  rintro as bs ⟨few, has⟩ ⟨few', hbs⟩ x y same
  simp only [List.append_assoc] at same
  obtain ⟨length, same⟩ := unambiguous_toLeBytes width few few' same
  exact clear.flatMap has hbs length same

/-- A byte string behind its length. -/
def sized (width : Nat) (bytes : Bytes) : Bytes := toLeBytes width bytes.length ++ bytes

theorem length_sized (width : Nat) (bytes : Bytes) :
    (sized width bytes).length = width + bytes.length := by
  rw [sized, List.length_append, length_toLeBytes]

theorem unambiguous_sized (width : Nat) :
    Unambiguous (fun bytes : Bytes => bytes.length < 256 ^ width) (sized width) := by
  intro a b ha hb x y same
  simp only [sized, List.append_assoc] at same
  obtain ⟨length, same⟩ := unambiguous_toLeBytes width ha hb same
  exact List.append_inj same length

/-- What was cut short was not written by the same writer. -/
theorem Unambiguous.not_of_take (clear : Unambiguous P write) {a b : α} (ha : P a) (hb : P b)
    {cut : Nat} {rest : Bytes} (short : cut < (write a).length) :
    (write a).take cut ≠ write b ++ rest := by
  intro same
  have whole : write b ++ (rest ++ (write a).drop cut) = write a ++ [] := by
    rw [← List.append_assoc, ← same, List.take_append_drop, List.append_nil]
  obtain ⟨_, nothing⟩ := clear hb ha whole
  have dropped := congrArg List.length (List.append_eq_nil_iff.mp nothing).2
  rw [List.length_drop, List.length_nil] at dropped
  omega

/-! ### Padded names -/

/-- A test that no byte is set is passed by zeros. -/
theorem not_any_ne_zero {bytes : Bytes} :
    ¬ bytes.any (· ≠ 0) = true ↔ bytes = List.replicate bytes.length 0 := by
  rw [List.eq_replicate_iff]
  simp

/-- A name in a field of `width` bytes, with zeros behind it. -/
def padded (width : Nat) (name : Bytes) : Bytes := name ++ List.replicate (width - name.length) 0

theorem length_padded {width : Nat} {name : Bytes} (fits : name.length ≤ width) :
    (padded width name).length = width := by
  rw [padded, List.length_append, List.length_replicate]
  omega

/-- A name written over a field of zeros is padded. -/
theorem overlay_zeros {width : Nat} {name : Bytes} (fits : name.length ≤ width) :
    overlay (List.replicate width 0) 0 name = padded width name := by
  apply List.ext_getElem?
  intro i
  rw [getElem?_overlay, padded, List.getElem?_append, List.length_replicate]
  by_cases front : i < name.length
  · rw [if_pos (by omega), if_pos front, Nat.sub_zero]
  · rw [if_neg (by omega), if_neg front, List.getElem?_replicate, List.getElem?_replicate]
    congr 1
    simp only [eq_iff_iff]
    omega

/-- A padded name, up to its first zero. -/
theorem window_padded {width : Nat} {name : Bytes} (fits : name.length < width) :
    window (padded width name) 0 (name.length + 1) = name ++ [0] := by
  obtain ⟨n, eq⟩ : ∃ n, width - name.length = n + 1 := ⟨width - name.length - 1, by omega⟩
  rw [window, List.drop_zero, padded, eq, List.replicate_succ, List.append_cons,
    List.take_left' (by simp)]

/-- The first zero of the field is where the name ends. -/
theorem findIdx?_padded {width : Nat} {name : Bytes} (nonzero : 0 ∉ name)
    (fits : name.length < width) : (padded width name).findIdx? (· = 0) = some name.length := by
  obtain ⟨n, eq⟩ : ∃ n, width - name.length = n + 1 := ⟨width - name.length - 1, by omega⟩
  have clear : name.findIdx? (· = 0) = none := by
    rw [List.findIdx?_eq_none_iff]
    intro b mem
    exact decide_eq_false fun zero => nonzero (zero ▸ mem)
  rw [padded, eq, List.replicate_succ, List.findIdx?_append, clear,
    List.findIdx?_cons]
  simp

/-- A field that is zero from its first zero on is a padded name. -/
theorem eq_padded_of_findIdx? {field : Bytes} {i : Nat}
    (found : field.findIdx? (· = 0) = some i) (rest : ∀ b ∈ field.drop i, b = 0) :
    field = padded field.length (window field 0 i) ∧ 0 ∉ window field 0 i ∧
      (window field 0 i).length = i ∧ i < field.length := by
  obtain ⟨inside, _, before⟩ := List.findIdx?_eq_some_iff_getElem.mp found
  have length : (window field 0 i).length = i := length_window (by omega)
  refine ⟨?_, ?_, length, inside⟩
  · have zeros : field.drop i = List.replicate (field.length - i) 0 := by
      rw [List.eq_replicate_iff]
      exact ⟨List.length_drop .., rest⟩
    rw [padded, length, ← zeros, window, List.drop_zero, List.take_append_drop]
  · intro zero
    obtain ⟨k, below, at_k⟩ := List.mem_iff_getElem.mp zero
    have small : k < i := by omega
    have same : field[k] = 0 := by
      rw [← at_k]
      simp [window]
    exact absurd same (by simpa using before k small)

theorem unambiguous_padded (width : Nat) :
    Unambiguous (fun name : Bytes => 0 ∉ name ∧ name.length < width) (padded width) := by
  refine unambiguous_of_length (fun name ok => length_padded (Nat.le_of_lt ok.2)) ?_
  intro a b ⟨ha, a_fits⟩ ⟨hb, b_fits⟩ same
  have first := findIdx?_padded ha a_fits
  rw [same, findIdx?_padded hb b_fits] at first
  have length : a.length = b.length := (Option.some.inj first).symm
  exact (List.append_inj same length).1

end Checked
