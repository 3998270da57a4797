import Nextcore.BootConfig.Targets

/-!
Normalized paths.

A path is `Canonical` when it is absolute, has backslashes only, and none of its components leads
anywhere but down. `normalizeAbsolutePath` replaces the slashes and accepts exactly what is
canonical then (`normalizeAbsolutePath_eq_ok`); the rest follows from that.
-/

namespace Nextcore.BootConfig

open Checked Checked.Outcome

/-! ### Canonical paths -/

/-- A component that names something below. -/
structure GoodComponent (component : List Char) : Prop where
  nonempty : component ≠ []
  current : component ≠ ['.']
  parent : component ≠ ['.', '.']
  dot : component.getLast? ≠ some '.'
  space : component.getLast? ≠ some ' '

/-- A character that is neither a control character nor outside the first plane nor reserved. -/
structure GoodCharacter (c : Char) : Prop where
  control : isControl c = false
  plane : c.toNat ≤ 0xffff
  reserved : c ∉ [':', '*', '?', '\x22', '<', '>', '|']

structure Canonical (path : String) : Prop where
  slash : '/' ∉ path.toList
  characters : ∀ c ∈ path.toList, GoodCharacter c
  root : path.toList.head? = some '\\'
  single : path.toList[1]? ≠ some '\\'
  components : ∀ component ∈ path.toList.tail.splitOn '\\', GoodComponent component

/-- The character that a slash is replaced by. -/
def backslash (c : Char) : Char := if c = '/' then '\\' else c

/-- `path.replace('/', "\\")`. -/
def backslashes (path : String) : String := String.ofList (path.toList.map backslash)

/-- The texts differ in the direction of slashes only. -/
def SameUpToSlashes (path other : String) : Prop :=
  List.Forall₂ (fun a b => a = b ∨ a = '/' ∧ b = '\\' ∨ a = '\\' ∧ b = '/') path.toList other.toList

section Characters

variable {c : Char} {path other : String}

theorem goodCharacter_iff : GoodCharacter c ↔ isReserved c = false := by
  simp only [isReserved, decide_eq_false_iff_not, not_or, Nat.not_lt, Bool.not_eq_true]
  constructor
  · intro good
    exact ⟨good.plane, good.control, good.reserved⟩
  · rintro ⟨plane, control, reserved⟩
    exact ⟨control, plane, reserved⟩

theorem goodComponent_iff {component : List Char} :
    GoodComponent component ↔ isBadComponent component = false := by
  simp only [isBadComponent, decide_eq_false_iff_not, not_or]
  constructor
  · intro good
    exact ⟨good.nonempty, good.current, good.parent, good.dot, good.space⟩
  · rintro ⟨nonempty, current, parent, dot, space⟩
    exact ⟨nonempty, current, parent, dot, space⟩

theorem toList_backslashes : (backslashes path).toList = path.toList.map backslash :=
  String.toList_ofList

theorem backslash_ne : backslash c ≠ '/' := by
  rw [backslash]
  split
  · decide
  · assumption

theorem backslash_of_ne (other : c ≠ '/') : backslash c = c := if_neg other

/-- Both slashes are characters that a path may have. -/
theorem isReserved_backslash : isReserved (backslash c) = isReserved c := by
  rw [backslash]
  split
  · next slash =>
      rw [slash]
      decide
  · rfl

theorem length_backslashes : (backslashes path).length = path.length := by
  rw [← String.length_toList, toList_backslashes, List.length_map, String.length_toList]

/-- A slash takes one unit in either direction. -/
theorem utf16Units_backslashes : utf16Units (backslashes path) = utf16Units path := by
  have same : ∀ c : Char, decide (0x10000 ≤ (backslash c).toNat) = decide (0x10000 ≤ c.toNat) := by
    intro c
    rw [backslash]
    split
    · next slash =>
        rw [slash]
        decide
    · rfl
  rw [utf16Units, utf16Units, length_backslashes, toList_backslashes, List.countP_map]
  congr 2
  exact funext same

theorem backslashes_of_not_mem (clear : '/' ∉ path.toList) : backslashes path = path := by
  have same : path.toList.map backslash = path.toList := by
    conv_rhs => rw [← List.map_id path.toList]
    apply List.map_congr_left
    intro c mem
    exact backslash_of_ne fun slash => clear (slash ▸ mem)
  rw [backslashes, same, String.ofList_toList]

theorem backslashes_eq_of_same (same : SameUpToSlashes path other) :
    backslashes path = backslashes other := by
  have mapped : path.toList.map backslash = other.toList.map backslash := by
    rw [SameUpToSlashes] at same
    generalize path.toList = chars at same
    generalize other.toList = chars' at same
    induction same with
    | nil => rfl
    | cons first _ ih =>
        rw [List.map_cons, List.map_cons, ih]
        rcases first with rfl | ⟨rfl, rfl⟩ | ⟨rfl, rfl⟩ <;> rfl
  rw [backslashes, backslashes, mapped]

end Characters

/-! ### What is accepted -/

section Accepted

variable {path other normal : String}

theorem any_isReserved_backslashes :
    (backslashes path).toList.any isReserved = path.toList.any isReserved := by
  rw [toList_backslashes, List.any_map]
  congr 1
  exact funext fun c => isReserved_backslash

/-- The path is read through its backslashes alone. -/
theorem normalizeAbsolutePath_eq (path : String) : normalizeAbsolutePath path = (do
    rejectIf (utf16Units (backslashes path) > maxPathUtf16Units) .pathTooLong
    rejectIf ((backslashes path).toList.any isReserved) .invalidPath
    rejectIf ((backslashes path).toList.head? ≠ some '\\' ∨
      (backslashes path).toList.take 2 = ['\\', '\\']) .invalidPath
    rejectIf (((backslashes path).toList.tail.splitOn '\\').any isBadComponent) .invalidPath
    pure (backslashes path)) := by
  rw [utf16Units_backslashes, any_isReserved_backslashes, toList_backslashes]
  rfl

theorem take_two_iff {chars : List Char} (root : chars.head? = some '\\') :
    chars.take 2 = ['\\', '\\'] ↔ chars[1]? = some '\\' := by
  cases chars with
  | nil => cases root
  | cons a rest =>
      cases root
      cases rest <;> simp

/-- The slashes are replaced, and what is canonical then is accepted. -/
theorem normalizeAbsolutePath_eq_ok : normalizeAbsolutePath path = .ok normal ↔
    utf16Units path ≤ maxPathUtf16Units ∧ normal = backslashes path ∧ Canonical normal := by
  have clear : '/' ∉ (backslashes path).toList := by
    rw [toList_backslashes, List.mem_map]
    rintro ⟨c, _, slash⟩
    exact backslash_ne slash
  rw [normalizeAbsolutePath_eq, seq_eq_ok, seq_eq_ok, seq_eq_ok, seq_eq_ok, rejectIf_eq_ok,
    rejectIf_eq_ok, rejectIf_eq_ok, rejectIf_eq_ok, pure_eq, ok.injEq, not_or, not_not, Nat.not_lt,
    utf16Units_backslashes, Bool.not_eq_true, Bool.not_eq_true, List.any_eq_false,
    List.any_eq_false]
  constructor
  · rintro ⟨short, characters, ⟨root, single⟩, components, rfl⟩
    refine ⟨short, rfl, clear, ?_, root, ?_, ?_⟩
    · intro c mem
      exact goodCharacter_iff.mpr (Bool.not_eq_true _ ▸ characters c mem)
    · exact fun second => single ((take_two_iff root).mpr second)
    · intro component mem
      exact goodComponent_iff.mpr (Bool.not_eq_true _ ▸ components component mem)
  · rintro ⟨short, rfl, canonical⟩
    refine ⟨short, ?_, ⟨canonical.root, ?_⟩, ?_, rfl⟩
    · intro c mem
      exact Bool.not_eq_true _ ▸ goodCharacter_iff.mp (canonical.characters c mem)
    · exact fun both => canonical.single ((take_two_iff canonical.root).mp both)
    · intro component mem
      exact Bool.not_eq_true _ ▸ goodComponent_iff.mp (canonical.components component mem)

/-- What a normalized path is to the path that was given. -/
structure Normalizes (path normal : String) : Prop where
  length : normal.length = path.length
  canonical : Canonical normal
  again : normalizeAbsolutePath normal = .ok normal

theorem normalizes_of_ok (done : normalizeAbsolutePath path = .ok normal) :
    Normalizes path normal := by
  obtain ⟨short, rfl, canonical⟩ := normalizeAbsolutePath_eq_ok.mp done
  have again := (backslashes_of_not_mem canonical.slash).symm
  refine ⟨length_backslashes, canonical, normalizeAbsolutePath_eq_ok.mpr ⟨?_, again, canonical⟩⟩
  rw [utf16Units_backslashes]
  exact short

/-- What is returned is canonical and returned again; the direction of the slashes does not matter;
and a path of at most 1024 units that is canonical behind the replacement is accepted. -/
theorem normalizeAbsolutePath_canonical :
    (∀ path normal, normalizeAbsolutePath path = .ok normal → Normalizes path normal) ∧
      (∀ path other, SameUpToSlashes path other →
        normalizeAbsolutePath path = normalizeAbsolutePath other) ∧
      ∀ path, utf16Units path ≤ 1024 → Canonical (backslashes path) →
        normalizeAbsolutePath path = .ok (backslashes path) := by
  refine ⟨fun path normal done => normalizes_of_ok done, ?_, ?_⟩
  · intro path other same
    rw [normalizeAbsolutePath_eq, normalizeAbsolutePath_eq, backslashes_eq_of_same same]
  · intro path short canonical
    exact normalizeAbsolutePath_eq_ok.mpr ⟨short, rfl, canonical⟩

/-- A path with both slashes. -/
theorem normalizeAbsolutePath_canonical_sample :
    Normalizes "/EFI\\boot.efi" "\\EFI\\boot.efi" :=
  normalizeAbsolutePath_canonical.1 _ _ (by decide +kernel)

end Accepted

end Nextcore.BootConfig
