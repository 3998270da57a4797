import Nextcore.Lib.Word

/-!
Byte strings, the slices taken of them and the copies made into them.

`window b start size` and `overlay b start src` are the mathematical reading and
writing of a sub-range; `index`, `getRange` and `copyFrom` are the Rust operations
with their bounds checks, and each is the mathematical one when its check passes.
-/

namespace Checked

abbrev Bytes := List UInt8

/-- `string.as_bytes()`. -/
def asBytes (s : String) : Bytes := s.toByteArray.data.toList

theorem asBytes_inj {s t : String} : asBytes s = asBytes t ↔ s = t := by
  rw [asBytes, asBytes, Array.toList_inj, ← String.toByteArray_inj, ByteArray.ext_iff]

/-- `bytes.resize(size, 0)`. -/
def resize (bytes : Bytes) (size : Nat) : Bytes :=
  bytes.take size ++ List.replicate (size - bytes.length) 0

theorem resize_of_le {bytes : Bytes} {size : Nat} (grows : bytes.length ≤ size) :
    resize bytes size = bytes ++ List.replicate (size - bytes.length) 0 := by
  rw [resize, List.take_of_length_le grows]

/-! ### Sub-ranges -/

/-- The `size` bytes from `start` on. -/
def window (bytes : Bytes) (start size : Nat) : Bytes := (bytes.drop start).take size

/-- `bytes` with `src` written from `start` on. What would lie past the end is dropped, so
the length never changes. -/
def overlay : Bytes → Nat → Bytes → Bytes
  | [], _, _ => []
  | b :: rest, n + 1, src => b :: overlay rest n src
  | b :: rest, 0, [] => b :: rest
  | _ :: rest, 0, x :: xs => x :: overlay rest 0 xs

theorem getElem?_window (bytes : Bytes) (start size i : Nat) :
    (window bytes start size)[i]? = if i < size then bytes[start + i]? else none := by
  rw [window, List.getElem?_take]
  split <;> simp

theorem length_window {bytes : Bytes} {start size : Nat} (fits : start + size ≤ bytes.length) :
    (window bytes start size).length = size := by
  rw [window, List.length_take, List.length_drop]
  omega

/-- Two byte strings have the same window when they agree at every index in it. -/
theorem window_eq_window {a b : Bytes} {start start' size : Nat} :
    window a start size = window b start' size ↔
      ∀ i < size, a[start + i]? = b[start' + i]? := by
  constructor
  · intro same i inside
    have at_i := congrArg (fun w : Bytes => w[i]?) same
    simpa [getElem?_window, inside] using at_i
  · intro agree
    apply List.ext_getElem?
    intro i
    rw [getElem?_window, getElem?_window]
    split
    · exact agree i ‹_›
    · rfl

/-- Agreement on a range is agreement on its two parts. -/
theorem window_add_eq_window {a b : Bytes} {start start' size size' : Nat} :
    window a start (size + size') = window b start' (size + size') ↔
      window a start size = window b start' size ∧
        window a (start + size) size' = window b (start' + size) size' := by
  simp only [window_eq_window]
  constructor
  · intro agree
    refine ⟨fun i inside => agree i (by omega), fun i inside => ?_⟩
    rw [Nat.add_assoc, Nat.add_assoc]
    exact agree (size + i) (by omega)
  · rintro ⟨front, back⟩ i inside
    by_cases before : i < size
    · exact front i before
    · have there := back (i - size) (by omega)
      rwa [Nat.add_assoc, Nat.add_assoc, Nat.add_sub_cancel' (Nat.le_of_not_lt before)] at there

/-- A window is a byte string when it agrees with it at every index. -/
theorem window_eq_iff {bytes wanted : Bytes} {start stop : Nat} (ordered : start ≤ stop)
    (fits : stop ≤ bytes.length) (sized : wanted.length = stop - start) :
    window bytes start (stop - start) = wanted ↔
      ∀ i, start ≤ i → i < stop → bytes[i]? = wanted[i - start]? := by
  have length : (window bytes start (stop - start)).length = stop - start :=
    length_window (by omega)
  constructor
  · intro same i after before
    rw [← same, getElem?_window, if_pos (by omega), Nat.add_sub_cancel' after]
  · intro agree
    apply List.ext_getElem?
    intro k
    by_cases inside : k < stop - start
    · rw [getElem?_window, if_pos inside, agree (start + k) (by omega) (by omega),
        Nat.add_sub_cancel_left]
    · rw [List.getElem?_eq_none (by omega), List.getElem?_eq_none (by omega)]

/-- A window of a window. -/
theorem window_window (bytes : Bytes) {start size offset size' : Nat}
    (fits : offset + size' ≤ size) :
    window (window bytes start size) offset size' = window bytes (start + offset) size' := by
  rw [window_eq_window]
  intro i inside
  rw [getElem?_window, if_pos (by omega), Nat.add_assoc]

theorem window_all {bytes : Bytes} {size : Nat} (length : bytes.length = size) :
    window bytes 0 size = bytes := by
  rw [window, List.drop_zero, List.take_of_length_le (Nat.le_of_eq length)]

/-- A window that ends before new bytes is as it was. -/
theorem window_append_of_le {bytes rest : Bytes} {start size : Nat}
    (fits : start + size ≤ bytes.length) :
    window (bytes ++ rest) start size = window bytes start size := by
  rw [window_eq_window]
  intro i inside
  rw [List.getElem?_append_left (by omega)]

theorem window_replicate {n start size : Nat} {b : UInt8} (fits : start + size ≤ n) :
    window (List.replicate n b) start size = List.replicate size b := by
  rw [window, List.drop_replicate, List.take_replicate, Nat.min_eq_left (by omega)]

theorem window_append_of_ge {bytes rest : Bytes} {start size : Nat}
    (past : bytes.length ≤ start) :
    window (bytes ++ rest) start size = window rest (start - bytes.length) size := by
  rw [window, window, List.drop_append, List.drop_of_length_le past, List.nil_append]

@[simp] theorem length_overlay (bytes : Bytes) (start : Nat) (src : Bytes) :
    (overlay bytes start src).length = bytes.length := by
  induction bytes generalizing start src with
  | nil => rfl
  | cons b rest ih =>
      cases start with
      | succ n => simp [overlay, ih]
      | zero => cases src <;> simp [overlay, ih]

theorem getElem?_overlay (bytes : Bytes) (start : Nat) (src : Bytes) (i : Nat) :
    (overlay bytes start src)[i]? =
      if start ≤ i ∧ i < start + src.length ∧ i < bytes.length then src[i - start]?
      else bytes[i]? := by
  induction bytes generalizing start src i with
  | nil => simp [overlay]
  | cons b rest ih =>
      cases start with
      | succ n =>
          cases i with
          | zero => simp [overlay]
          | succ i =>
              simp only [overlay, List.getElem?_cons_succ, ih, List.length_cons,
                Nat.add_sub_add_right]
              congr 1
              simp only [eq_iff_iff]
              omega
      | zero =>
          cases src with
          | nil =>
              have never : ¬ (0 ≤ i ∧ i < 0 + ([] : Bytes).length ∧ i < (b :: rest).length) := by
                simp
              rw [if_neg never]
              rfl
          | cons x xs =>
              cases i with
              | zero => simp [overlay]
              | succ i =>
                  simp only [overlay, List.getElem?_cons_succ, ih, List.length_cons, Nat.sub_zero]
                  congr 1
                  simp only [eq_iff_iff]
                  omega

/-- Writing at one range leaves every window apart from it as it was. -/
theorem window_overlay_of_apart {bytes src : Bytes} {start at' size : Nat}
    (apart : at' + size ≤ start ∨ start + src.length ≤ at') :
    window (overlay bytes start src) at' size = window bytes at' size := by
  rw [window_eq_window]
  intro i inside
  rw [getElem?_overlay, if_neg (by omega)]

/-- A range that fits holds, once written, exactly what was written. -/
theorem window_overlay_self {bytes src : Bytes} {start : Nat}
    (fits : start + src.length ≤ bytes.length) :
    window (overlay bytes start src) start src.length = src := by
  apply List.ext_getElem?
  intro i
  rw [getElem?_window]
  split
  · rw [getElem?_overlay, if_pos (by omega), Nat.add_sub_cancel_left]
  · rw [List.getElem?_eq_none (by omega)]

/-- `after` is `before` with `src` from `start` on, and nothing else changed. -/
structure Patched (before after : Bytes) (start : Nat) (src : Bytes) : Prop where
  fits : start + src.length ≤ before.length
  length : after.length = before.length
  written : window after start src.length = src
  rest : ∀ i, i < start ∨ start + src.length ≤ i → after[i]? = before[i]?

theorem patched_overlay {bytes src : Bytes} {start : Nat}
    (fits : start + src.length ≤ bytes.length) :
    Patched bytes (overlay bytes start src) start src where
  fits := fits
  length := length_overlay ..
  written := window_overlay_self fits
  rest := by
    intro i outside
    rw [getElem?_overlay, if_neg (by omega)]

/-- `a.iter().zip(b).filter(|(a, b)| a != b).count()`. -/
def differences (a b : Bytes) : Nat := (a.zip b).countP fun pair => pair.1 ≠ pair.2

theorem differences_self (bytes : Bytes) : differences bytes bytes = 0 := by
  induction bytes with
  | nil => rfl
  | cons b rest ih =>
      rw [differences, List.zip_cons_cons, List.countP_cons_of_neg (by simp)]
      exact ih

theorem differences_append {a b c d : Bytes} (length : a.length = c.length) :
    differences (a ++ b) (c ++ d) = differences a c + differences b d := by
  rw [differences, List.zip_append length, List.countP_append]
  rfl

/-- A byte string is its front, a window and what follows it. -/
theorem take_append_window_append_drop (bytes : Bytes) (start size : Nat) :
    bytes.take start ++ (window bytes start size ++ bytes.drop (start + size)) = bytes := by
  rw [window, ← List.drop_drop, List.take_append_drop, List.take_append_drop]

theorem overlay_eq_append {bytes src : Bytes} {start : Nat}
    (fits : start + src.length ≤ bytes.length) :
    overlay bytes start src = bytes.take start ++ (src ++ bytes.drop (start + src.length)) := by
  have front : (overlay bytes start src).take start = bytes.take start := by
    have same : window (overlay bytes start src) 0 start = window bytes 0 start :=
      window_overlay_of_apart (.inl (by omega))
    rwa [window, window, List.drop_zero, List.drop_zero] at same
  have back : (overlay bytes start src).drop (start + src.length) =
      bytes.drop (start + src.length) := by
    apply List.ext_getElem?
    intro i
    rw [List.getElem?_drop, List.getElem?_drop, getElem?_overlay, if_neg (by omega)]
  have whole := take_append_window_append_drop (overlay bytes start src) start src.length
  rw [front, back, window_overlay_self fits] at whole
  exact whole.symm

/-- An overlay on bytes that are still the old ones adds the differences of what it writes. -/
theorem differences_overlay {old bytes src : Bytes} {start : Nat}
    (length : bytes.length = old.length) (fits : start + src.length ≤ old.length)
    (same : window bytes start src.length = window old start src.length) :
    differences old (overlay bytes start src) =
      differences old bytes + differences (window old start src.length) src := by
  have sized : (window old start src.length).length = src.length := length_window fits
  have front : (old.take start).length = (bytes.take start).length := by
    rw [List.length_take, List.length_take, length]
  have parts := take_append_window_append_drop old start src.length
  have parts' := take_append_window_append_drop bytes start src.length
  have written : differences old (overlay bytes start src) =
      differences (old.take start) (bytes.take start) +
      (differences (window old start src.length) src +
        differences (old.drop (start + src.length)) (bytes.drop (start + src.length))) := by
    conv_lhs => rw [← parts, overlay_eq_append (length ▸ fits)]
    rw [differences_append front, differences_append sized]
  have kept : differences old bytes = differences (old.take start) (bytes.take start) +
      (0 + differences (old.drop (start + src.length)) (bytes.drop (start + src.length))) := by
    conv_lhs => rw [← parts, ← parts', same]
    rw [differences_append front, differences_append rfl, differences_self]
  omega

/-! ### Rust slices -/

section Slices

open Outcome

variable {ε : Type}

/-- `&bytes[start..stop]`: a range that is reversed or too long is a panic. -/
def index (bytes : Bytes) (start stop : Nat) : Outcome ε Bytes :=
  if start ≤ stop ∧ stop ≤ bytes.length then .ok (window bytes start (stop - start)) else .panic

/-- `&bytes[start..]`. -/
def indexFrom (bytes : Bytes) (start : Nat) : Outcome ε Bytes :=
  index bytes start bytes.length

/-- `bytes[i]`. -/
def byteAt (bytes : Bytes) (i : Nat) : Outcome ε UInt8 := .expect bytes[i]?

/-- `bytes.get(start..stop)`. -/
def getRange (bytes : Bytes) (start stop : Nat) : Option Bytes :=
  if start ≤ stop ∧ stop ≤ bytes.length then some (window bytes start (stop - start)) else none

/-- `bytes[start..stop].copy_from_slice(src)`: the lengths have to agree. -/
def copyFrom (bytes : Bytes) (start stop : Nat) (src : Bytes) : Outcome ε Bytes :=
  if start ≤ stop ∧ stop ≤ bytes.length ∧ stop - start = src.length then
    .ok (overlay bytes start src)
  else .panic

@[simp] theorem index_eq_ok {bytes out : Bytes} {start stop : Nat} :
    (index bytes start stop : Outcome ε Bytes) = .ok out ↔
      (start ≤ stop ∧ stop ≤ bytes.length) ∧ window bytes start (stop - start) = out := by
  unfold index
  split <;> simp_all

theorem index_of_le {bytes : Bytes} {start stop : Nat} (ordered : start ≤ stop)
    (fits : stop ≤ bytes.length) :
    (index bytes start stop : Outcome ε Bytes) = .ok (window bytes start (stop - start)) :=
  if_pos ⟨ordered, fits⟩

theorem byteAt_of_lt {bytes : Bytes} {i : Nat} (inside : i < bytes.length) :
    (byteAt bytes i : Outcome ε UInt8) = .ok bytes[i] := by
  rw [byteAt, List.getElem?_eq_getElem inside, expect_some]

@[simp] theorem index_ne_err {bytes : Bytes} {start stop : Nat} {e : ε} :
    index bytes start stop ≠ .err e := by
  unfold index
  split <;> simp

@[simp] theorem index_ne_panic_iff {bytes : Bytes} {start stop : Nat} :
    (index bytes start stop : Outcome ε Bytes) ≠ .panic ↔ start ≤ stop ∧ stop ≤ bytes.length := by
  unfold index
  split <;> simp_all

theorem getRange_eq_some {bytes out : Bytes} {start stop : Nat} :
    getRange bytes start stop = some out ↔
      (start ≤ stop ∧ stop ≤ bytes.length) ∧ window bytes start (stop - start) = out := by
  unfold getRange
  split <;> simp_all

@[simp] theorem copyFrom_eq_ok {bytes src out : Bytes} {start stop : Nat} :
    (copyFrom bytes start stop src : Outcome ε Bytes) = .ok out ↔
      (start ≤ stop ∧ stop ≤ bytes.length ∧ stop - start = src.length) ∧
        overlay bytes start src = out := by
  unfold copyFrom
  split <;> simp_all

/-- A copy to where it fits. -/
theorem copyFrom_of_le {bytes src : Bytes} {start : Nat}
    (fits : start + src.length ≤ bytes.length) :
    (copyFrom bytes start (start + src.length) src : Outcome ε Bytes) =
      .ok (overlay bytes start src) :=
  copyFrom_eq_ok.mpr ⟨⟨Nat.le_add_right _ _, fits, Nat.add_sub_cancel_left ..⟩, rfl⟩

end Slices

/-- `bytes.chunks_exact(size)`: a last partial chunk is dropped. -/
def chunksExact (bytes : Bytes) (size : Nat) : List Bytes :=
  (List.range (bytes.length / size)).map fun i => window bytes (i * size) size

theorem length_of_mem_chunksExact {bytes chunk : Bytes} {size : Nat}
    (mem : chunk ∈ chunksExact bytes size) : chunk.length = size := by
  obtain ⟨i, inside, rfl⟩ := List.mem_map.mp mem
  refine length_window ?_
  have below := Nat.mul_le_mul_right size (Nat.succ_le_of_lt (List.mem_range.mp inside))
  have whole := Nat.div_mul_le_self bytes.length size
  rw [Nat.succ_mul] at below
  omega

theorem chunksExact_append {chunk rest : Bytes} {size : Nat} (positive : 0 < size)
    (length : chunk.length = size) :
    chunksExact (chunk ++ rest) size = chunk :: chunksExact rest size := by
  have count : (chunk ++ rest).length / size = rest.length / size + 1 := by
    rw [List.length_append, length, Nat.add_comm, Nat.add_div_right _ positive]
  rw [chunksExact, count, List.range_succ_eq_map, List.map_cons, List.map_map, Nat.zero_mul,
    window_append_of_le (by omega), window_all length, chunksExact]
  congr 1
  refine List.map_congr_left fun i _ => ?_
  rw [Function.comp_apply, Nat.succ_mul, window_append_of_ge (by omega), length,
    Nat.add_sub_cancel]

/-- Chunks that leave nothing over. -/
theorem flatten_chunksExact {bytes : Bytes} {size n : Nat} (positive : 0 < size)
    (length : bytes.length = n * size) : (chunksExact bytes size).flatten = bytes := by
  induction n generalizing bytes with
  | zero =>
      rw [Nat.zero_mul, List.length_eq_zero_iff] at length
      subst length
      rw [chunksExact, List.length_nil, Nat.zero_div]
      rfl
  | succ n ih =>
      rw [Nat.succ_mul] at length
      have first : (bytes.take size).length = size := by
        rw [List.length_take]
        omega
      rw [← List.take_append_drop size bytes, chunksExact_append positive first,
        List.flatten_cons, ih (by rw [List.length_drop]; omega)]

theorem chunksExact_flatMap {α : Type} {f : α → Bytes} {size : Nat} (positive : 0 < size)
    (each : ∀ a, (f a).length = size) (list : List α) :
    chunksExact (list.flatMap f) size = list.map f := by
  induction list with
  | nil =>
      rw [List.flatMap_nil, chunksExact, List.length_nil, Nat.zero_div]
      rfl
  | cons a rest ih =>
      rw [List.flatMap_cons, chunksExact_append positive (each a), ih, List.map_cons]

/-! ### Little-endian words -/

/-- `from_le_bytes`. -/
def fromLeBytes : Bytes → Nat
  | [] => 0
  | b :: rest => b.toNat + 256 * fromLeBytes rest

/-- `to_le_bytes`, in `width` bytes. -/
def toLeBytes : Nat → Nat → Bytes
  | 0, _ => []
  | width + 1, n => UInt8.ofNat n :: toLeBytes width (n / 256)

theorem fromLeBytes_lt (bytes : Bytes) : fromLeBytes bytes < 256 ^ bytes.length := by
  induction bytes with
  | nil => simp [fromLeBytes]
  | cons b rest ih =>
      have low : b.toNat < 256 := b.toNat_lt
      rw [fromLeBytes, List.length_cons, Nat.pow_succ]
      omega

/-- A word is zero when its bytes are. -/
theorem fromLeBytes_eq_zero {bytes : Bytes} : fromLeBytes bytes = 0 ↔ ∀ b ∈ bytes, b = 0 := by
  induction bytes with
  | nil => simp [fromLeBytes]
  | cons b rest ih =>
      rw [fromLeBytes, List.forall_mem_cons, ← ih, ← UInt8.toNat_inj]
      simp

/-- Byte strings of one length are told apart by their values. -/
theorem fromLeBytes_inj {a b : Bytes} (length : a.length = b.length) :
    fromLeBytes a = fromLeBytes b ↔ a = b := by
  induction a generalizing b with
  | nil =>
      cases b with
      | nil => simp
      | cons y ys => cases length
  | cons x xs ih =>
      cases b with
      | nil => cases length
      | cons y ys =>
          have low : x.toNat < 256 := x.toNat_lt
          have low' : y.toNat < 256 := y.toNat_lt
          rw [fromLeBytes, fromLeBytes, List.cons.injEq, ← UInt8.toNat_inj,
            ← ih (Nat.succ.inj length)]
          omega

@[simp] theorem length_toLeBytes (width n : Nat) : (toLeBytes width n).length = width := by
  induction width generalizing n with
  | zero => rfl
  | succ width ih => rw [toLeBytes, List.length_cons, ih]

/-- The low bytes of a word are the word in fewer bytes. -/
theorem take_toLeBytes {width short n : Nat} (fits : short ≤ width) :
    (toLeBytes width n).take short = toLeBytes short n := by
  induction width generalizing short n with
  | zero =>
      obtain rfl := Nat.le_zero.mp fits
      rfl
  | succ width ih =>
      cases short with
      | zero => rfl
      | succ short =>
          rw [toLeBytes, List.take_succ_cons, ih (Nat.le_of_succ_le_succ fits)]
          rfl

/-- A word that fits its width is read back as it was written. -/
theorem fromLeBytes_toLeBytes {width n : Nat} (fits : n < 256 ^ width) :
    fromLeBytes (toLeBytes width n) = n := by
  induction width generalizing n with
  | zero =>
      rw [Nat.pow_zero] at fits
      rw [toLeBytes, fromLeBytes]
      omega
  | succ width ih =>
      rw [Nat.pow_succ] at fits
      have low : (UInt8.ofNat n).toNat = n % 256 := UInt8.toNat_ofNat'
      rw [toLeBytes, fromLeBytes, ih (by omega), low]
      omega

/-- A byte string is what its value is written as. -/
theorem toLeBytes_fromLeBytes (bytes : Bytes) :
    toLeBytes bytes.length (fromLeBytes bytes) = bytes := by
  refine (fromLeBytes_inj (length_toLeBytes ..)).mp ?_
  exact fromLeBytes_toLeBytes (fromLeBytes_lt bytes)

theorem toLeBytes_inj {width a b : Nat} (ha : a < 256 ^ width) (hb : b < 256 ^ width) :
    toLeBytes width a = toLeBytes width b ↔ a = b := by
  constructor
  · intro same
    rw [← fromLeBytes_toLeBytes ha, same, fromLeBytes_toLeBytes hb]
  · rintro rfl
    rfl

/-- The word of `width` bytes at `offset`. -/
def wordAt (width : Nat) (bytes : Bytes) (offset : Nat) : Nat :=
  fromLeBytes (window bytes offset width)

theorem wordAt_lt {width offset : Nat} {bytes : Bytes} (inside : offset + width ≤ bytes.length) :
    wordAt width bytes offset < 256 ^ width := by
  have below := fromLeBytes_lt (window bytes offset width)
  rwa [length_window inside] at below

/-- A word of a window is a word of the whole. -/
theorem wordAt_window {width offset start size : Nat} {bytes : Bytes}
    (inside : offset + width ≤ size) :
    wordAt width (window bytes start size) offset = wordAt width bytes (start + offset) := by
  have same :
    window (window bytes start size) offset width = window bytes (start + offset) width := by
    rw [window_eq_window]
    intro i below
    rw [getElem?_window, if_pos (by omega), Nat.add_assoc]
  rw [wordAt, same, wordAt]

/-! ### Records of words -/

/-- Words written one after the other, each with its width in front. -/
def packWords (fields : List (Nat × Nat)) : Bytes :=
  fields.flatMap fun field => toLeBytes field.1 field.2

theorem length_packWords (fields : List (Nat × Nat)) :
    (packWords fields).length = (fields.map Prod.fst).sum := by
  induction fields with
  | nil => rfl
  | cons field rest ih =>
      rw [packWords, List.flatMap_cons, List.length_append, length_toLeBytes, List.map_cons,
        List.sum_cons, ← ih]
      rfl

/-- A field of a record starts where those before it end. -/
theorem packWords_eq_append {fields : List (Nat × Nat)} {k width n : Nat}
    (field : fields[k]? = some (width, n)) :
    packWords fields =
      packWords (fields.take k) ++ (toLeBytes width n ++ packWords (fields.drop (k + 1))) := by
  obtain ⟨inside, at_k⟩ := List.getElem?_eq_some_iff.mp field
  have split : fields = fields.take k ++ (width, n) :: fields.drop (k + 1) := by
    rw [← at_k, List.getElem_cons_drop, List.take_append_drop]
  conv_lhs => rw [split, packWords, List.flatMap_append, List.flatMap_cons]
  rfl

theorem window_packWords {fields : List (Nat × Nat)} {k width n : Nat} (front rest : Bytes)
    (field : fields[k]? = some (width, n)) :
    window (front ++ (packWords fields ++ rest))
      (front.length + ((fields.take k).map Prod.fst).sum) width = toLeBytes width n := by
  have before : (front ++ packWords (fields.take k)).length =
      front.length + ((fields.take k).map Prod.fst).sum := by
    rw [List.length_append, length_packWords]
  rw [packWords_eq_append field, List.append_assoc, List.append_assoc, ← List.append_assoc front,
    ← before, window_append_of_ge (Nat.le_refl _), Nat.sub_self,
    window_append_of_le (by rw [length_toLeBytes]; omega), window_all (length_toLeBytes ..)]

end Checked
