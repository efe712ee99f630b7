import Mathlib.Algebra.Order.Ring.Nat

set_option autoImplicit false

/-! # The order of strings by their bytes

Strings are compared character by character. To compare the bytes of their UTF-8 form one after the
other comes to the same (`bytes_lt_bytes`), because of two characters the greater one has the
greater bytes. The first byte of a character tells how many bytes follow and holds the highest bits
of its number; each of those that follow holds six bits more (`utf8EncodeChar_eq`). So a first byte
that is followed by more bytes is greater, and with as many bytes the highest bits come first.
-/

namespace SmallLisp.Text

/-- The bytes of a string. -/
def bytes (s : String) : List UInt8 := s.toUTF8.data.toList

theorem bytes_eq_flatMap (s : String) : bytes s = s.toList.flatMap String.utf8EncodeChar := by
  have hencode : s.toUTF8 = s.toList.utf8Encode := String.utf8Encode_toList.symm
  rw [bytes, hencode]
  exact List.toList_data_toByteArray

/-! ## One character -/

/-- How many bytes follow the first byte of a character. -/
def following (n : Nat) : Nat :=
  if n ≤ 127 then 0 else if n ≤ 2047 then 1 else if n ≤ 65535 then 2 else 3

/-- The mark by which a first byte tells how many bytes follow. -/
def mark : Nat → Nat
  | 0 => 0
  | 1 => 192
  | 2 => 224
  | _ => 240

/-- The first byte of a character: the mark, and the bits that the bytes after it do not hold. -/
def lead (n : Nat) : Nat := n / 64 ^ following n + mark (following n)

/-- The bytes that follow, with six bits each. -/
def continuation (n : Nat) : Nat → List UInt8
  | 0 => []
  | k + 1 => UInt8.ofNat (n / 64 ^ k % 64 + 128) :: continuation n k

theorem toNat_val_lt (c : Char) : c.val.toNat < 1114112 := by
  have hvalid : c.val.toNat.isValidChar := c.valid
  unfold Nat.isValidChar at hvalid
  omega

theorem utf8EncodeChar_eq (c : Char) :
    String.utf8EncodeChar c =
      UInt8.ofNat (lead c.val.toNat) :: continuation c.val.toNat (following c.val.toNat) := by
  have hlt := toNat_val_lt c
  simp only [String.utf8EncodeChar, lead, following]
  generalize c.val.toNat = n at hlt
  split_ifs
  · simp [continuation, mark]
  · rw [Nat.mod_eq_of_lt (by omega : n / 64 < 32)]
    simp [continuation, mark]
  · rw [Nat.mod_eq_of_lt (by omega : n / 4096 < 16)]
    simp [continuation, mark]
  · rw [Nat.mod_eq_of_lt (by omega : n / 262144 < 8)]
    simp [continuation, mark]

section

variable {m n : Nat}

theorem lead_lt_256 (hn : n < 1114112) : lead n < 256 := by
  unfold lead following
  split_ifs <;> simp only [mark] <;> omega

/-- **The first byte of the greater number is greater**, or the two have the same highest bits and
as many bytes to follow. -/
theorem lead_lt_or_eq (h : m < n) (hn : n < 1114112) :
    lead m < lead n ∨
      following m = following n ∧ m / 64 ^ following m = n / 64 ^ following m := by
  unfold lead following
  split_ifs <;> simp only [mark, true_and] <;> omega

theorem ofNat_cons_lt (h : m < n) (hn : n < 256) (s t : List UInt8) :
    UInt8.ofNat m :: s < UInt8.ofNat n :: t :=
  List.cons_lt_cons_iff.2 (.inl ((UInt8.ofNat_lt_iff_lt (Nat.lt_trans h hn) hn).2 h))

theorem continuation_lt (h : m < n) {k : Nat} (heq : m / 64 ^ k = n / 64 ^ k) (s t : List UInt8) :
    continuation m k ++ s < continuation n k ++ t := by
  induction k with
  | zero =>
      rw [Nat.pow_zero, Nat.div_one, Nat.div_one] at heq
      omega
  | succ k ih =>
      have hquotient : m / 64 ^ k / 64 = n / 64 ^ k / 64 := by
        rwa [Nat.div_div_eq_div_mul, Nat.div_div_eq_div_mul, ← Nat.pow_succ]
      have hle : m / 64 ^ k ≤ n / 64 ^ k := Nat.div_le_div_right (Nat.le_of_lt h)
      rcases Nat.lt_or_eq_of_le hle with hlt | hsame
      · exact ofNat_cons_lt (by omega) (by omega) _ _
      · rw [continuation, continuation, hsame]
        exact List.cons_lt_cons_iff.2 (.inr ⟨rfl, ih hsame⟩)

end

/-- **The greater character has the greater bytes**, whatever follows the two. -/
theorem utf8EncodeChar_append_lt {c d : Char} (h : c < d) (s t : List UInt8) :
    String.utf8EncodeChar c ++ s < String.utf8EncodeChar d ++ t := by
  have hlt : c.val.toNat < d.val.toNat := UInt32.lt_iff_toNat_lt.1 h
  have hd := toNat_val_lt d
  rw [utf8EncodeChar_eq, utf8EncodeChar_eq]
  rcases lead_lt_or_eq hlt hd with hlead | ⟨hfollowing, hbits⟩
  · exact ofNat_cons_lt hlead (lead_lt_256 hd) _ _
  · have hlead : lead c.val.toNat = lead d.val.toNat := by
      rw [lead, lead, ← hfollowing, hbits]
    rw [hlead, ← hfollowing]
    exact List.cons_lt_cons_iff.2 (.inr ⟨rfl, continuation_lt hlt hbits s t⟩)

/-! ## Strings -/

theorem flatMap_utf8EncodeChar_lt {as bs : List Char} (h : as < bs) :
    as.flatMap String.utf8EncodeChar < bs.flatMap String.utf8EncodeChar := by
  induction h with
  | @nil b bs =>
      obtain ⟨byte, later, hbytes⟩ := List.exists_cons_of_ne_nil (@String.utf8EncodeChar_ne_nil b)
      rw [List.flatMap_cons, hbytes]
      exact List.nil_lt_cons _ _
  | rel h => exact utf8EncodeChar_append_lt h _ _
  | cons _ ih => exact List.append_left_lt ih

/-- **The greater string has the greater bytes.** -/
theorem bytes_lt_bytes {a b : String} (h : a < b) : bytes a < bytes b := by
  rw [bytes_eq_flatMap, bytes_eq_flatMap]
  exact flatMap_utf8EncodeChar_lt (String.lt_iff.1 h)

/-- A string is known by its bytes. -/
theorem eq_of_bytes_eq {a b : String} (h : bytes a = bytes b) : a = b :=
  String.toByteArray_inj.1 (ByteArray.ext (Array.toList_inj.1 h))

end SmallLisp.Text
