set_option autoImplicit false

/-! # Byte lengths

Offsets into a source text count the bytes of its UTF-8 form, while the text itself is
handled as a list of characters. This module converts between the two.
-/

namespace SmallLisp.Text

/-- The number of bytes that a text takes in UTF-8. -/
def byteLength : List Char → Nat
  | [] => 0
  | c :: cs => c.utf8Size + byteLength cs

@[simp]
theorem byteLength_nil : byteLength [] = 0 := rfl

@[simp]
theorem byteLength_cons (c : Char) (cs : List Char) :
    byteLength (c :: cs) = c.utf8Size + byteLength cs := rfl

@[simp]
theorem byteLength_append (as bs : List Char) :
    byteLength (as ++ bs) = byteLength as + byteLength bs := by
  induction as with
  | nil => simp
  | cons c as ih =>
      rw [List.cons_append, byteLength_cons, byteLength_cons, ih]
      omega

theorem byteLength_pos {cs : List Char} (h : cs ≠ []) : 0 < byteLength cs := by
  cases cs with
  | nil => exact absurd rfl h
  | cons c cs =>
      have := c.utf8Size_pos
      rw [byteLength_cons]
      omega

/-- The longest start of a text that takes at most `n` bytes. On an offset that falls between
two characters this is exactly the text before it. -/
def takeBytes (n : Nat) : List Char → List Char
  | [] => []
  | c :: cs => if c.utf8Size ≤ n then c :: takeBytes (n - c.utf8Size) cs else []

/-- What `takeBytes` leaves. -/
def dropBytes (n : Nat) : List Char → List Char
  | [] => []
  | c :: cs => if c.utf8Size ≤ n then dropBytes (n - c.utf8Size) cs else c :: cs

theorem takeBytes_append_dropBytes (n : Nat) (cs : List Char) :
    takeBytes n cs ++ dropBytes n cs = cs := by
  induction cs generalizing n with
  | nil => rfl
  | cons c cs ih =>
      unfold takeBytes dropBytes
      split
      · simp [ih]
      · simp

/-- A text is cut where the length of its front says. -/
theorem dropBytes_byteLength_append (front rest : List Char) :
    dropBytes (byteLength front) (front ++ rest) = rest := by
  induction front with
  | nil =>
      cases rest with
      | nil => rfl
      | cons c rest =>
          have hpos := c.utf8Size_pos
          simp only [byteLength_nil, List.nil_append, dropBytes]
          rw [if_neg (by omega)]
  | cons c front ih =>
      simp only [List.cons_append, dropBytes, byteLength_cons]
      rw [if_pos (Nat.le_add_right _ _), Nat.add_sub_cancel_left, ih]

theorem takeBytes_byteLength_append (front rest : List Char) :
    takeBytes (byteLength front) (front ++ rest) = front := by
  have hsplit := takeBytes_append_dropBytes (byteLength front) (front ++ rest)
  rw [dropBytes_byteLength_append] at hsplit
  exact List.append_cancel_right hsplit

/-- What a text has between two offsets. -/
def slice (start stop : Nat) (cs : List Char) : List Char :=
  takeBytes (stop - start) (dropBytes start cs)

theorem slice_append (front text rest : List Char) :
    slice (byteLength front) (byteLength front + byteLength text) (front ++ (text ++ rest)) =
      text := by
  rw [slice, dropBytes_byteLength_append, Nat.add_sub_cancel_left, takeBytes_byteLength_append]

end SmallLisp.Text
