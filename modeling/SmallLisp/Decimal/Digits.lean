set_option autoImplicit false

/-! # Decimal digits

Natural numbers as lists of the characters `0` to `9`, most significant first. Everything
that prints or reads a number goes through `digits` and `value`; `value_digits` says that
the two are inverse, so a number that has been written is read back unchanged.
-/

namespace SmallLisp.Decimal

/-- The character of a digit below ten. -/
def digitChar (d : Nat) : Char := Char.ofNat (48 + d)

/-- The digit a character stands for; meaningful on `0` to `9` only. -/
def digitValue (c : Char) : Nat := c.toNat - 48

/-- The decimal digits of `n`, most significant first and without leading zeros; zero is
written as one digit. -/
def digits (n : Nat) : List Char :=
  if n < 10 then [digitChar n] else digits (n / 10) ++ [digitChar (n % 10)]

/-- The number that a list of digits denotes. -/
def value (cs : List Char) : Nat := cs.foldl (fun n c => 10 * n + digitValue c) 0

/-! ## Writing and reading back -/

theorem digitValue_digitChar {d : Nat} (h : d < 10) : digitValue (digitChar d) = d := by
  have : ∀ k : Fin 10, digitValue (digitChar k) = k := by decide
  exact this ⟨d, h⟩

theorem isDigit_digitChar {d : Nat} (h : d < 10) : (digitChar d).isDigit = true := by
  have : ∀ k : Fin 10, (digitChar k).isDigit = true := by decide
  exact this ⟨d, h⟩

theorem value_append_singleton (cs : List Char) (c : Char) :
    value (cs ++ [c]) = 10 * value cs + digitValue c := by
  simp [value]

/-- Reading the digits of a number gives the number back. -/
@[simp]
theorem value_digits (n : Nat) : value (digits n) = n := by
  fun_induction digits n with
  | case1 n h => simp [value, digitValue_digitChar h]
  | case2 n h ih =>
      rw [value_append_singleton, ih, digitValue_digitChar (Nat.mod_lt _ (by omega))]
      omega

theorem isDigit_of_mem_digits {n : Nat} {c : Char} (h : c ∈ digits n) : c.isDigit = true := by
  fun_induction digits n with
  | case1 n hn =>
      simp only [List.mem_singleton] at h
      subst h
      exact isDigit_digitChar hn
  | case2 n _ ih =>
      rcases List.mem_append.1 h with h | h
      · exact ih h
      · simp only [List.mem_singleton] at h
        subst h
        exact isDigit_digitChar (Nat.mod_lt _ (by omega))

theorem digits_ne_nil (n : Nat) : digits n ≠ [] := by
  fun_cases digits n <;> simp

end SmallLisp.Decimal
