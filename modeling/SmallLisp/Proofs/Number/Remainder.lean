import Mathlib.Tactic.Common
import SmallLisp.Eval.Builtin

set_option autoImplicit false

/-! # Remainders are floored

`Number.mod` computes the remainder of truncated division and corrects it where its sign is not
that of the divisor. What comes out is said here without any division (`IsRemainder`): taken from
the dividend it leaves a multiple of the divisor, and it lies between zero and the divisor, zero
included. There is only one such integer.

The correction moves a remainder to the other side of zero and no further than the divisor, so it
stays in range. All that can leave the range is the quotient, and only if the least integer is
divided by `-1`.

The builtin takes its arguments in from left to right, but it looks at all of them before the first
step. So an argument that is no integer is refused even behind a divisor that is zero.
-/

namespace SmallLisp

namespace Number

/-! ## One step -/

/-- **A floored remainder**: it differs from the dividend by a multiple of the divisor, and it is on
the divisor's side of zero and closer to zero than the divisor. -/
structure IsRemainder (a b r : Int) : Prop where
  multiple : b ∣ a - r
  between : 0 ≤ r ∧ r < b ∨ b < r ∧ r ≤ 0

/-- The truncated remainder is not zero and differs in sign from the divisor. -/
def NeedsCorrection (a b : Int) : Prop := a.tmod b ≠ 0 ∧ ¬ (a.tmod b < 0 ↔ b < 0)

instance (a b : Int) : Decidable (NeedsCorrection a b) := inferInstanceAs (Decidable (_ ∧ _))

section

variable {a b r r' : Int}

theorem IsRemainder.unique (h : IsRemainder a b r) (h' : IsRemainder a b r') : r = r' := by
  -- their difference is a multiple of the divisor and smaller than it
  have hdvd : b ∣ r - r' := by
    have hsub : r - r' = (a - r') - (a - r) := by omega
    rw [hsub]
    exact Int.dvd_sub h'.multiple h.multiple
  have hsmall : (r - r').natAbs < b.natAbs := by
    rcases h.between with h | h <;> rcases h'.between with h' | h' <;> omega
  have hzero : r - r' = 0 := Int.eq_zero_of_dvd_of_natAbs_lt_natAbs hdvd hsmall
  omega

/-- A remainder is in range if the divisor is. -/
theorem IsRemainder.inRange (h : IsRemainder a b r) (hb : InRange b) : InRange r := by
  have := h.between
  unfold InRange at hb ⊢
  omega

theorem dvd_sub_tmod (a b : Int) : b ∣ a - a.tmod b :=
  ⟨a.tdiv b, by have := Int.mul_tdiv_add_tmod a b; omega⟩

theorem natAbs_tmod_lt (a : Int) (hb : b ≠ 0) : (a.tmod b).natAbs < b.natAbs := by
  rw [Int.natAbs_tmod]
  exact Nat.mod_lt _ (Int.natAbs_pos.2 hb)

theorem isRemainder_tmod (hb : b ≠ 0) (h : ¬ NeedsCorrection a b) :
    IsRemainder a b (a.tmod b) where
  multiple := dvd_sub_tmod a b
  between := by
    have hsmall := natAbs_tmod_lt a hb
    unfold NeedsCorrection at h
    omega

theorem isRemainder_tmod_add (hb : b ≠ 0) (h : NeedsCorrection a b) :
    IsRemainder a b (a.tmod b + b) where
  multiple := by
    have hsub : a - (a.tmod b + b) = (a - a.tmod b) - b := by omega
    rw [hsub]
    exact Int.dvd_sub (dvd_sub_tmod a b) (Int.dvd_refl b)
  between := by
    have hsmall := natAbs_tmod_lt a hb
    unfold NeedsCorrection at h
    omega

end

section

variable {a b : Int64}

/-- **A quotient is in range**, unless the least integer is divided by `-1`. -/
theorem inRange_tdiv_iff (hb : b ≠ 0) :
    InRange (a.toInt.tdiv b.toInt) ↔ ¬ (a = Int64.minValue ∧ b = -1) := by
  have ha := inRange_toInt a
  have hb' : b.toInt ≠ 0 := fun h => hb (Int64.toInt_inj.1 h)
  have hleast : a = Int64.minValue ↔ a.toInt = -9223372036854775808 := by
    rw [← Int64.toInt_inj]
    exact Iff.rfl
  have hminus : b = -1 ↔ b.toInt = -1 := by
    rw [← Int64.toInt_inj]
    exact Iff.rfl
  rw [hleast, hminus]
  unfold InRange at ha ⊢
  by_cases hone : b.toInt = -1
  · rw [hone, Int.tdiv_neg, Int.tdiv_one]
    omega
  · -- by 1 it is the dividend, and by anything else at most half as large
    have habs : (a.toInt.tdiv b.toInt).natAbs = a.toInt.natAbs / b.toInt.natAbs :=
      Int.natAbs_tdiv _ _
    by_cases htwo : b.toInt.natAbs = 1
    · obtain hb1 : b.toInt = 1 := by omega
      rw [hb1, Int.tdiv_one]
      omega
    · have hhalf : a.toInt.natAbs / b.toInt.natAbs ≤ a.toInt.natAbs / 2 :=
        Nat.div_le_div_left (by omega) (by omega)
      omega

theorem mod_zero (a : Int64) : mod a 0 = .error .divisionByZero := rfl

theorem mod_minValue : mod Int64.minValue (-1) = .error .overflow := by decide

/-- **A step that has a result** gives the floored remainder. -/
theorem exists_mod (hb : b ≠ 0) (hleast : ¬ (a = Int64.minValue ∧ b = -1)) :
    ∃ r : Int64, mod a b = .ok r ∧ IsRemainder a.toInt b.toInt r.toInt := by
  have hb' : b.toInt ≠ 0 := fun h => hb (Int64.toInt_inj.1 h)
  have hfit : ∀ {n : Int}, InRange n → fit n = .ok (Int64.ofInt n) := fun hn => if_pos hn
  have hmod : mod a b = if NeedsCorrection a.toInt b.toInt then
      fit (a.toInt.tmod b.toInt + b.toInt) else fit (a.toInt.tmod b.toInt) := by
    rw [mod, if_neg hb, hfit ((inRange_tdiv_iff hb).2 hleast)]
    exact if_congr (by simp [NeedsCorrection]) rfl rfl
  -- either way the remainder is the right one, and so it is in range
  have hresult : ∀ {n : Int}, IsRemainder a.toInt b.toInt n →
      ∃ r : Int64, fit n = .ok r ∧ IsRemainder a.toInt b.toInt r.toInt := by
    intro n hn
    have hok := hfit (hn.inRange (inRange_toInt b))
    exact ⟨_, hok, by rwa [toInt_of_fit hok]⟩
  rw [hmod]
  split
  · rename_i hneeds
    exact hresult (isRemainder_tmod_add hb' hneeds)
  · rename_i hneeds
    exact hresult (isRemainder_tmod hb' hneeds)

/-- **What a step comes to**: one of the two errors, each in its own case, or the floored
remainder. -/
theorem mod_cases (a b : Int64) :
    (b = 0 ∧ mod a b = .error .divisionByZero) ∨
    ((a = Int64.minValue ∧ b = -1) ∧ mod a b = .error .overflow) ∨
    (b ≠ 0 ∧ ¬ (a = Int64.minValue ∧ b = -1)) ∧
      ∃ r : Int64, mod a b = .ok r ∧ IsRemainder a.toInt b.toInt r.toInt := by
  by_cases hb : b = 0
  · subst hb
    exact .inl ⟨rfl, mod_zero a⟩
  · by_cases hleast : a = Int64.minValue ∧ b = -1
    · obtain ⟨rfl, rfl⟩ := hleast
      exact .inr (.inl ⟨⟨rfl, rfl⟩, mod_minValue⟩)
    · exact .inr (.inr ⟨⟨hb, hleast⟩, exists_mod hb hleast⟩)

theorem mod_eq_divisionByZero_iff : mod a b = .error .divisionByZero ↔ b = 0 := by
  rcases mod_cases a b with ⟨hb, h⟩ | ⟨⟨_, hb⟩, h⟩ | ⟨⟨hb, _⟩, r, h, _⟩
  · exact iff_of_true h hb
  · rw [h, hb]
    decide
  · simp [h, hb]

theorem mod_eq_overflow_iff : mod a b = .error .overflow ↔ a = Int64.minValue ∧ b = -1 := by
  rcases mod_cases a b with ⟨hb, h⟩ | ⟨hleast, h⟩ | ⟨⟨_, hleast⟩, r, h, _⟩
  · rw [h, hb]
    simp
  · exact iff_of_true h hleast
  · simp [h, hleast]

end

end Number

/-! ## Many steps -/

/-- A value that is an integer. -/
def Value.IsInteger (v : Value) : Prop := ∃ id i, v = .number id (.integer i)

/-- Integers as arguments. -/
def integers (xs : List (ObjectId × Int64)) : List Value :=
  xs.map fun x => .number x.1 (.integer x.2)

/-- Arguments are integers up to the first that is none, if there is one. -/
theorem exists_integers (args : List Value) :
    (∃ xs, args = integers xs) ∨
      ∃ xs bad more, args = integers xs ++ bad :: more ∧ ¬ bad.IsInteger := by
  induction args with
  | nil => exact .inl ⟨[], rfl⟩
  | cons v vs ih =>
      by_cases hv : v.IsInteger
      · obtain ⟨id, i, rfl⟩ := hv
        rcases ih with ⟨xs, rfl⟩ | ⟨xs, bad, more, rfl, hbad⟩
        · exact .inl ⟨(id, i) :: xs, rfl⟩
        · exact .inr ⟨(id, i) :: xs, bad, more, rfl, hbad⟩
      · exact .inr ⟨[], v, vs, rfl, hv⟩

namespace Builtin

theorem expectInteger_of_not_isInteger {operation : String} {v : Value} (hv : ¬ v.IsInteger) :
    expectInteger operation v = .error (.unsupportedArgument operation v) := by
  cases v with
  | number id n =>
      cases n with
      | integer i => exact absurd ⟨id, i, rfl⟩ hv
      | float x => rfl
  | _ => rfl

theorem mapM_expectInteger (operation : String) (xs : List (ObjectId × Int64)) :
    (integers xs).mapM (expectInteger operation) = .ok (xs.map Prod.snd) := by
  induction xs with
  | nil => rfl
  | cons x xs ih =>
      show (integers (x :: xs)).mapM (expectInteger operation) = _
      rw [integers, List.map_cons, List.mapM_cons, ← integers, ih]
      rfl

/-- **On integers** the steps follow each other from the left. -/
theorem modResult_integers (first : ObjectId × Int64) (later : List (ObjectId × Int64)) :
    modResult (integers (first :: later)) =
      blame "mod" ((later.map Prod.snd).foldlM Number.mod first.2) := by
  rw [modResult, mapM_expectInteger]
  rfl

/-- **The first argument that is no integer** is refused before any step. -/
theorem modResult_of_not_isInteger {xs : List (ObjectId × Int64)} {bad : Value} {more : List Value}
    (hbad : ¬ bad.IsInteger) :
    modResult (integers xs ++ bad :: more) = .error (.unsupportedArgument "mod" bad) := by
  rw [modResult, List.mapM_append, mapM_expectInteger, List.mapM_cons,
    expectInteger_of_not_isInteger hbad]
  rfl

end Builtin

/-- The result of the builtin is a new number, and an error leaves the state as it was. -/
theorem run_mod (lisp : Interpreter) (args : List Value) (a : Anchors) (s : State) :
    Builtin.mod.run lisp args a s =
      match Builtin.modResult args with
      | .ok i => .ok (.number s.heap.next (.integer i)) { s with heap.next := s.heap.next + 1 }
      | .error e => .error (.error e) s := by
  show (Eval.ofExcept (Builtin.modResult args) >>= fun i => Builtin.makeNumber (.integer i)) a s = _
  cases Builtin.modResult args <;> rfl

/-- **`mod` is the floored remainder.** One step divides by zero exactly if the divisor is zero, and
overflows exactly if the least integer is divided by `-1`. Otherwise its result is the one integer
that is a floored remainder, and where the truncated remainder is corrected, the sum is in range.
The builtin refuses the first argument that is no integer, before any step. If there is none, it
gives the left fold of the step, or the error that the fold ends with. -/
theorem mod_is_floored_remainder :
    (∀ a b : Int64,
      (Number.mod a b = .error .divisionByZero ↔ b = 0) ∧
      (Number.mod a b = .error .overflow ↔ a = Int64.minValue ∧ b = -1) ∧
      (b ≠ 0 → ¬ (a = Int64.minValue ∧ b = -1) →
        ∃ r : Int64, Number.mod a b = .ok r ∧
          ∀ n : Int, Number.IsRemainder a.toInt b.toInt n ↔ n = r.toInt) ∧
      (b ≠ 0 → Number.NeedsCorrection a.toInt b.toInt →
        Number.InRange (a.toInt.tmod b.toInt + b.toInt))) ∧
    ∀ (lisp : Interpreter) (args : List Value) (anchors : Anchors) (s : State), args ≠ [] →
      (∃ first later, args = integers (first :: later) ∧
        Builtin.mod.run lisp args anchors s =
          match (later.map Prod.snd).foldlM Number.mod first.2 with
          | .ok r => .ok (.number s.heap.next (.integer r)) { s with heap.next := s.heap.next + 1 }
          | .error e => .error (.error (.arithmetic "mod" e)) s) ∨
      ∃ before bad more, args = integers before ++ bad :: more ∧ ¬ bad.IsInteger ∧
        Builtin.mod.run lisp args anchors s =
          .error (.error (.unsupportedArgument "mod" bad)) s := by
  refine ⟨fun a b => ⟨Number.mod_eq_divisionByZero_iff, Number.mod_eq_overflow_iff, ?_, ?_⟩,
    fun lisp args anchors s hargs => ?_⟩
  · intro hb hleast
    obtain ⟨r, hr, hrem⟩ := Number.exists_mod hb hleast
    refine ⟨r, hr, fun n => ⟨fun hn => hn.unique hrem, ?_⟩⟩
    rintro rfl
    exact hrem
  · intro hb hneeds
    have hb' : b.toInt ≠ 0 := fun h => hb (Int64.toInt_inj.1 h)
    exact (Number.isRemainder_tmod_add hb' hneeds).inRange (Number.inRange_toInt b)
  · rw [run_mod]
    rcases exists_integers args with ⟨_ | ⟨first, later⟩, rfl⟩ | ⟨xs, bad, more, rfl, hbad⟩
    · exact absurd rfl hargs
    · refine .inl ⟨first, later, rfl, ?_⟩
      rw [Builtin.modResult_integers]
      cases (later.map Prod.snd).foldlM Number.mod first.2 <;> rfl
    · refine .inr ⟨xs, bad, more, rfl, hbad, ?_⟩
      rw [Builtin.modResult_of_not_isInteger hbad]

/-- Of `-9` and `7` the truncated remainder has to be corrected. In `(mod 7 0 "x")` the string is
refused, although the divisor before it is zero. -/
theorem mod_is_floored_remainder_refused :
    let lisp := (Interpreter.fresh Heap.empty).1
    let s : State := ⟨Heap.empty, []⟩
    let bad := Value.string 2 "x"
    let args := integers [(0, 7), (1, 0)] ++ [bad]
    ((7 : Int64) ≠ 0 ∧ ¬ ((-9 : Int64) = Int64.minValue ∧ (7 : Int64) = -1) ∧
      Number.NeedsCorrection (-9) 7 ∧ args ≠ []) ∧
    (∃ r : Int64, Number.mod (-9) 7 = .ok r ∧
      ∀ n : Int, Number.IsRemainder (-9) 7 n ↔ n = r.toInt) ∧
    Number.InRange (Int.tmod (-9) 7 + 7) ∧
    Builtin.mod.run lisp args .none s = .error (.error (.unsupportedArgument "mod" bad)) s := by
  intro lisp s bad args
  have hseven : (7 : Int64) ≠ 0 := by decide
  have hleast : ¬ ((-9 : Int64) = Int64.minValue ∧ (7 : Int64) = -1) := by decide
  have hneeds : Number.NeedsCorrection (-9) 7 := by decide
  have hargs : args ≠ [] := by simp [args]
  obtain ⟨_, _, hremainder, hinner⟩ := mod_is_floored_remainder.1 (-9) 7
  refine ⟨⟨hseven, hleast, hneeds, hargs⟩, hremainder hseven hleast, hinner hseven hneeds, ?_⟩
  rcases mod_is_floored_remainder.2 lisp args .none s hargs with
    ⟨first, later, hsplit, _⟩ | ⟨before, found, more, hsplit, hfound, hout⟩
  · have hmem : bad ∈ integers (first :: later) := by
      rw [← hsplit]
      simp [args]
    obtain ⟨_, _, hx⟩ := List.mem_map.1 hmem
    exact Value.noConfusion hx
  · -- the string is the only argument that is no integer
    have hmem : found ∈ args := by
      rw [hsplit]
      simp
    obtain rfl | rfl | rfl : found = .number 0 (.integer 7) ∨ found = .number 1 (.integer 0) ∨
        found = bad := by simpa [args, integers] using hmem
    · exact absurd ⟨_, _, rfl⟩ hfound
    · exact absurd ⟨_, _, rfl⟩ hfound
    · exact hout

end SmallLisp
