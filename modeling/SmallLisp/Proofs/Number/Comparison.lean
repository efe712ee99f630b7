import Mathlib.Data.List.Chain
import SmallLisp.Proofs.Number.Arithmetic
import SmallLisp.Proofs.Number.Rounding

set_option autoImplicit false

/-! # Comparison of numbers

Numbers of one kind are compared by their exact values. If an integer is compared with a float, it
becomes a float first, and an integer of more than 53 bits may lie between two floats. Then it
counts as equal to the one that is nearest to it (`Number.valueBeside`), and to anything else it
compares as it should, since rounding goes past no float (`Number.valueBeside_le`).

So a comparison can be wrong in one way only: numbers that differ may count as equal. And it is
right wherever the integers that stand next to floats are values of floats themselves.
-/

namespace SmallLisp

/-! ## Values -/

namespace Number

/-- **The exact value of a number.** -/
noncomputable def value : Number → EReal
  | .integer i => ((i.toInt : ℝ) : EReal)
  | .float x => Floats.value x.toModel.unpack

/-- The numbers that have an order: all but the float that is not a number. -/
def Ordered : Number → Prop
  | .integer _ => True
  | .float x => x.isNaN = false

/-- A number that is the exact value of a float. -/
def IsExact (n : Number) : Prop := ∃ x, value (.float x) = n.value

/-- Two numbers that can be compared without rounding. -/
def Compatible (m n : Number) : Prop := (¬ m.IsFloat ∧ ¬ n.IsFloat) ∨ (m.IsExact ∧ n.IsExact)

/-- **The value that a number is compared by** if it stands next to another one: its own, unless it
is an integer next to a float. -/
noncomputable def valueBeside : Number → Number → EReal
  | .integer i, .integer _ => value (.integer i)
  | m, _ => value (.float m.toFloat)

section

variable {m n : Number} {x y : Float} {i j : Int64}

@[simp]
theorem valueBeside_integers : valueBeside (.integer i) (.integer j) = value (.integer i) := rfl

@[simp]
theorem valueBeside_float_left : valueBeside (.float x) n = value (.float x) := by
  cases n <;> rfl

@[simp]
theorem valueBeside_float_right : valueBeside m (.float y) = value (.float m.toFloat) := by
  cases m <;> rfl

/-! ## Rounding -/

/-- The distance from an integer to the float that it becomes. -/
theorem nearest_toFloat (i : Int64) :
    (toFloat (.integer i)).toModel.unpack.isFinite = true ∧ ∀ v, Floats.IsDyadic v →
      |Floats.real (toFloat (.integer i)).toModel.unpack - i.toInt| ≤ |v - i.toInt| := by
  have hrange := inRange_toInt i
  unfold InRange at hrange
  exact Floats.nearest_ofInt (by omega)

theorem value_toFloat (i : Int64) : value (.float (toFloat (.integer i))) =
    (Floats.real (toFloat (.integer i)).toModel.unpack : EReal) :=
  Floats.value_of_isFinite (nearest_toFloat i).1

theorem value_float_cases (x : Float) : value (.float x) = ⊤ ∨ value (.float x) = ⊥ ∨
    ∃ v, Floats.IsDyadic v ∧ value (.float x) = (v : EReal) :=
  (Floats.isCanonical_unpack x.toModel.toBits.toBitVec).value_cases

/-- An integer below a float becomes a float that is not above it. -/
theorem value_toFloat_le (h : value (.integer i) ≤ value (.float y)) :
    value (.float (toFloat (.integer i))) ≤ value (.float y) := by
  rcases value_float_cases y with htop | hbot | ⟨v, hv, hvalue⟩
  · rw [htop]
    exact le_top
  · rw [hbot, le_bot_iff] at h
    exact absurd h (EReal.coe_ne_bot _)
  · rw [hvalue] at h ⊢
    rw [value_toFloat, EReal.coe_le_coe_iff]
    have hle : (i.toInt : ℝ) ≤ v := EReal.coe_le_coe_iff.1 h
    have hdistance := (nearest_toFloat i).2 v hv
    rw [abs_of_nonneg (sub_nonneg.2 hle)] at hdistance
    linarith [le_abs_self (Floats.real (toFloat (.integer i)).toModel.unpack - i.toInt)]

/-- An integer above a float becomes a float that is not below it. -/
theorem le_value_toFloat (h : value (.float y) ≤ value (.integer i)) :
    value (.float y) ≤ value (.float (toFloat (.integer i))) := by
  rcases value_float_cases y with htop | hbot | ⟨v, hv, hvalue⟩
  · rw [htop, top_le_iff] at h
    exact absurd h (EReal.coe_ne_top _)
  · rw [hbot]
    exact bot_le
  · rw [hvalue] at h ⊢
    rw [value_toFloat, EReal.coe_le_coe_iff]
    have hle : v ≤ (i.toInt : ℝ) := EReal.coe_le_coe_iff.1 h
    have hdistance := (nearest_toFloat i).2 v hv
    rw [abs_of_nonpos (sub_nonpos.2 hle)] at hdistance
    linarith [neg_abs_le (Floats.real (toFloat (.integer i)).toModel.unpack - i.toInt)]

/-- **Rounding goes past no float.** -/
theorem valueBeside_le (h : m.value ≤ n.value) : m.valueBeside n ≤ n.valueBeside m := by
  cases m with
  | integer i =>
      cases n with
      | integer j =>
          rw [valueBeside_integers, valueBeside_integers]
          exact h
      | float y =>
          rw [valueBeside_float_right, valueBeside_float_left]
          exact value_toFloat_le h
  | float x =>
      cases n with
      | integer j =>
          rw [valueBeside_float_left, valueBeside_float_right]
          exact le_value_toFloat h
      | float y =>
          rw [valueBeside_float_left, valueBeside_float_left]
          exact h

theorem value_toFloat_of_isExact (hm : m.IsExact) : value (.float m.toFloat) = m.value := by
  cases m with
  | integer i =>
      obtain ⟨x, hx⟩ := hm
      refine le_antisymm ?_ ?_
      · exact (value_toFloat_le hx.ge).trans hx.le
      · exact hx.ge.trans (le_value_toFloat hx.le)
  | float x => rfl

theorem Compatible.symm (h : Compatible m n) : Compatible n m :=
  h.imp And.symm And.symm

/-- **Nothing is rounded where it need not be.** -/
theorem valueBeside_of_compatible (h : Compatible m n) : m.valueBeside n = m.value := by
  rcases h with ⟨hm, hn⟩ | ⟨hm, _⟩
  · cases m with
    | integer i =>
        cases n with
        | integer j => exact valueBeside_integers
        | float y => exact absurd ⟨y, rfl⟩ hn
    | float x => exact absurd ⟨x, rfl⟩ hm
  · cases m with
    | integer i =>
        cases n with
        | integer j => exact valueBeside_integers
        | float y =>
            rw [valueBeside_float_right]
            exact value_toFloat_of_isExact hm
    | float x => exact valueBeside_float_left

/-- Integers of 53 bits are exact. -/
theorem isExact_integer (hi : i.toInt.natAbs ≤ 2 ^ 53) : (Number.integer i).IsExact := by
  refine ⟨toFloat (.integer i), ?_⟩
  have hdistance := (nearest_toFloat i).2 _ (.ofInt hi)
  rw [sub_self, abs_zero] at hdistance
  rw [value_toFloat, sub_eq_zero.1 (abs_nonpos_iff.1 hdistance)]
  rfl

/-! ## Pairs -/

theorem lt_iff_compare {x y : Float} :
    x < y ↔ x.toModel.unpack.compare y.toModel.unpack = some .lt := by
  show decide ((x.toModel.unpack.compare y.toModel.unpack == some Ordering.lt) = true) = true ↔ _
  rw [decide_eq_true_iff, beq_iff_eq]

theorem beq_iff_compare {x y : Float} :
    (x == y) = true ↔ x.toModel.unpack.compare y.toModel.unpack = some .eq := by
  show (x.toModel.unpack.compare y.toModel.unpack == some Ordering.eq) = true ↔ _
  rw [beq_iff_eq]

/-- Floats are compared by their exact values. -/
theorem compareFloats_eq_cmp (hx : x.isNaN = false) (hy : y.isNaN = false) :
    compareFloats x y = some (cmp (value (.float x)) (value (.float y))) := by
  have hcompare : ∀ {x y : Float}, x.isNaN = false → y.isNaN = false →
      x.toModel.unpack.compare y.toModel.unpack =
        some (cmp (value (.float x)) (value (.float y))) := fun hx hy =>
    Floats.compare_eq_cmp (Floats.isCanonical_unpack _) (Floats.isCanonical_unpack _) hx hy
  have hlt : x < y ↔ value (.float x) < value (.float y) := by
    rw [lt_iff_compare, hcompare hx hy, Option.some_inj, cmp_eq_lt_iff]
  have hgt : y < x ↔ value (.float y) < value (.float x) := by
    rw [lt_iff_compare, hcompare hy hx, Option.some_inj, cmp_eq_lt_iff]
  have heq : (x == y) = true ↔ value (.float x) = value (.float y) := by
    rw [beq_iff_compare, hcompare hx hy, Option.some_inj, cmp_eq_eq_iff]
  unfold compareFloats
  rcases lt_trichotomy (value (.float x)) (value (.float y)) with h | h | h
  · rw [if_pos (hlt.2 h), (cmp_eq_lt_iff _ _).2 h]
  · rw [if_neg (hlt.not.2 h.not_lt), if_neg (hgt.not.2 h.not_gt), if_pos (heq.2 h),
      (cmp_eq_eq_iff _ _).2 h]
  · rw [if_neg (hlt.not.2 h.not_gt), if_pos (hgt.2 h), (cmp_eq_gt_iff _ _).2 h]

theorem isNaN_toFloat (hn : n.Ordered) : n.toFloat.isNaN = false := by
  cases n with
  | integer i =>
      have hfinite := (nearest_toFloat i).1
      show (toFloat (.integer i)).toModel.unpack.isNaN = false
      cases hunpack : (toFloat (.integer i)).toModel.unpack with
      | notANumber =>
          rw [hunpack] at hfinite
          cases hfinite
      | _ => rfl
  | float x => exact hn

/-- **A pair of numbers is compared by the values that they have beside each other.** -/
theorem compare_eq_cmp (hm : m.Ordered) (hn : n.Ordered) :
    m.compare n = some (cmp (m.valueBeside n) (n.valueBeside m)) := by
  have hfloats := compareFloats_eq_cmp (isNaN_toFloat hm) (isNaN_toFloat hn)
  cases m with
  | integer i =>
      cases n with
      | integer j =>
          have hmono : StrictMono fun k : ℤ => ((k : ℝ) : EReal) :=
            EReal.coe_strictMono.comp Int.cast_strictMono
          show some (Ord.compare i.toInt j.toInt) =
            some (cmp ((i.toInt : ℝ) : EReal) ((j.toInt : ℝ) : EReal))
          rw [hmono.cmp_map_eq i.toInt j.toInt, cmp_eq_compare]
      | float y =>
          rw [valueBeside_float_right, valueBeside_float_left]
          exact hfloats
  | float x =>
      rw [valueBeside_float_left, valueBeside_float_right]
      cases n <;> exact hfloats

end

end Number

/-! ## Relations -/

namespace Relation

/-- **What a relation means** for exact values. -/
def Relates : Relation → EReal → EReal → Prop
  | .equal, x, y => x = y
  | .less, x, y => x < y
  | .lessEqual, x, y => x ≤ y
  | .greater, x, y => x > y
  | .greaterEqual, x, y => x ≥ y

/-- A relation that does not hold between equal values. -/
def IsStrict (rel : Relation) : Prop := rel = .less ∨ rel = .greater

theorem holds_cmp_iff (rel : Relation) (x y : EReal) :
    rel.holds (cmp x y) = true ↔ rel.Relates x y := by
  cases rel with
  | equal => simp [holds, Relates, cmp_eq_eq_iff]
  | less => simp [holds, Relates, cmp_eq_lt_iff]
  | lessEqual => simp [holds, Relates, cmp_eq_gt_iff]
  | greater => simp [holds, Relates, cmp_eq_gt_iff]
  | greaterEqual => simp [holds, Relates, cmp_eq_lt_iff]

variable {rel : Relation} {m n : Number}

/-- **Numbers in strict order are never made up**: if the values beside each other are in order,
so are the exact ones. -/
theorem relates_of_beside (hrel : rel.IsStrict)
    (h : rel.Relates (m.valueBeside n) (n.valueBeside m)) : rel.Relates m.value n.value := by
  rcases hrel with rfl | rfl
  · exact lt_of_not_ge fun hge => not_lt_of_ge (Number.valueBeside_le hge) h
  · exact lt_of_not_ge fun hge => not_lt_of_ge (Number.valueBeside_le hge) h

/-- **Numbers that are in order, or equal, are never missed** by a relation that is not strict. -/
theorem beside_of_relates (hrel : ¬ rel.IsStrict) (h : rel.Relates m.value n.value) :
    rel.Relates (m.valueBeside n) (n.valueBeside m) := by
  cases rel with
  | equal => exact le_antisymm (Number.valueBeside_le h.le) (Number.valueBeside_le h.ge)
  | less => exact absurd (.inl rfl) hrel
  | lessEqual => exact Number.valueBeside_le h
  | greater => exact absurd (.inr rfl) hrel
  | greaterEqual => exact Number.valueBeside_le h

end Relation

/-! ## Chains -/

section

variable {rel : Relation} {ns : List Number}

theorem chain_iff_isChain : Builtin.chain rel ns = true ↔
    ns.IsChain fun m n => (m.compare n).any rel.holds = true := by
  fun_induction Builtin.chain rel ns with
  | case1 m n ns ih => rw [Bool.and_eq_true, ih, List.isChain_cons_cons]
  | case2 ns hshort =>
      rcases ns with _ | ⟨n, _ | ⟨n', ns⟩⟩
      · simp
      · simp
      · exact absurd rfl (hshort n n' ns)

/-- **Neighbours are compared by the values that they have beside each other.** -/
theorem chain_iff_relates (rel : Relation) (hns : ∀ n ∈ ns, n.Ordered) :
    Builtin.chain rel ns = true ↔
      ns.IsChain fun m n => rel.Relates (m.valueBeside n) (n.valueBeside m) := by
  rw [chain_iff_isChain]
  refine List.IsChain.iff_of_mem_imp fun m n hm hn => ?_
  rw [Number.compare_eq_cmp (hns m hm) (hns n hn)]
  exact rel.holds_cmp_iff _ _

/-- Chains of two relations that are the same for neighbours of some kind. -/
theorem isChain_iff_of_isChain {P R S : Number → Number → Prop} (hP : ns.IsChain P)
    (hRS : ∀ m n, P m n → (R m n ↔ S m n)) : ns.IsChain R ↔ ns.IsChain S := by
  induction hP with
  | nil => simp
  | singleton n => simp
  | cons_cons hmn _ ih => rw [List.isChain_cons_cons, List.isChain_cons_cons, hRS _ _ hmn, ih]

theorem mapM_expectNumber (operation : String) (xs : List (ObjectId × Number)) :
    (numbers xs).mapM (Builtin.expectNumber operation) = .ok (xs.map Prod.snd) := by
  induction xs with
  | nil => rfl
  | cons x xs ih =>
      show List.mapM _ (.number x.1 x.2 :: numbers xs) = _
      rw [List.mapM_cons, ih]
      rfl

theorem run_relation (lisp : Interpreter) (rel : Relation) (xs : List (ObjectId × Number))
    (a : Anchors) (s : State) : (Builtin.relation rel).run lisp (numbers xs) a s =
      .ok (lisp.truth (Builtin.chain rel (xs.map Prod.snd))) s := by
  have hresult : Builtin.relationResult rel (numbers xs) =
      .ok (Builtin.chain rel (xs.map Prod.snd)) := by
    rw [Builtin.relationResult, mapM_expectNumber]
    rfl
  simp only [Builtin.run, hresult]
  rfl

end

/-- **A comparison follows the exact values up to rounding.** It is true if all neighbours stand in
the relation by the values that they have beside each other. So `<` and `>` are never true of
numbers that are not in that order, `=`, `<=` and `>=` are true of all numbers that are, and all
five follow the exact values if neighbours are both integers or both values of floats. -/
theorem comparison_exact_up_to_rounding (lisp : Interpreter) (rel : Relation)
    (xs : List (ObjectId × Number)) (hxs : ∀ x ∈ xs, x.2.Ordered) (a : Anchors) (s : State) :
    ∃ answer : Bool,
      (Builtin.relation rel).run lisp (numbers xs) a s = .ok (lisp.truth answer) s ∧
      (answer = true ↔ (xs.map Prod.snd).IsChain fun m n =>
        rel.Relates (m.valueBeside n) (n.valueBeside m)) ∧
      (rel.IsStrict → answer = true →
        (xs.map Prod.snd).IsChain fun m n => rel.Relates m.value n.value) ∧
      (¬ rel.IsStrict → ((xs.map Prod.snd).IsChain fun m n => rel.Relates m.value n.value) →
        answer = true) ∧
      ((xs.map Prod.snd).IsChain Number.Compatible →
        (answer = true ↔
          (xs.map Prod.snd).IsChain fun m n => rel.Relates m.value n.value)) := by
  have hordered : ∀ n ∈ xs.map Prod.snd, n.Ordered := List.forall_mem_map.2 hxs
  have hchain := chain_iff_relates rel hordered
  refine ⟨_, run_relation lisp rel xs a s, hchain, fun hrel h => ?_, fun hrel h => ?_,
    fun hcompatible => ?_⟩
  · exact (hchain.1 h).imp fun m n hmn => Relation.relates_of_beside hrel hmn
  · exact hchain.2 (h.imp fun m n hmn => Relation.beside_of_relates hrel hmn)
  · rw [hchain]
    refine isChain_iff_of_isChain hcompatible fun m n hmn => ?_
    rw [Number.valueBeside_of_compatible hmn, Number.valueBeside_of_compatible hmn.symm]

/-- Two to the 53rd, from where on floats leave out integers. -/
theorem value_edge :
    Number.value (.float 9007199254740992.0) = ((9007199254740992 : ℝ) : EReal) := by
  have hunpack : (9007199254740992.0 : Float).toModel.unpack =
      .finite .positive 4503599627370496 1 (by decide) := rfl
  show Floats.value (9007199254740992.0 : Float).toModel.unpack = _
  rw [hunpack, Floats.value_of_isFinite rfl, Floats.real_positive]
  norm_num

/-- An integer of 53 bits, the float after it, and that float as an integer. -/
theorem comparison_exact_up_to_rounding_edge :
    let lisp := (Interpreter.fresh Heap.empty).1
    let s : State := ⟨Heap.empty, []⟩
    let xs := [(0, Number.integer 9007199254740991), (1, .float 9007199254740992.0),
      (2, .integer 9007199254740992)]
    (∀ x ∈ xs, x.2.Ordered) ∧ (xs.map Prod.snd).IsChain Number.Compatible ∧
      ((xs.map Prod.snd).IsChain fun m n => Relation.lessEqual.Relates m.value n.value) ∧
      (Builtin.relation .lessEqual).run lisp (numbers xs) .none s = .ok lisp.trueValue s := by
  intro lisp s xs
  have hordered : ∀ x ∈ xs, x.2.Ordered := by
    have hnumber : (9007199254740992.0 : Float).isNaN = false := by decide +kernel
    exact List.forall_mem_cons.2 ⟨trivial, List.forall_mem_cons.2
      ⟨hnumber, List.forall_mem_singleton.2 trivial⟩⟩
  have hcompatible : (xs.map Prod.snd).IsChain Number.Compatible := by
    have hfloat : (Number.float 9007199254740992.0).IsExact := ⟨_, rfl⟩
    refine List.isChain_cons_cons.2 ⟨.inr ⟨?_, hfloat⟩, List.isChain_cons_cons.2
      ⟨.inr ⟨hfloat, ?_⟩, .singleton _⟩⟩
    · exact Number.isExact_integer (by decide)
    · exact Number.isExact_integer (by decide)
  have hvalues : (xs.map Prod.snd).IsChain fun m n =>
      Relation.lessEqual.Relates m.value n.value := by
    refine List.isChain_cons_cons.2 ⟨?_, List.isChain_cons_cons.2 ⟨?_, .singleton _⟩⟩
    · show ((_ : ℝ) : EReal) ≤ Number.value (.float 9007199254740992.0)
      rw [value_edge, EReal.coe_le_coe_iff]
      have htoInt : (9007199254740991 : Int64).toInt = 9007199254740991 := rfl
      rw [htoInt]
      norm_num
    · show Number.value (.float 9007199254740992.0) ≤ ((_ : ℝ) : EReal)
      rw [value_edge, EReal.coe_le_coe_iff]
      have htoInt : (9007199254740992 : Int64).toInt = 9007199254740992 := rfl
      rw [htoInt]
      norm_num
  obtain ⟨answer, hrun, _, _, _, hexact⟩ :=
    comparison_exact_up_to_rounding lisp .lessEqual xs hordered .none s
  rw [(hexact hcompatible).2 hvalues] at hrun
  exact ⟨hordered, hcompatible, hvalues, hrun⟩

/-- **An integer may count as equal to a float that it is larger than.** It is not found to be
larger then, and equality is not transitive. -/
theorem comparison_misses_larger_integer :
    let lisp := (Interpreter.fresh Heap.empty).1
    let s : State := ⟨Heap.empty, []⟩
    let run := fun rel ns => (Builtin.relation rel).run lisp (numbers ns) .none s
    let below := (0, Number.integer 9007199254740992)
    let float := (1, Number.float 9007199254740992.0)
    let above := (2, Number.integer 9007199254740993)
    (Relation.less.Relates float.2.value above.2.value ∧
        run .less [float, above] = .ok lisp.nilValue s) ∧
      run .equal [below, float, above] = .ok lisp.trueValue s ∧
      run .equal [below, above] = .ok lisp.nilValue s := by
  intro lisp s run below float above
  have hchains : Builtin.chain .less [float.2, above.2] = false ∧
      Builtin.chain .equal [below.2, float.2, above.2] = true ∧
      Builtin.chain .equal [below.2, above.2] = false := by decide +kernel
  obtain ⟨hless, hequal, hunequal⟩ := hchains
  have hrun : ∀ rel ns answer, Builtin.chain rel (ns.map Prod.snd) = answer →
      run rel ns = .ok (lisp.truth answer) s := by
    rintro rel ns _ rfl
    exact run_relation lisp rel ns .none s
  refine ⟨⟨?_, hrun .less [float, above] false hless⟩,
    hrun .equal [below, float, above] true hequal, hrun .equal [below, above] false hunequal⟩
  have htoInt : (9007199254740993 : Int64).toInt = 9007199254740993 := rfl
  show Number.value (.float 9007199254740992.0) < (((9007199254740993 : Int64).toInt : ℝ) : EReal)
  rw [value_edge, EReal.coe_lt_coe_iff, htoInt]
  norm_num

end SmallLisp
