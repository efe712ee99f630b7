import SmallLisp.Proofs.Eval.Built

set_option autoImplicit false

/-! # What the interpreter holds anyway

An interpreter holds on to its package and its two constants. So it makes no difference whether a
computation holds them too, wherever they stand among what it holds (`Eval.holding_held`). This
matters because `nil` is held in many places as the value of what has not been evaluated yet.

The reason is that the search for what still lives starts with what the interpreter holds, and to
add it once more changes nothing.
-/

namespace SmallLisp

/-! ## Adding what is there -/

namespace Population

/-- A member that is inserted again leaves the tree as it is, not only its members. -/
theorem insert_of_mem {s : Std.TreeSet Nat} {n : Nat} (hn : n ∈ s) : s.insert n = s := by
  -- no lemma of the library says this, so the look-up is found where the insertion makes it
  have hc : s.inner.inner.inner.contains n = true := hn
  unfold Std.TreeSet.insert Std.TreeMap.insertIfNew Std.DTreeMap.insertIfNew
  simp only [Std.DTreeMap.Internal.Impl.insertIfNew, hc]
  rfl

variable {p : Population} {id : ObjectId}

theorem addObject_of_mem (hid : id ∈ p.objects) : p.addObject id = p := by
  rw [addObject, insert_of_mem hid]

theorem mem_addObject (hid : id ∈ p.objects) (new : ObjectId) : id ∈ (p.addObject new).objects :=
  Std.TreeSet.mem_insert.2 (.inr hid)

/-- What is there stays there. -/
theorem mem_addValue (hid : id ∈ p.objects) (v : Value) : id ∈ (p.addValue v).objects := by
  induction v generalizing p with
  | cons i car cdr ihcar ihcdr =>
      unfold addValue
      split
      · exact hid
      · exact ihcdr (ihcar (mem_addObject hid i))
  | closure i name =>
      cases name with
      | none => exact mem_addObject hid i
      | some s => exact mem_addObject (mem_addObject hid i) s.id
  | _ => exact mem_addObject hid _

theorem mem_addValues (hid : id ∈ p.objects) (vs : List Value) : id ∈ (p.addValues vs).objects := by
  induction vs generalizing p with
  | nil => exact hid
  | cons v vs ih => exact ih (mem_addValue hid v)

theorem addValues_append (p : Population) (us vs : List Value) :
    p.addValues (us ++ vs) = (p.addValues us).addValues vs :=
  List.foldl_append

end Population

/-! ## Anchors that differ in what is held anyway -/

namespace Interpreter

/-- A population that has what an interpreter holds. -/
def HeldIn (lisp : Interpreter) (p : Population) : Prop := ∀ v ∈ lisp.held, v.id ∈ p.objects

/-- **Anchors that are alike** to an interpreter: they add the same to a population that has already
what it holds. -/
structure Alike (lisp : Interpreter) (a b : Anchors) : Prop where
  values : ∀ p : Population, lisp.HeldIn p → p.addValues a.values = p.addValues b.values
  environments : a.environments = b.environments

variable {lisp : Interpreter} {p : Population} {a b : Anchors}

theorem HeldIn.addValues (hp : lisp.HeldIn p) (vs : List Value) : lisp.HeldIn (p.addValues vs) :=
  fun v hv => Population.mem_addValues (hp v hv) vs

theorem heldIn_addValues_held (p : Population) : lisp.HeldIn (p.addValues lisp.held) := by
  intro v hv
  have hmem : ∀ {q : Population} {id : ObjectId}, id ∈ (q.addObject id).objects :=
    Std.TreeSet.mem_insert_self
  simp only [held, List.mem_cons, List.not_mem_nil, or_false] at hv
  rcases hv with rfl | rfl | rfl
  · exact Population.mem_addObject (Population.mem_addObject hmem _) _
  · exact Population.mem_addObject hmem _
  · exact hmem

/-- What an interpreter holds is a package or a symbol, on which nothing else hangs. -/
theorem HeldIn.addValue_eq (hp : lisp.HeldIn p) {v : Value} (hv : v ∈ lisp.held) :
    p.addValue v = p := by
  have hmem := hp v hv
  simp only [held, List.mem_cons, List.not_mem_nil, or_false] at hv
  rcases hv with rfl | rfl | rfl <;> exact Population.addObject_of_mem hmem

theorem HeldIn.addValues_eq (hp : lisp.HeldIn p) {vs : List Value}
    (hvs : ∀ v ∈ vs, v ∈ lisp.held) : p.addValues vs = p := by
  induction vs with
  | nil => rfl
  | cons v vs ih =>
      obtain ⟨hv, hrest⟩ := List.forall_mem_cons.1 hvs
      show (p.addValue v).addValues vs = p
      rw [hp.addValue_eq hv, ih hrest]

theorem Alike.hold (hab : lisp.Alike a b) (vs : List Value) :
    lisp.Alike (a.hold vs) (b.hold vs) where
  values p hp := by
    show p.addValues (vs ++ a.values) = p.addValues (vs ++ b.values)
    rw [Population.addValues_append, Population.addValues_append, hab.values _ (hp.addValues vs)]
  environments := hab.environments

theorem Alike.stay (hab : lisp.Alike a b) (env : Environment) :
    lisp.Alike (a.stay env) (b.stay env) where
  values := hab.values
  environments := congrArg (env :: ·) hab.environments

/-- Values that the interpreter holds may be held once more. -/
theorem alike_hold {vs : List Value} (hvs : ∀ v ∈ vs, v ∈ lisp.held) (a : Anchors) :
    lisp.Alike (a.hold vs) a where
  values p hp := by
    show p.addValues (vs ++ a.values) = p.addValues a.values
    rw [Population.addValues_append, hp.addValues_eq hvs]
  environments := rfl

theorem Alike.addAnchors (hab : lisp.Alike a b) (p : Population) :
    p.addAnchors (a.hold lisp.held) = p.addAnchors (b.hold lisp.held) := by
  simp only [Population.addAnchors, Anchors.hold, Population.addValues_append]
  rw [hab.values _ (heldIn_addValues_held p), hab.environments]

/-- **The same things live**: at each step of the search the same is left out. -/
theorem Alike.settle (hab : lisp.Alike a b) (h : Heap) (p : Population) :
    h.settle (a.hold lisp.held) p = h.settle (b.hold lisp.held) p := by
  have hreferents : ∀ p, h.referents (a.hold lisp.held) p = h.referents (b.hold lisp.held) p := by
    intro p
    simp only [Heap.referents, hab.addAnchors]
  fun_induction Heap.settle h (a.hold lisp.held) p with
  | case1 p q hlt ih =>
      rw [ih]
      conv_rhs => rw [Heap.settle, ← hreferents]
      exact (if_pos hlt).symm
  | case2 p q hge =>
      rw [Heap.settle, ← hreferents]
      exact (if_neg hge).symm

theorem Alike.packageOf?_eq (hab : lisp.Alike a b) (h : Heap) (s : Symbol) :
    lisp.packageOf? h a s = lisp.packageOf? h b s := by
  simp only [packageOf?, Heap.keeps, Heap.survivors, hab.settle]

end Interpreter

namespace Eval

/-- Nothing can be seen of what the interpreter holds anyway, in any heap. -/
theorem unseen_alike (lisp : Interpreter) : Unseen lisp lisp.Alike fun _ => True where
  hold vs hab := hab.hold vs
  stay env hab := hab.stay env
  later _ _ := trivial
  package s hab _ := hab.packageOf?_eq _ s

/-- **To hold what the interpreter holds anyway makes no difference.** -/
theorem holding_held {lisp : Interpreter} {α : Type} {act : Eval α} (hact : Built lisp act)
    {vs : List Value} (hvs : ∀ v ∈ vs, v ∈ lisp.held) : holding vs act = act := by
  funext a s
  exact hact.eq_of_unseen (unseen_alike lisp) (Interpreter.alike_hold hvs a) trivial

theorem holding_nil {lisp : Interpreter} {α : Type} {act : Eval α} (hact : Built lisp act) :
    holding [lisp.nilValue] act = act :=
  holding_held hact (List.forall_mem_singleton.2 (by simp [Interpreter.held]))

end Eval

end SmallLisp
