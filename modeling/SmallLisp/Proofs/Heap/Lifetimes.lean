import SmallLisp.Proofs.Heap.Identity

set_option autoImplicit false

/-! # What lives

What still lives in a heap is computed by leaving out, again and again, what nothing refers to. This
module says what comes out in the end. A set of things *stands by itself* if each of its members has
an entry in the heap and is held, or is referred to by another member (`Heap.Supports`), and a
package lives if it belongs to such a set (`Heap.Orderly.keeps_iff`).

The walk through a value stops at conses that it has met before. Nothing gets lost by that where an
identity belongs to one value (`Heap.Orderly`): whatever hangs on a cons that is there is there too,
except for the conses that the walk is just in, and these are larger than what it still has to look
at (`Population.ClosedBelow`).
-/

namespace SmallLisp

/-! ## Things and references -/

/-- **An object or a frame.** -/
inductive Thing
  | object (id : ObjectId)
  | frame (id : FrameId)

/-- The objects that hang together with a value by conses. The name of a closure belongs to it. -/
def Value.reach : Value → List ObjectId
  | .cons id car cdr => id :: (car.reach ++ cdr.reach)
  | .closure id (some name) => [id, name.id]
  | v => [v.id]

/-- A value reaches a thing. -/
def Value.Reaches (v : Value) (x : Thing) : Prop := ∃ id ∈ v.reach, x = .object id

/-- What the code of a closure refers to. -/
def Closure.Refers (c : Closure) (x : Thing) : Prop :=
  (∃ v ∈ c.objects, v.Reaches x) ∨ ∃ f ∈ c.env, x = .frame f

/-- What anchors hold. -/
def Anchors.Holds (a : Anchors) (x : Thing) : Prop :=
  (∃ v ∈ a.values, v.Reaches x) ∨ ∃ env ∈ a.environments, ∃ f ∈ env, x = .frame f

/-- **What refers to what** by the entries of a heap. -/
inductive Heap.Refers (h : Heap) : Thing → Thing → Prop
  | cell {id : ObjectId} {c : Cells} {v : Value} {x : Thing} (hc : h.cells[id]? = some c)
      (hv : v ∈ Heap.cellValues c) (hx : v.Reaches x) : Refers h (.object id) x
  | symbol {id : ObjectId} {name : String} {s : Symbol} (hs : h.findSymbol id name = some s) :
      Refers h (.object id) (.object s.id)
  | code {id : ObjectId} {c : Closure} {x : Thing} (hc : h.closures[id]? = some c)
      (hx : c.Refers x) : Refers h (.object id) x
  | frame {id : FrameId} {v : Value} {x : Thing} (hv : v ∈ (h.frame id).objects)
      (hx : v.Reaches x) : Refers h (.frame id) x

/-- The frames of a heap, and the objects with entries. -/
def Heap.Inhabits (h : Heap) : Thing → Prop
  | .object id => id ∈ h.cells ∨ id ∈ h.packages ∨ id ∈ h.closures
  | .frame id => id < h.frames.size

/-- **A set of things that stands by itself**: each is there, and held or referred to by one of
them. -/
def Heap.Supports (h : Heap) (a : Anchors) (S : Thing → Prop) : Prop :=
  ∀ x, S x → h.Inhabits x ∧ (a.Holds x ∨ ∃ y, S y ∧ h.Refers y x)

/-- **A heap of known values**, among which an identity belongs to one value. -/
structure Heap.Orderly (h : Heap) (K : Value → Prop) : Prop where
  mentioned : ∀ {v : Value}, h.Mentions v → K v
  part : ∀ {v p : Value}, K v → p ∈ v.parts → K p
  unique : ∀ {u v : Value}, K u → K v → u.id = v.id → u = v

theorem Registry.Fits.orderly {w : Registry} {h : Heap} (hw : w.Fits h) : h.Orderly w.Knows :=
  ⟨hw.mentioned, fun hv hp => (hv.part hp).1, Registry.Knows.eq_of_id⟩

section

variable {h : Heap} {K : Value → Prop} (hK : h.Orderly K)

include hK

/-- What is reached is known, and reaches no more. -/
theorem Heap.Orderly.mem_reach {v : Value} (hv : K v) {id : ObjectId} (hid : id ∈ v.reach) :
    ∃ u, K u ∧ u.id = id ∧ u.reach ⊆ v.reach ∧ sizeOf u ≤ sizeOf v := by
  induction v with
  | cons i car cdr ihcar ihcdr =>
      rcases List.mem_cons.1 hid with rfl | hid
      · exact ⟨_, hv, rfl, List.Subset.refl _, Nat.le_refl _⟩
      · rcases List.mem_append.1 hid with hid | hid
        · obtain ⟨u, hu, rfl, hsub, hsize⟩ := ihcar (hK.part hv (by simp [Value.parts])) hid
          refine ⟨u, hu, rfl, fun j hj => List.mem_cons_of_mem _ ?_, ?_⟩
          · exact List.mem_append_left _ (hsub hj)
          · simp only [Value.cons.sizeOf_spec]
            omega
        · obtain ⟨u, hu, rfl, hsub, hsize⟩ := ihcdr (hK.part hv (by simp [Value.parts])) hid
          refine ⟨u, hu, rfl, fun j hj => List.mem_cons_of_mem _ ?_, ?_⟩
          · exact List.mem_append_right _ (hsub hj)
          · simp only [Value.cons.sizeOf_spec]
            omega
  | closure i name =>
      cases name with
      | none =>
          obtain rfl := List.mem_singleton.1 hid
          exact ⟨_, hv, rfl, List.Subset.refl _, Nat.le_refl _⟩
      | some s =>
          rcases List.mem_cons.1 hid with rfl | hid
          · exact ⟨_, hv, rfl, List.Subset.refl _, Nat.le_refl _⟩
          · obtain rfl := List.mem_singleton.1 hid
            refine ⟨.symbol s, hK.part hv (by simp [Value.parts]), rfl, ?_, ?_⟩
            · exact fun j hj => List.mem_cons_of_mem _ hj
            · simp only [Value.symbol.sizeOf_spec, Value.closure.sizeOf_spec,
                Option.some.sizeOf_spec]
              omega
  | _ =>
      obtain rfl := List.mem_singleton.1 hid
      exact ⟨_, hv, rfl, List.Subset.refl _, Nat.le_refl _⟩

end

/-! ## Populations as sets -/

namespace Population

/-- The members of a population. -/
def Has (p : Population) : Thing → Prop
  | .object id => id ∈ p.objects
  | .frame id => id ∈ p.frames

variable {p q : Population} {x : Thing}

theorem not_has_empty : ¬ empty.Has x := by
  cases x <;> exact Std.TreeSet.not_mem_emptyc

theorem has_addObject {id : ObjectId} : (p.addObject id).Has x ↔ p.Has x ∨ x = .object id := by
  cases x with
  | object i =>
      show i ∈ p.objects.insert id ↔ i ∈ p.objects ∨ _
      rw [Std.TreeSet.mem_insert, Std.LawfulEqCmp.compare_eq_iff_eq, Thing.object.injEq, or_comm,
        eq_comm]
  | frame f => simp [addObject, Has]

theorem has_addFrame {id : FrameId} : (p.addFrame id).Has x ↔ p.Has x ∨ x = .frame id := by
  cases x with
  | object i => simp [addFrame, Has]
  | frame f =>
      show f ∈ p.frames.insert id ↔ f ∈ p.frames ∨ _
      rw [Std.TreeSet.mem_insert, Std.LawfulEqCmp.compare_eq_iff_eq, Thing.frame.injEq, or_comm,
        eq_comm]

theorem mem_filter_contains {s t : Std.TreeSet Nat} {n : Nat} :
    n ∈ s.filter t.contains ↔ n ∈ s ∧ n ∈ t := by
  rw [Std.TreeSet.mem_filter]
  constructor
  · rintro ⟨hn, ht⟩
    rw [Std.TreeSet.get_eq] at ht
    exact ⟨hn, Std.TreeSet.contains_iff_mem.1 ht⟩
  · rintro ⟨hn, ht⟩
    refine ⟨hn, ?_⟩
    rw [Std.TreeSet.get_eq]
    exact Std.TreeSet.contains_iff_mem.2 ht

theorem has_within : (p.within q).Has x ↔ p.Has x ∧ q.Has x := by
  cases x <;> exact mem_filter_contains

/-- Where nothing is left out of a set, it is part of the other one. -/
theorem mem_of_size_filter {s t : Std.TreeSet Nat} (hsize : (s.filter t.contains).size = s.size)
    {n : Nat} (hn : n ∈ s) : n ∈ t := by
  have hmem := Std.TreeSet.size_filter_eq_size_iff.1 hsize n hn
  rw [Std.TreeSet.get_eq] at hmem
  exact Std.TreeSet.contains_iff_mem.1 hmem

theorem has_of_size_within (hsize : ¬ (p.within q).size < p.size) (hx : p.Has x) : q.Has x := by
  have hobjects : (p.objects.filter q.objects.contains).size ≤ p.objects.size :=
    Std.TreeSet.size_filter_le_size
  have hframes : (p.frames.filter q.frames.contains).size ≤ p.frames.size :=
    Std.TreeSet.size_filter_le_size
  have hsum : p.objects.size + p.frames.size ≤
      (p.objects.filter q.objects.contains).size + (p.frames.filter q.frames.contains).size :=
    Nat.not_lt.1 hsize
  cases x with
  | object id => exact mem_of_size_filter (s := p.objects) (by omega) hx
  | frame id => exact mem_of_size_filter (s := p.frames) (by omega) hx

/-! ## Adding to a population -/

/-- Whatever hangs on a known value that is smaller than the bound is there if the value is. -/
def ClosedBelow (K : Value → Prop) (n : Nat) (p : Population) : Prop :=
  ∀ u, K u → sizeOf u < n → p.Has (.object u.id) → ∀ id ∈ u.reach, p.Has (.object id)

/-- Whatever hangs on a known value is there if the value is. -/
def Closed (K : Value → Prop) (p : Population) : Prop :=
  ∀ u, K u → p.Has (.object u.id) → ∀ id ∈ u.reach, p.Has (.object id)

/-- **What a step adds** to populations. -/
def Adds (K : Value → Prop) (step : Population → Population) (S : Thing → Prop) : Prop :=
  ∀ p, p.Closed K → (step p).Closed K ∧ ∀ x, (step p).Has x ↔ p.Has x ∨ S x

variable {K : Value → Prop} {step step' : Population → Population} {S T : Thing → Prop}

theorem closed_empty (K : Value → Prop) : empty.Closed K := fun _ _ hu => absurd hu not_has_empty

theorem Adds.has_empty (hstep : Adds K step S) : (step empty).Has x ↔ S x := by
  rw [(hstep empty (closed_empty K)).2]
  exact or_iff_right not_has_empty

theorem Adds.comp (hstep : Adds K step S) (hstep' : Adds K step' T) :
    Adds K (fun p => step' (step p)) fun x => S x ∨ T x := by
  intro p hp
  obtain ⟨hclosed, hhas⟩ := hstep p hp
  obtain ⟨hclosed', hhas'⟩ := hstep' (step p) hclosed
  refine ⟨hclosed', fun x => ?_⟩
  rw [hhas', hhas, or_assoc]

theorem Adds.congr (hstep : Adds K step S) (hST : ∀ x, S x ↔ T x) : Adds K step T := by
  intro p hp
  refine ⟨(hstep p hp).1, fun x => ?_⟩
  rw [(hstep p hp).2, hST]

theorem adds_id : Adds K (fun p => p) fun _ => False :=
  fun _ hp => ⟨hp, fun _ => (or_false _).symm ▸ Iff.rfl⟩

theorem Adds.foldl {α : Type} {add : Population → α → Population} {S : α → Thing → Prop}
    {as : List α} (hadd : ∀ a ∈ as, Adds K (add · a) (S a)) :
    Adds K (fun p => as.foldl add p) fun x => ∃ a ∈ as, S a x := by
  induction as with
  | nil => exact adds_id.congr fun x => by simp
  | cons a as ih =>
      obtain ⟨hfirst, hrest⟩ := List.forall_mem_cons.1 hadd
      exact (hfirst.comp (ih hrest)).congr fun x => by simp

/-- An object that hangs together with nothing else. -/
theorem adds_addObject {id : ObjectId} (hid : ∀ u, K u → u.id = id → u.reach = [id]) :
    Adds K (·.addObject id) (· = .object id) := by
  intro p hp
  refine ⟨fun u hu hmem i hi => ?_, fun x => has_addObject⟩
  rw [has_addObject] at hmem ⊢
  rcases hmem with hold | hnew
  · exact .inl (hp u hu hold i hi)
  · rw [hid u hu (Thing.object.inj hnew)] at hi
    exact .inr (congrArg Thing.object (List.mem_singleton.1 hi))

theorem adds_addFrame (id : FrameId) : Adds K (·.addFrame id) (· = .frame id) := by
  intro p hp
  refine ⟨fun u hu hmem i hi => ?_, fun x => has_addFrame⟩
  rw [has_addFrame] at hmem ⊢
  exact .inl (hp u hu (hmem.resolve_right nofun) i hi)

theorem adds_addEnvironment (env : Environment) :
    Adds K (·.addEnvironment env) fun x => ∃ f ∈ env, x = .frame f :=
  Adds.foldl fun f _ => adds_addFrame f

end Population

open Population

section

variable {h : Heap} {K : Value → Prop} (hK : h.Orderly K)

include hK

/-- **The walk through a value** adds what it reaches. -/
theorem Heap.Orderly.has_addValue {v : Value} (hv : K v) {p : Population}
    (hp : p.ClosedBelow K (sizeOf v + 1)) (x : Thing) :
    (p.addValue v).Has x ↔ p.Has x ∨ v.Reaches x := by
  induction v generalizing p x with
  | cons id car cdr ihcar ihcdr =>
      have hcar : K car := hK.part hv (by simp [Value.parts])
      have hcdr : K cdr := hK.part hv (by simp [Value.parts])
      have hsize : sizeOf (Value.cons id car cdr) = 1 + id + sizeOf car + sizeOf cdr := by
        rw [Value.cons.sizeOf_spec]
        rfl
      unfold addValue
      split
      · rename_i hmem
        refine ⟨.inl, fun hx => hx.elim (fun hx => hx) ?_⟩
        rintro ⟨i, hi, rfl⟩
        exact hp _ hv (Nat.lt_succ_self _) (Std.TreeSet.contains_iff_mem.1 hmem) i hi
      · -- no smaller value is the cons that the walk is in now
        have hne : ∀ u, K u → sizeOf u < sizeOf (Value.cons id car cdr) → u.id ≠ id := by
          intro u hu hlt heq
          obtain rfl := hK.unique hu hv heq
          exact Nat.lt_irrefl _ hlt
        have hp₁ : (p.addObject id).ClosedBelow K (sizeOf car + 1) := by
          intro u hu hlt hmem i hi
          have hold := (has_addObject.1 hmem).resolve_right fun heq =>
            hne u hu (by omega) (Thing.object.inj heq)
          exact has_addObject.2 (.inl (hp u hu (by omega) hold i hi))
        have hhas₁ := ihcar hcar hp₁
        have hp₂ : ((p.addObject id).addValue car).ClosedBelow K (sizeOf cdr + 1) := by
          intro u hu hlt hmem i hi
          rw [hhas₁] at hmem ⊢
          rcases hmem with hmem | ⟨j, hj, heq⟩
          · have hold := (has_addObject.1 hmem).resolve_right fun heq =>
              hne u hu (by omega) (Thing.object.inj heq)
            exact .inl (has_addObject.2 (.inl (hp u hu (by omega) hold i hi)))
          · obtain ⟨u', hu', hid, hsub, _⟩ := hK.mem_reach hcar hj
            obtain rfl : u = u' := hK.unique hu hu' ((Thing.object.inj heq).trans hid.symm)
            exact .inr ⟨i, hsub hi, rfl⟩
        rw [ihcdr hcdr hp₂, hhas₁, has_addObject]
        simp only [Value.Reaches, Value.reach, List.mem_cons, List.mem_append, or_and_right,
          exists_or, exists_eq_left, or_assoc]
  | closure id name =>
      cases name with
      | none =>
          simp only [addValue, Value.Reaches, Value.reach, List.mem_singleton, exists_eq_left]
          exact has_addObject
      | some s =>
          simp only [addValue, has_addObject, Value.Reaches, Value.reach, List.mem_cons,
            List.not_mem_nil, or_false, or_and_right, exists_or, exists_eq_left, or_assoc]
  | _ =>
      simp only [addValue, Value.Reaches, Value.reach, List.mem_singleton, exists_eq_left]
      exact has_addObject

theorem Heap.Orderly.adds_addValue {v : Value} (hv : K v) :
    Adds K (·.addValue v) v.Reaches := by
  intro p hp
  have hhas := hK.has_addValue hv (p := p) fun u hu _ => hp u hu
  refine ⟨fun u hu hmem i hi => ?_, hhas⟩
  rw [hhas] at hmem ⊢
  rcases hmem with hold | ⟨j, hj, heq⟩
  · exact .inl (hp u hu hold i hi)
  · obtain ⟨u', hu', hid, hsub, _⟩ := hK.mem_reach hv hj
    obtain rfl : u = u' := hK.unique hu hu' ((Thing.object.inj heq).trans hid.symm)
    exact .inr ⟨i, hsub hi, rfl⟩

theorem Heap.Orderly.adds_addValues {vs : List Value} (hvs : ∀ v ∈ vs, K v) :
    Adds K (·.addValues vs) fun x => ∃ v ∈ vs, v.Reaches x :=
  Adds.foldl fun v hv => hK.adds_addValue (hvs v hv)

theorem Heap.Orderly.adds_addSymbols {ss : List Symbol} (hss : ∀ s ∈ ss, K (.symbol s)) :
    Adds K (·.addSymbols ss) fun x => ∃ v ∈ ss.map Value.symbol, v.Reaches x := by
  have hadd : ∀ s ∈ ss, Adds K (fun p => p.addObject s.id) (Value.symbol s).Reaches :=
    fun s hs => hK.adds_addValue (hss s hs)
  exact (Adds.foldl hadd).congr fun x => by simp

theorem Heap.Orderly.adds_addClosure {id : ObjectId} {c : Closure}
    (hc : h.closures[id]? = some c) : Adds K (Heap.addClosure · c) c.Refers := by
  have hobjects : ∀ v ∈ c.objects, K v := fun v hv => hK.mentioned (.code hc hv)
  have hsymbol : ∀ s ∈ c.params ++ c.rest.toList, K (.symbol s) := fun s hs =>
    hobjects _ (List.mem_append_left _ (List.mem_map_of_mem hs))
  have hparams := hK.adds_addSymbols fun s hs => hsymbol s (List.mem_append_left _ hs)
  have hrest := hK.adds_addSymbols fun s hs => hsymbol s (List.mem_append_right _ hs)
  have hbody := hK.adds_addValues fun v hv => hobjects v (List.mem_append_right _ hv)
  refine (((hparams.comp hrest).comp hbody).comp (adds_addEnvironment c.env)).congr fun x => ?_
  simp only [Closure.Refers, Closure.objects, List.map_append, List.mem_append, or_and_right,
    exists_or]

omit hK in
theorem mem_values {t : Std.TreeMap String Symbol} {s : Symbol} :
    s ∈ t.values ↔ ∃ name : String, t[name]? = some s := by
  have hvalues : t.values = t.toList.map Prod.snd := by
    show t.foldr (fun _ v l => v :: l) [] = _
    rw [Std.TreeMap.foldr_eq_foldr_toList]
    induction t.toList with
    | nil => rfl
    | cons x xs ih => rw [List.foldr_cons, ih, List.map_cons]
  rw [hvalues, List.mem_map]
  constructor
  · rintro ⟨⟨name, _⟩, hmem, rfl⟩
    exact ⟨name, Std.TreeMap.mem_toList_iff_getElem?_eq_some.1 hmem⟩
  · rintro ⟨name, hfound⟩
    exact ⟨(name, s), Std.TreeMap.mem_toList_iff_getElem?_eq_some.2 hfound, rfl⟩

theorem Heap.Orderly.adds_addContents (id : ObjectId) :
    Adds K (h.addContents · id) (h.Refers (.object id)) := by
  have hcells : Adds K (fun p => (h.cells[id]?).elim p fun c => p.addValues (Heap.cellValues c))
      fun x => ∃ c, h.cells[id]? = some c ∧ ∃ v ∈ Heap.cellValues c, v.Reaches x := by
    cases hc : h.cells[id]? with
    | none => exact adds_id.congr fun x => by simp
    | some c =>
        have hadds := hK.adds_addValues fun v hv => hK.mentioned (.cell hc hv)
        exact hadds.congr fun x => by simp
  have hpackage : Adds K
      (fun p => (h.packages[id]?).elim p fun package => p.addSymbols package.symbols.values)
      fun x => ∃ name s, h.findSymbol id name = some s ∧ x = .object s.id := by
    have hsymbols : ∀ {name : String} {s : Symbol}, h.findSymbol id name = some s ↔
        ∃ package, h.packages[id]? = some package ∧ package.symbols[name]? = some s := by
      intro name s
      rw [Heap.findSymbol, Heap.symbolsOf]
      cases h.packages[id]? <;> simp
    cases hp : h.packages[id]? with
    | none => exact adds_id.congr fun x => by simp [hsymbols, hp]
    | some package =>
        have hknown : ∀ s ∈ package.symbols.values, K (.symbol s) := by
          intro s hs
          obtain ⟨name, hfound⟩ := mem_values.1 hs
          exact hK.mentioned (.symbol (hsymbols.2 ⟨package, hp, hfound⟩))
        refine (hK.adds_addSymbols hknown).congr fun x => ?_
        simp only [List.mem_map, mem_values, hsymbols, hp, Option.some.injEq, exists_eq_left',
          Value.Reaches]
        constructor
        · rintro ⟨_, ⟨s, ⟨name, hfound⟩, rfl⟩, i, hi, rfl⟩
          exact ⟨name, s, hfound, congrArg Thing.object (List.mem_singleton.1 hi)⟩
        · rintro ⟨name, s, hfound, rfl⟩
          exact ⟨_, ⟨s, ⟨name, hfound⟩, rfl⟩, s.id, List.mem_cons_self, rfl⟩
  have hcode : Adds K (fun p => (h.closures[id]?).elim p (Heap.addClosure p))
      fun x => ∃ c, h.closures[id]? = some c ∧ c.Refers x := by
    cases hc : h.closures[id]? with
    | none => exact adds_id.congr fun x => by simp
    | some c => exact (hK.adds_addClosure hc).congr fun x => by simp
  refine ((hcells.comp hpackage).comp hcode).congr fun x => ⟨?_, ?_⟩
  · rintro ((⟨c, hc, v, hv, hx⟩ | ⟨name, s, hs, rfl⟩) | ⟨c, hc, hx⟩)
    · exact .cell hc hv hx
    · exact .symbol hs
    · exact .code hc hx
  · intro hx
    cases hx with
    | cell hc hv hx => exact .inl (.inl ⟨_, hc, _, hv, hx⟩)
    | symbol hs => exact .inl (.inr ⟨_, _, hs, rfl⟩)
    | code hc hx => exact .inr ⟨_, hc, hx⟩

theorem Heap.Orderly.adds_addVariables (id : FrameId) :
    Adds K (h.addVariables · id) (h.Refers (.frame id)) := by
  have hbinding : ∀ b ∈ (h.frame id).bindings,
      Adds K (fun p => (p.addValue b.object).addValue b.value)
        fun x => b.object.Reaches x ∨ b.value.Reaches x := by
    intro b hb
    have hobjects : ∀ v ∈ [b.object, b.value], K v := fun v hv =>
      hK.mentioned (.frame (List.mem_flatMap.2 ⟨b, hb, hv⟩))
    exact (hK.adds_addValue (hobjects _ List.mem_cons_self)).comp
      (hK.adds_addValue (hobjects _ (List.mem_cons_of_mem _ List.mem_cons_self)))
  refine (Adds.foldl hbinding).congr fun x => ⟨?_, ?_⟩
  · rintro ⟨b, hb, hx | hx⟩
    · exact .frame (List.mem_flatMap.2 ⟨b, hb, List.mem_cons_self⟩) hx
    · exact .frame
        (List.mem_flatMap.2 ⟨b, hb, List.mem_cons_of_mem _ List.mem_cons_self⟩) hx
  · rintro ⟨_, _⟩
    rename_i v hv hx
    obtain ⟨b, hb, hv⟩ := List.mem_flatMap.1 hv
    rcases List.mem_cons.1 hv with rfl | hv
    · exact ⟨b, hb, .inl hx⟩
    · exact ⟨b, hb, .inr (List.mem_singleton.1 hv ▸ hx)⟩

theorem Heap.Orderly.adds_addAnchors {a : Anchors} (ha : ∀ v ∈ a.values, K v) :
    Adds K (·.addAnchors a) a.Holds :=
  (hK.adds_addValues ha).comp (Adds.foldl fun env _ => adds_addEnvironment env)

/-- **What anchors and members refer to.** -/
theorem Heap.Orderly.has_referents {a : Anchors} (ha : ∀ v ∈ a.values, K v) {p : Population}
    {x : Thing} : (h.referents a p).Has x ↔ a.Holds x ∨ ∃ y, p.Has y ∧ h.Refers y x := by
  have hobjects : Adds K (fun q => p.objects.foldl h.addContents q)
      fun x => ∃ id ∈ p.objects, h.Refers (.object id) x := by
    simp only [Std.TreeSet.foldl_eq_foldl_toList]
    exact (Adds.foldl fun id _ => hK.adds_addContents id).congr fun x => by
      simp only [Std.TreeSet.mem_toList]
  have hframes : Adds K (fun q => p.frames.foldl h.addVariables q)
      fun x => ∃ id ∈ p.frames, h.Refers (.frame id) x := by
    simp only [Std.TreeSet.foldl_eq_foldl_toList]
    exact (Adds.foldl fun id _ => hK.adds_addVariables id).congr fun x => by
      simp only [Std.TreeSet.mem_toList]
  have hall := ((hK.adds_addAnchors ha).comp hobjects).comp hframes
  have hthing : ∀ P : Thing → Prop, (∃ y, p.Has y ∧ P y) ↔
      (∃ id ∈ p.objects, P (.object id)) ∨ ∃ id ∈ p.frames, P (.frame id) := by
    refine fun P => ⟨?_, ?_⟩
    · rintro ⟨id | id, hy, hP⟩
      · exact .inl ⟨id, hy, hP⟩
      · exact .inr ⟨id, hy, hP⟩
    · rintro (⟨id, hy, hP⟩ | ⟨id, hy, hP⟩)
      · exact ⟨.object id, hy, hP⟩
      · exact ⟨.frame id, hy, hP⟩
  rw [hthing fun y => h.Refers y x, ← or_assoc]
  exact hall.has_empty

end

/-! ## What is left in the end -/

theorem Heap.has_population {h : Heap} {x : Thing} : h.population.Has x ↔ h.Inhabits x := by
  -- identities are added without a look at what hangs on them
  have hkeys : ∀ ids : List ObjectId, Adds (fun _ => False)
      (fun p => ids.foldl addObject p) fun x => ∃ id ∈ ids, x = .object id :=
    fun ids => Adds.foldl fun id _ => adds_addObject nofun
  have hframes : Adds (fun _ => False) (fun p => (List.range h.frames.size).foldl addFrame p)
      fun x => ∃ id ∈ List.range h.frames.size, x = .frame id :=
    Adds.foldl fun id _ => adds_addFrame id
  have hall := (((hkeys h.cells.keys).comp (hkeys h.packages.keys)).comp
    (hkeys h.closures.keys)).comp hframes
  refine (hall.has_empty (x := x)).trans ?_
  cases x with
  | object id => simp [Heap.Inhabits, or_assoc]
  | frame id => simp [Heap.Inhabits]

section

variable {h : Heap} {K : Value → Prop} (hK : h.Orderly K) {a : Anchors}
  (ha : ∀ v ∈ a.values, K v)

include hK ha

/-- What is left in the end is referred to, by an anchor or by something that is left. -/
theorem Heap.Orderly.has_settle {p : Population} {x : Thing} (hx : (h.settle a p).Has x) :
    p.Has x ∧ (a.Holds x ∨ ∃ y, (h.settle a p).Has y ∧ h.Refers y x) := by
  fun_induction Heap.settle h a p with
  | case1 p q hlt ih => exact ⟨(has_within.1 (ih hx).1).1, (ih hx).2⟩
  | case2 p q hle => exact ⟨hx, (hK.has_referents ha).1 (has_of_size_within hle hx)⟩

/-- A set that stands by itself is never touched. -/
theorem Heap.Orderly.settle_has {p : Population} {S : Thing → Prop} (hS : h.Supports a S)
    (hp : ∀ x, S x → p.Has x) {x : Thing} (hx : S x) : (h.settle a p).Has x := by
  fun_induction Heap.settle h a p with
  | case1 p q hlt ih =>
      refine ih fun y hy => has_within.2 ⟨hp y hy, (hK.has_referents ha).2 ?_⟩
      exact (hS y hy).2.imp_right fun ⟨z, hz, hrefers⟩ => ⟨z, hp z hz, hrefers⟩
  | case2 p q hle => exact hp x hx

/-- **A package lives if it belongs to a set of things that stands by itself.** -/
theorem Heap.Orderly.keeps_iff {package : ObjectId} :
    h.keeps a package = true ↔ ∃ S, h.Supports a S ∧ S (.object package) := by
  rw [Heap.keeps, Std.TreeSet.contains_iff_mem]
  constructor
  · intro hmem
    refine ⟨(h.survivors a).Has, fun x hx => ?_, hmem⟩
    have hsettled := hK.has_settle ha hx
    exact ⟨Heap.has_population.1 hsettled.1, hsettled.2⟩
  · rintro ⟨S, hS, hmem⟩
    exact hK.settle_has ha hS (fun x hx => Heap.has_population.2 (hS x hx).1) hmem

end

end SmallLisp
