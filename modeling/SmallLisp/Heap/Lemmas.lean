import SmallLisp.Heap.Basic

set_option autoImplicit false

/-! # How the operations on a heap show

For each operation that changes a heap, what it does to the look-ups: variables of frames,
elements of lists, symbols of packages, cells of symbols.
-/

namespace SmallLisp

/-! ## Frames -/

/-- A new value for a variable leaves the variable as it is. -/
@[simp]
theorem Binding.key_mk_object (b : Binding) (value : Value) :
    (Binding.mk b.object value).key = b.key := rfl

namespace Frame

@[simp]
theorem keys_assignFirst (key : ObjectId) (value : Value) (bs : List Binding) :
    (assignFirst key value bs).map Binding.key = bs.map Binding.key := by
  induction bs with
  | nil => rfl
  | cons b bs ih =>
      unfold assignFirst
      split
      · rfl
      · simp [ih]

theorem find?_assignFirst_same {key : ObjectId} {value : Value} {bs : List Binding}
    (h : bs.any (·.key == key) = true) :
    ((assignFirst key value bs).find? (·.key == key)).map Binding.value = some value := by
  induction bs with
  | nil => simp at h
  | cons b bs ih =>
      unfold assignFirst
      split
      · rename_i hb
        simp [hb]
      · rename_i hb
        simp only [List.any_cons, Bool.or_eq_true] at h
        rcases h with h | h
        · exact absurd h hb
        · simp [hb, ih h]

theorem find?_assignFirst_other {key other : ObjectId} (value : Value) (bs : List Binding)
    (h : other ≠ key) :
    (assignFirst key value bs).find? (·.key == other) = bs.find? (·.key == other) := by
  induction bs with
  | nil => rfl
  | cons b bs ih =>
      unfold assignFirst
      split
      · rename_i hb
        have hne : (b.key == other) = false := by
          have hk : b.key = key := by simpa using hb
          simp [hk, Ne.symm h]
        simp [hne]
      · simp only [List.find?_cons, ih]

/-- A frame binds a variable exactly if looking it up there finds a value. -/
theorem isSome_lookup (f : Frame) (key : ObjectId) : (f.lookup key).isSome = f.binds key := by
  rw [lookup, binds, Option.isSome_map, Bool.eq_iff_iff, List.find?_isSome, List.any_eq_true]

theorem lookup_assign_same {f : Frame} {key : ObjectId} (value : Value)
    (h : f.binds key = true) : (f.assign key value).lookup key = some value :=
  find?_assignFirst_same h

theorem lookup_assign_other {key other : ObjectId} (f : Frame) (value : Value)
    (h : other ≠ key) : (f.assign key value).lookup other = f.lookup other := by
  simp only [lookup, assign, find?_assignFirst_other value f.bindings h]

/-- An assignment gives a frame no new variables. -/
theorem binds_assign (f : Frame) (key other : ObjectId) (value : Value) :
    (f.assign key value).binds other = f.binds other := by
  have hkeys : ∀ bs : List Binding,
      bs.any (·.key == other) = (bs.map Binding.key).any (· == other) := by
    intro bs
    rw [List.any_map]
    rfl
  rw [binds, hkeys, assign, keys_assignFirst, ← hkeys, binds]

end Frame

/-! ## Environments -/

/-- Frames pushed on an environment are removed by going back to its depth. -/
@[simp]
theorem Environment.truncate_append (pushed env : List FrameId) :
    Environment.truncate (pushed ++ env) env.length = env := by
  simp [Environment.truncate]

/-- Frames that are taken off in two steps can be taken off in one. -/
theorem Environment.truncate_truncate {env : Environment} {m n : Nat} (hle : n ≤ m) :
    (env.truncate m).truncate n = env.truncate n := by
  simp only [Environment.truncate, List.drop_drop, List.length_drop]
  congr 1
  omega

namespace Heap

/-- What a frame is after a variable of some frame has been assigned. -/
theorem frame_modify (h : Heap) (id id' : FrameId) (key : ObjectId) (v : Value) :
    frame { h with frames := h.frames.modify id (·.assign key v) } id' =
      if id = id' then (h.frame id').assign key v else h.frame id' := by
  simp only [frame, Array.getElem?_modify]
  split
  · cases h.frames[id']? <;> rfl
  · rfl

/-! ## Lists -/

/-- The elements of a new list are those that it was made of, and then those of its tail. -/
theorem items?_listWithTail (h : Heap) (tail : Value) (xs : List Value) :
    (h.listWithTail tail xs).1.items? = tail.items?.map (xs ++ ·) := by
  induction xs with
  | nil => simp [listWithTail]
  | cons x xs ih =>
      show (h.listWithTail tail xs).1.items?.map (x :: ·) = _
      rw [ih, Option.map_map]
      rfl

/-- A new list takes up identities and changes nothing else. -/
theorem listWithTail_heap (h : Heap) (tail : Value) (xs : List Value) :
    (h.listWithTail tail xs).2 = { h with next := h.next + xs.length } := by
  induction xs with
  | nil => rfl
  | cons x xs ih =>
      show ((h.listWithTail tail xs).2.cons x _).2 = _
      rw [ih]
      rfl

/-! ## Cells -/

theorem cellsOf_setCells (h : Heap) (s s' : Symbol) (c : Cells) :
    (h.setCells s c).cellsOf s' = if s.id = s'.id then c else h.cellsOf s' := by
  simp only [cellsOf, setCells, Std.TreeMap.getD_insert, Std.LawfulEqCmp.compare_eq_iff_eq]

/-- The cells of a symbol are those of its identity. -/
theorem cellsOf_congr (h : Heap) {s s' : Symbol} (hid : s.id = s'.id) :
    h.cellsOf s = h.cellsOf s' := by
  rw [cellsOf, cellsOf, hid]

theorem cellsOf_setFunction (h : Heap) (s s' : Symbol) (v : Value) :
    (h.setFunction s v).cellsOf s' =
      if s.id = s'.id then { h.cellsOf s' with function := some v } else h.cellsOf s' := by
  rw [setFunction, cellsOf_setCells]
  split
  · rename_i hid
    rw [h.cellsOf_congr hid]
  · rfl

theorem cellsOf_setValue (h : Heap) (s s' : Symbol) (v : Value) :
    (h.setValue s v).cellsOf s' =
      if s.id = s'.id then { h.cellsOf s' with value := some v } else h.cellsOf s' := by
  rw [setValue, cellsOf_setCells]
  split
  · rename_i hid
    rw [h.cellsOf_congr hid]
  · rfl

/-! ## Symbols -/

theorem symbolsOf_enter (h : Heap) (package : ObjectId) (s : Symbol)
    (hp : package ∈ h.packages) :
    (h.enter package s).symbolsOf package = (h.symbolsOf package).insert s.name s := by
  obtain ⟨p, hp⟩ : ∃ p, h.packages[package]? = some p := by
    exact ⟨_, Std.TreeMap.getElem?_eq_some_getElem hp⟩
  simp [symbolsOf, enter, hp]

/-- What has been interned is found again. -/
theorem findSymbol_intern (h : Heap) (package : ObjectId) (name : String)
    (hp : package ∈ h.packages) :
    (h.intern package name).2.findSymbol package name = some (h.intern package name).1 := by
  unfold intern
  split
  · rename_i s hs
    exact hs
  · have : package ∈ (h.makeSymbol package name false).2.packages := hp
    rw [findSymbol, symbolsOf_enter _ _ _ this]
    simp [makeSymbol]

end Heap

end SmallLisp
