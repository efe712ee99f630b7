import Mathlib.Tactic.Common
import SmallLisp.Heap.Lemmas

set_option autoImplicit false

/-! # Assignment to shared variables

Frames are shared. An environment is a list of frames, and any number of environments may have a
frame in common: the one that code runs in, those of scopes that are still open, those of closures.
A variable may be bound in several frames of an environment, and several times in one frame. So an
assignment through one environment has an effect on others, but not on all of them.

A variable has a *place* in an environment: the innermost frame that binds it (`Heap.Innermost`),
and there the first binding (`Frame.First`). An assignment replaces the value in that place and
nothing else, and it is seen exactly where the variable has the same place.
-/

namespace SmallLisp

/-! ## Frames -/

/-- **The first binding of a variable** in a frame, between those before it and those after it. -/
structure Frame.First (f : Frame) (key : ObjectId) (before : List Binding) (b : Binding)
    (after : List Binding) : Prop where
  split : f.bindings = before ++ b :: after
  binds : b.key = key
  others : ∀ c ∈ before, c.key ≠ key

namespace Frame

variable {f : Frame} {key : ObjectId} {before after : List Binding} {b : Binding}

/-- A frame that binds a variable has a first binding of it. -/
theorem exists_first (hf : f.binds key = true) : ∃ before b after, f.First key before b after := by
  have hfound : (f.bindings.find? (·.key == key)).isSome = true := by
    rw [← Option.isSome_map (f := Binding.value)]
    exact (f.isSome_lookup key).trans hf
  obtain ⟨b, hb⟩ := Option.isSome_iff_exists.1 hfound
  obtain ⟨hkey, before, after, hsplit, hbefore⟩ := List.find?_eq_some_iff_append.1 hb
  refine ⟨before, b, after, hsplit, by simpa using hkey, fun c hc => ?_⟩
  simpa using hbefore c hc

/-- **An assignment replaces the value of the first binding.** -/
theorem First.assign (hf : f.First key before b after) (v : Value) :
    f.assign key v = ⟨before ++ ⟨b.object, v⟩ :: after⟩ := by
  obtain ⟨hsplit, hkey, hbefore⟩ := hf
  rw [Frame.assign, hsplit]
  congr 1
  clear hsplit
  induction before with
  | nil => simp [assignFirst, hkey]
  | cons c before ih =>
      obtain ⟨hc, hrest⟩ := List.forall_mem_cons.1 hbefore
      simp [assignFirst, hc, ih hrest]

end Frame

/-! ## Places of variables -/

/-- **The innermost frame that binds a variable** in an environment. -/
def Heap.Innermost (h : Heap) (env : Environment) (key : ObjectId) (id : FrameId) : Prop :=
  ∃ above below, env = above ++ id :: below ∧ (h.frame id).binds key = true ∧
    ∀ f ∈ above, (h.frame f).binds key = false

namespace Heap

variable {h : Heap} {env : Environment} {key : ObjectId} {id : FrameId}

theorem binder?_eq_some_iff : h.binder? env key = some id ↔ h.Innermost env key id := by
  rw [binder?, List.find?_eq_some_iff_append]
  constructor
  · rintro ⟨hid, above, below, henv, habove⟩
    exact ⟨above, below, henv, hid, fun f hf => by simpa using habove f hf⟩
  · rintro ⟨above, below, henv, hid, habove⟩
    exact ⟨hid, above, below, henv, fun f hf => by simp [habove f hf]⟩

/-- A variable is looked up in the innermost frame that binds it. -/
theorem lookup_eq_bind (h : Heap) (env : Environment) (key : ObjectId) :
    h.lookup env key = (h.binder? env key).bind fun id => (h.frame id).lookup key := by
  induction env with
  | nil => rfl
  | cons f env ih =>
      have hbinds := (h.frame f).isSome_lookup key
      simp only [lookup, binder?, List.findSome?_cons, List.find?_cons, ← hbinds] at ih ⊢
      cases hf : (h.frame f).lookup key with
      | some v => simp [hf]
      | none => simpa using ih

theorem Innermost.lookup (hi : h.Innermost env key id) :
    h.lookup env key = (h.frame id).lookup key := by
  rw [lookup_eq_bind, binder?_eq_some_iff.2 hi]
  rfl

theorem Innermost.binds (hi : h.Innermost env key id) : (h.frame id).binds key = true := by
  obtain ⟨_, _, _, hid, _⟩ := hi
  exact hid

/-- A variable that has a value has a place. -/
theorem isSome_lookup_iff : (h.lookup env key).isSome ↔ ∃ id, h.Innermost env key id := by
  constructor
  · intro hsome
    rw [lookup_eq_bind] at hsome
    cases hbinder : h.binder? env key with
    | none => simp [hbinder] at hsome
    | some id => exact ⟨id, binder?_eq_some_iff.1 hbinder⟩
  · rintro ⟨id, hi⟩
    rw [hi.lookup, Frame.isSome_lookup, hi.binds]

/-- A frame that binds something is there. -/
theorem lt_size_of_binds (hid : (h.frame id).binds key = true) : id < h.frames.size := by
  by_contra hge
  rw [Heap.frame, Array.getElem?_eq_none (Nat.le_of_not_lt hge)] at hid
  exact absurd hid (by simp [Frame.binds])

/-! ## Assignment -/

/-- **An assignment is made in the innermost frame**, if there is one. -/
theorem assign?_eq_some (hi : h.Innermost env key id) (v : Value) :
    h.assign? env key v = some { h with frames := h.frames.modify id (·.assign key v) } := by
  rw [assign?, binder?_eq_some_iff.2 hi]
  rfl

theorem isSome_assign?_iff (v : Value) :
    (h.assign? env key v).isSome ↔ (h.lookup env key).isSome := by
  rw [isSome_lookup_iff, assign?, Option.isSome_map, Option.isSome_iff_exists]
  exact exists_congr fun id => binder?_eq_some_iff

/-- The heap with a variable of a frame assigned, when its first binding is known. -/
theorem modify_assign_eq {before after : List Binding} {b : Binding}
    (hfirst : (h.frame id).First key before b after) (v : Value) :
    ({ h with frames := h.frames.modify id (·.assign key v) } : Heap) =
      { h with frames := h.frames.setIfInBounds id ⟨before ++ ⟨b.object, v⟩ :: after⟩ } := by
  have hassigned := hfirst.assign v
  congr 1
  ext1
  · simp
  · rename_i i hi hi'
    rw [Array.getElem_modify, Array.getElem_setIfInBounds (by simpa using hi)]
    split
    · rename_i heq
      subst heq
      rw [← hassigned, Heap.frame, Array.getElem?_eq_getElem (by simpa using hi)]
      rfl
    · rfl

/-- Variables keep their places. -/
theorem innermost_modify_iff {v : Value} {env' : Environment} {key' : ObjectId} {id' : FrameId} :
    Innermost { h with frames := h.frames.modify id (·.assign key v) } env' key' id' ↔
      h.Innermost env' key' id' := by
  have hbinds : ∀ f, (frame { h with frames := h.frames.modify id (·.assign key v) } f).binds key' =
      (h.frame f).binds key' := by
    intro f
    rw [frame_modify]
    split
    · exact Frame.binds_assign _ key key' v
    · rfl
  simp only [Innermost, hbinds]

/-- **Where the variable has the assigned place, the new value is seen.** -/
theorem lookup_modify_same {env' : Environment} (v : Value) (hi : h.Innermost env' key id) :
    lookup { h with frames := h.frames.modify id (·.assign key v) } env' key = some v := by
  rw [Innermost.lookup (innermost_modify_iff.2 hi), frame_modify, if_pos rfl]
  exact Frame.lookup_assign_same v hi.binds

/-- **Everywhere else what was seen before is seen**, by this variable or another one. -/
theorem lookup_modify_other {env' : Environment} {key' : ObjectId} (v : Value)
    (hother : ¬ (key' = key ∧ h.Innermost env' key id)) :
    lookup { h with frames := h.frames.modify id (·.assign key v) } env' key' =
      h.lookup env' key' := by
  set h' : Heap := { h with frames := h.frames.modify id (·.assign key v) }
  have hplaces : h'.binder? env' key' = h.binder? env' key' := by
    refine Option.ext fun id' => ?_
    rw [binder?_eq_some_iff, binder?_eq_some_iff, innermost_modify_iff]
  rw [lookup_eq_bind, lookup_eq_bind, hplaces]
  cases hbinder : h.binder? env' key' with
  | none => rfl
  | some id' =>
      show (h'.frame id').lookup key' = (h.frame id').lookup key'
      rw [frame_modify]
      split
      · rename_i heq
        subst heq
        -- the same frame, so the variable is another one
        refine Frame.lookup_assign_other _ v fun hkey => hother ⟨hkey, ?_⟩
        exact hkey ▸ binder?_eq_some_iff.1 hbinder
      · rfl

end Heap

/-- **An assignment under sharing.** It succeeds exactly if the variable has a value in the
environment, and otherwise nothing changes. If it succeeds, one binding changes: the first one of
the variable in the innermost frame that binds it. Afterwards the new value is seen in every
environment in which that frame is the innermost one that binds the variable. In all others, and of
all other variables, what was seen before is seen. -/
theorem assignment_changes_one_binding (h : Heap) (env : Environment) (key : ObjectId)
    (v : Value) :
    let h' := (h.assign? env key v).getD h
    ((h.assign? env key v).isSome ↔ (h.lookup env key).isSome) ∧
    (h.lookup env key = none → h' = h) ∧
    ((h.lookup env key).isSome → ∃ id before b after, h.Innermost env key id ∧
      (h.frame id).First key before b after ∧ id < h.frames.size ∧
      h' = { h with frames := h.frames.setIfInBounds id ⟨before ++ ⟨b.object, v⟩ :: after⟩ } ∧
      (∀ env', h.Innermost env' key id → h'.lookup env' key = some v) ∧
      ∀ env' key', ¬ (key' = key ∧ h.Innermost env' key id) →
        h'.lookup env' key' = h.lookup env' key') := by
  intro h'
  refine ⟨Heap.isSome_assign?_iff v, fun hnone => ?_, fun hsome => ?_⟩
  · have hfails : h.assign? env key v = none := by
      rw [← Option.not_isSome_iff_eq_none, Heap.isSome_assign?_iff, hnone]
      simp
    show (h.assign? env key v).getD h = h
    rw [hfails]
    rfl
  · obtain ⟨id, hi⟩ := Heap.isSome_lookup_iff.1 hsome
    obtain ⟨before, b, after, hfirst⟩ := Frame.exists_first hi.binds
    have hh' : h' = { h with frames := h.frames.modify id (·.assign key v) } := by
      show (h.assign? env key v).getD h = _
      rw [Heap.assign?_eq_some hi]
      rfl
    refine ⟨id, before, b, after, hi, hfirst, Heap.lt_size_of_binds hi.binds, ?_, ?_, ?_⟩
    · rw [hh', Heap.modify_assign_eq hfirst]
    · intro env' henv'
      rw [hh', Heap.lookup_modify_same v henv']
    · intro env' key' hother
      rw [hh', Heap.lookup_modify_other v hother]

/-- Two environments share a frame that binds a variable twice. An assignment through one of them
changes the first of the two bindings, and is not seen through the other, where the variable is
bound again further inside. -/
theorem assignment_shadowed_elsewhere :
    let x := Value.string 1 "x"
    let y := Value.string 2 "y"
    let shared : Frame := ⟨[⟨x, y⟩, ⟨x, x⟩]⟩
    let h : Heap := { Heap.empty with frames := #[shared, ⟨[⟨x, x⟩]⟩, ⟨[⟨y, x⟩]⟩] }
    let v := Value.string 3 "new"
    let h' := (h.assign? [2, 0] 1 v).getD h
    (h.lookup [2, 0] 1).isSome = true ∧ (h'.frame 0).bindings = [⟨x, v⟩, ⟨x, x⟩] ∧
      h'.lookup [0] 1 = some v ∧ h'.lookup [1, 0] 1 = some x := by
  intro x y shared h v h'
  have hsome : (h.lookup [2, 0] 1).isSome = true := by decide
  have hplaces : h.binder? [2, 0] 1 = some 0 ∧ h.binder? [0] 1 = some 0 ∧
      h.binder? [1, 0] 1 = some 1 ∧ h.lookup [1, 0] 1 = some x := by decide
  obtain ⟨hplace, houter, hinner, hold⟩ := hplaces
  obtain ⟨id, _, _, _, hi, _, _, _, hseen, hunseen⟩ :=
    (assignment_changes_one_binding h [2, 0] 1 v).2.2 hsome
  obtain rfl : 0 = id := Option.some.inj (hplace.symm.trans (Heap.binder?_eq_some_iff.2 hi))
  refine ⟨hsome, by decide, hseen [0] (Heap.binder?_eq_some_iff.1 houter), ?_⟩
  rw [← hold]
  refine hunseen [1, 0] 1 fun hsame => ?_
  have hzero := hinner.symm.trans (Heap.binder?_eq_some_iff.2 hsame.2)
  exact absurd hzero (by decide)

end SmallLisp
