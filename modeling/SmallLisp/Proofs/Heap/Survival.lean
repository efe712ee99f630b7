import SmallLisp.Proofs.Heap.Lifetimes
import SmallLisp.Proofs.Heap.Moving

set_option autoImplicit false

/-! # Lifetimes under other names

What lives in a heap depends on what is held and on what refers to what (`Heap.Orderly.keeps_iff`).
In a heap that follows another one all this is the same under other names, and so what lives there
is the same too (`Renaming.Follows.keeps_eq`). The host may have more than the guest, if what is
there besides refers to nothing of the guest but what is held anyway.
-/

namespace SmallLisp

namespace Renaming

/-! ## Values and what they reach -/

section

variable (r : Renaming)

/-- A thing, renamed. -/
def thing : Thing → Thing
  | .object id => .object (r.object id)
  | .frame id => .frame (r.frameId id)

theorem thing_injective : Function.Injective r.thing := by
  rintro (id | id) (id' | id') heq
  · exact congrArg Thing.object (r.object_injective (Thing.object.inj heq))
  · cases heq
  · cases heq
  · exact congrArg Thing.frame (r.frameId_injective (Thing.frame.inj heq))

theorem parts_value (v : Value) : (r.value v).parts = v.parts.map r.value := by
  cases v with
  | closure id name => cases name <;> rfl
  | _ => rfl

theorem reach_value (v : Value) : (r.value v).reach = v.reach.map r.object := by
  induction v with
  | cons id car cdr ihcar ihcdr =>
      rw [value, Value.reach, ihcar, ihcdr, Value.reach, List.map_cons, List.map_append]
  | closure id name => cases name <;> rfl
  | _ => rfl

theorem reaches_value {v : Value} {x : Thing} : (r.value v).Reaches (r.thing x) ↔ v.Reaches x := by
  unfold Value.Reaches
  rw [reach_value]
  constructor
  · rintro ⟨_, hmem, heq⟩
    obtain ⟨id, hid, rfl⟩ := List.mem_map.1 hmem
    exact ⟨id, hid, r.thing_injective heq⟩
  · rintro ⟨id, hid, rfl⟩
    exact ⟨_, List.mem_map_of_mem hid, rfl⟩

theorem exists_reaches_map {vs : List Value} {x : Thing} :
    (∃ u ∈ vs.map r.value, u.Reaches (r.thing x)) ↔ ∃ v ∈ vs, v.Reaches x := by
  simp only [List.mem_map, exists_exists_and_eq_and, reaches_value]

theorem exists_mem_env {e : Environment} {x : Thing} :
    (∃ f ∈ r.env e, r.thing x = .frame f) ↔ ∃ f ∈ e, x = .frame f := by
  simp only [env, List.mem_map, exists_exists_and_eq_and]
  exact exists_congr fun f => and_congr_right fun _ => r.thing_injective.eq_iff (b := .frame f)

theorem objects_closure (c : Closure) : (r.closure c).objects = c.objects.map r.value := by
  obtain ⟨params, rest, body, env⟩ := c
  simp only [closure, Closure.objects, List.map_append, List.map_map, values]
  cases rest <;> rfl

theorem objects_frame (f : Frame) : (r.frame f).objects = f.objects.map r.value := by
  obtain ⟨bindings⟩ := f
  simp only [frame, Frame.objects, List.flatMap_map, List.map_flatMap]
  rfl

theorem cellValues_cells (c : Cells) :
    Heap.cellValues (r.cells c) = (Heap.cellValues c).map r.value := by
  obtain ⟨value, function, plist⟩ := c
  cases value <;> cases function <;> cases plist <;> rfl

theorem refers_closure {c : Closure} {x : Thing} :
    (r.closure c).Refers (r.thing x) ↔ c.Refers x := by
  unfold Closure.Refers
  rw [objects_closure, exists_reaches_map]
  exact or_congr_right r.exists_mem_env

end

/-! ## Heaps -/

variable {r : Renaming} {base host guest : Heap}

/-- The symbols of packages are referred to alike. -/
def SameSymbols (r : Renaming) (host guest : Heap) : Prop :=
  ∀ id i, (∃ name s, host.findSymbol (r.object id) name = some s ∧ s.id = r.object i) ↔
    ∃ name s, guest.findSymbol id name = some s ∧ s.id = i

/-- **What refers to what** does not depend on names. -/
theorem Carries.refers_iff (hh : r.Carries host guest) (hsymbols : r.SameSymbols host guest)
    {x y : Thing} : host.Refers (r.thing y) (r.thing x) ↔ guest.Refers y x := by
  constructor
  · intro hrefers
    generalize hz : r.thing x = z at hrefers
    cases y with
    | object id =>
        cases hrefers with
        | cell hc hv hx =>
            rw [hh.cells] at hc
            obtain ⟨c, hcell, rfl⟩ := Option.map_eq_some_iff.1 hc
            rw [cellValues_cells] at hv
            obtain ⟨v, hmem, rfl⟩ := List.mem_map.1 hv
            exact .cell hcell hmem (r.reaches_value.1 (hz ▸ hx))
        | symbol hs =>
            cases x with
            | object i =>
                obtain ⟨name, s, hs, rfl⟩ :=
                  (hsymbols id i).1 ⟨_, _, hs, (Thing.object.inj hz).symm⟩
                exact .symbol hs
            | frame f => cases hz
        | code hc hx =>
            rw [hh.closures] at hc
            obtain ⟨c, hcode, rfl⟩ := Option.map_eq_some_iff.1 hc
            exact .code hcode (r.refers_closure.1 (hz ▸ hx))
    | frame f =>
        cases hrefers with
        | frame hv hx =>
            rw [hh.frames, objects_frame] at hv
            obtain ⟨v, hmem, rfl⟩ := List.mem_map.1 hv
            exact .frame hmem (r.reaches_value.1 (hz ▸ hx))
  · intro hrefers
    cases hrefers with
    | cell hc hv hx =>
        refine .cell (by rw [hh.cells, hc]; rfl) ?_ (r.reaches_value.2 hx)
        rw [cellValues_cells]
        exact List.mem_map_of_mem hv
    | symbol hs =>
        obtain ⟨name, s, hs, hid⟩ := (hsymbols _ _).2 ⟨_, _, hs, rfl⟩
        show host.Refers _ (.object (r.object _))
        rw [← hid]
        exact .symbol hs
    | code hc hx => exact .code (by rw [hh.closures, hc]; rfl) (r.refers_closure.2 hx)
    | frame hv hx =>
        refine .frame ?_ (r.reaches_value.2 hx)
        rw [hh.frames, objects_frame]
        exact List.mem_map_of_mem hv

/-- What is there is there under its name. -/
theorem Follows.inhabits_iff (hf : r.Follows base host guest) {x : Thing} :
    host.Inhabits (r.thing x) ↔ guest.Inhabits x := by
  have hmem : ∀ {β γ : Type} {t : Std.TreeMap Nat β} {t' : Std.TreeMap Nat γ} {g : γ → β}
      {id id' : Nat}, t[id]? = t'[id']?.map g → (id ∈ t ↔ id' ∈ t') := by
    intro β γ t t' g id id' heq
    rw [← Std.TreeMap.isSome_getElem?_iff_mem, heq, Option.isSome_map,
      Std.TreeMap.isSome_getElem?_iff_mem]
  cases x with
  | object id =>
      exact or_congr (hmem (hf.cells id)) (or_congr hf.mem_packages (hmem (hf.closures id)))
  | frame id =>
      constructor
      · intro hlt
        by_contra hge
        obtain ⟨n, rfl⟩ := Nat.le.dest (Nat.not_lt.1 hge)
        have hid : r.frameId (guest.frames.size + n) < host.frames.size := hlt
        rw [hf.size] at hid
        exact absurd hid (Nat.not_lt.2 (Nat.le_add_right _ n))
      · exact fun hlt => Continues.lt hf.size r.frameId_injective hlt

/-- **What lives does not depend on names.** What the host has besides may refer to what is held. -/
theorem Follows.keeps_eq (hf : r.Follows base host guest) {K K' : Value → Prop}
    (hK : host.Orderly K) (hK' : guest.Orderly K') {a a' : Anchors} (ha : ∀ v ∈ a.values, K v)
    (ha' : ∀ v ∈ a'.values, K' v) (hsymbols : r.SameSymbols host guest)
    (hholds : ∀ x, a.Holds (r.thing x) ↔ a'.Holds x)
    (haside : ∀ y ∉ Set.range r.thing, ∀ x, host.Refers y (r.thing x) → a'.Holds x)
    (package : ObjectId) : host.keeps a (r.object package) = guest.keeps a' package := by
  rw [Bool.eq_iff_iff, hK.keeps_iff ha, hK'.keeps_iff ha']
  constructor
  · rintro ⟨S, hS, hmem⟩
    refine ⟨fun x => S (r.thing x), fun x hx => ?_, hmem⟩
    obtain ⟨hthere, hwhy⟩ := hS _ hx
    refine ⟨hf.inhabits_iff.1 hthere, ?_⟩
    rcases hwhy with hheld | ⟨y, hy, hrefers⟩
    · exact .inl ((hholds x).1 hheld)
    · by_cases hrange : y ∈ Set.range r.thing
      · obtain ⟨y, rfl⟩ := hrange
        exact .inr ⟨y, hy, (hf.refers_iff hsymbols).1 hrefers⟩
      · exact .inl (haside y hrange x hrefers)
  · rintro ⟨S, hS, hmem⟩
    refine ⟨fun z => ∃ x, S x ∧ z = r.thing x, ?_, _, hmem, rfl⟩
    rintro _ ⟨x, hx, rfl⟩
    obtain ⟨hthere, hwhy⟩ := hS x hx
    refine ⟨hf.inhabits_iff.2 hthere, hwhy.imp (hholds x).2 ?_⟩
    rintro ⟨y, hy, hrefers⟩
    exact ⟨_, ⟨y, hy, rfl⟩, (hf.refers_iff hsymbols).2 hrefers⟩

end Renaming

end SmallLisp
