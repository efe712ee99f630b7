import SmallLisp.Proofs.Eval.Alive
import SmallLisp.Proofs.Eval.Coupled

set_option autoImplicit false

/-! # Two runs in step

A run that is ahead of another one is coupled to it (`Ahead.coupling`). What either of them does to
the heap both do. Only when the guest interns the marker of lambda lists nothing happens in the
host, which has one. From then on the marker of the host is the name of the marker of the guest, and
what comes later has the names that it would have had two numbers earlier (`Ahead.spliced`).
-/

namespace SmallLisp.Ahead

variable {lisp : Interpreter} {A : Ahead lisp} {w : Names lisp} {host guest : Heap}

/-! ## What both runs do -/

/-- What does not touch packages, done on both sides. -/
theorem Heaps.later (hh : A.Heaps w host guest) {host' guest' : Heap}
    {post : (Registry.law lisp).World → Prop}
    (hr : (Registry.law lisp).Reaches w.world guest' post)
    (hf : w.ren.Follows A.aside host' guest') (hhost : host'.packages = host.packages)
    (hguest : guest'.packages = guest.packages) :
    ∃ u, w ≤ w.later u ∧ A.Heaps (w.later u) host' guest' ∧ post u := by
  obtain ⟨u, hu, hfits, hpost⟩ := hr
  have hfind : ∀ id name, host'.findSymbol id name = host.findSymbol id name ∧
      guest'.findSymbol id name = guest.findSymbol id name := fun id name =>
    ⟨Heap.findSymbol_congr (by rw [hhost]) name, Heap.findSymbol_congr (by rw [hguest]) name⟩
  refine ⟨u, w.le_later hu, ?_, hpost⟩
  exact
    { known := hfits
      since := hh.since.trans hu
      follows := hf
      frames := hh.frames
      fixed := hh.fixed
      apart := hh.apart
      package := hguest ▸ hh.package
      symbols := fun id name hne => by
        rw [(hfind _ _).1, (hfind _ _).2]
        exact hh.symbols id name hne
      marked := by
        cases hh.marked with
        | both hs hs' => exact .both ((hfind _ _).2.trans hs) ((hfind _ _).1.trans hs')
        | ahead hs hs' hw => exact .ahead ((hfind _ _).2.trans hs) ((hfind _ _).1.trans hs') hw }

/-! ## The marker of lambda lists -/

/-- A naming in which two more numbers, from `n` on, get names, from `m` on. -/
def splice (f : Nat → Nat) (n m i : Nat) : Nat :=
  if i < n then f i else if i < n + 2 then m + (i - n) else f (i - 2)

section

variable {f : Nat → Nat} {n m : Nat}

theorem splice_of_lt {i : Nat} (hi : i < n) : splice f n m i = f i := if_pos hi

theorem splice_new {k : Nat} (hk : k < 2) : splice f n m (n + k) = m + k := by
  rw [splice, if_neg (by omega), if_pos (by omega)]
  omega

theorem splice_later (k : Nat) : splice f n m (n + 2 + k) = f (n + k) := by
  rw [splice, if_neg (by omega), if_neg (by omega)]
  congr 1
  omega

/-- A number is an old one, one of the two new ones, or comes after them. -/
theorem splice_cases (n i : Nat) : i < n ∨ (∃ k < 2, i = n + k) ∨ ∃ k, i = n + 2 + k := by
  rcases Nat.lt_or_ge i n with hlt | hge
  · exact .inl hlt
  · rcases Nat.lt_or_ge i (n + 2) with hlt | hge'
    · exact .inr (.inl ⟨i - n, by omega, by omega⟩)
    · exact .inr (.inr ⟨i - (n + 2), by omega⟩)

theorem splice_injective (hf : Function.Injective f) (hm : ∀ k < 2, m + k ∉ Set.range f) :
    Function.Injective (splice f n m) := by
  intro i j hij
  rcases splice_cases n i with hi | ⟨k, hk, rfl⟩ | ⟨k, rfl⟩ <;>
    rcases splice_cases n j with hj | ⟨l, hl, rfl⟩ | ⟨l, rfl⟩
  · rw [splice_of_lt hi, splice_of_lt hj] at hij
    exact hf hij
  · rw [splice_of_lt hi, splice_new hl] at hij
    exact absurd ⟨i, hij⟩ (hm l hl)
  · rw [splice_of_lt hi, splice_later] at hij
    have := hf hij
    omega
  · rw [splice_new hk, splice_of_lt hj] at hij
    exact absurd ⟨j, hij.symm⟩ (hm k hk)
  · rw [splice_new hk, splice_new hl] at hij
    omega
  · rw [splice_new hk, splice_later] at hij
    exact absurd ⟨_, hij.symm⟩ (hm k hk)
  · rw [splice_later, splice_of_lt hj] at hij
    have := hf hij
    omega
  · rw [splice_later, splice_new hl] at hij
    exact absurd ⟨_, hij⟩ (hm l hl)
  · rw [splice_later, splice_later] at hij
    have := hf hij
    omega

theorem mem_range_splice {x : Nat} :
    x ∈ Set.range (splice f n m) ↔ x ∈ Set.range f ∨ ∃ k < 2, x = m + k := by
  constructor
  · rintro ⟨i, rfl⟩
    rcases splice_cases n i with hi | ⟨k, hk, rfl⟩ | ⟨k, rfl⟩
    · exact .inl ⟨i, (splice_of_lt hi).symm⟩
    · exact .inr ⟨k, hk, splice_new hk⟩
    · exact .inl ⟨n + k, (splice_later k).symm⟩
  · rintro (⟨i, rfl⟩ | ⟨k, hk, rfl⟩)
    · rcases Nat.lt_or_ge i n with hi | hge
      · exact ⟨i, splice_of_lt hi⟩
      · obtain ⟨k, rfl⟩ := Nat.le.dest hge
        exact ⟨n + 2 + k, splice_later k⟩
    · exact ⟨n + k, splice_new hk⟩

end

/-- The names after the guest has interned the marker: it is the marker of the host from now on, and
all later numbers keep the names that they would have had two numbers earlier. -/
def spliced (A : Ahead lisp) (w : Names lisp) (hw : A.Unnamed w) (n : ObjectId) : Renaming where
  object := splice w.ren.object n A.mark
  frameId := w.ren.frameId
  object_injective := splice_injective w.ren.object_injective hw
  frameId_injective := w.ren.frameId_injective

theorem Heaps.bounded (hh : A.Heaps w host guest) {v : Value} (hv : guest.Mentions v) :
    v.Below guest.next :=
  hh.known.below hv

theorem Heaps.tidy (hh : A.Heaps w host guest) : guest.Tidy := fun n =>
  hh.known.vacant (Nat.le_add_right _ n)

theorem Heaps.start_le (hh : A.Heaps w host guest) : A.start.next ≤ guest.next :=
  hh.known.next ▸ hh.since.1

theorem agrees_spliced (hw : A.Unnamed w) (guest : Heap) :
    w.ren.Agrees (A.spliced w hw guest.next) guest :=
  ⟨fun _ hid => splice_of_lt hid, fun _ _ => rfl⟩

section

variable (hh : A.Heaps w host guest) (hw : A.Unnamed w)

include hh hw

theorem Heaps.vacant_spliced (k : Nat) :
    host.Vacant ((A.spliced w hw guest.next).object (guest.next + k)) := by
  rcases Nat.lt_or_ge k 2 with hk | hge
  · have hnew : (A.spliced w hw guest.next).object (guest.next + k) = A.mark + k := splice_new hk
    rw [hnew]
    exact hh.vacant (hw k hk) (A.closure_ne k hk)
  · obtain ⟨k, rfl⟩ := Nat.le.dest hge
    have hlater : (A.spliced w hw guest.next).object (guest.next + (2 + k)) =
        w.ren.object (guest.next + k) := by
      rw [← Nat.add_assoc]
      exact splice_later k
    rw [hlater]
    exact hh.follows.vacant (hh.tidy k)

/-- The host carries the guest under the new names. -/
theorem Heaps.carries_spliced : (A.spliced w hw guest.next).Carries host guest := by
  refine hh.follows.toCarries.of_agrees hh.bounded hh.tidy
    ⟨fun _ _ => rfl, fun _ _ => rfl, fun _ _ => rfl, fun _ _ => rfl⟩ (agrees_spliced hw guest)
    (fun _ => rfl) (hh.vacant_spliced hw) fun n => ?_
  have hframe := hh.follows.frames (guest.frames.size + n)
  rw [Heap.frame_size_add] at hframe
  exact hframe

theorem Heaps.interpreter_spliced : (A.spliced w hw guest.next).interpreter lisp = lisp :=
  (hh.known.interpreter_eq w.world.2 (agrees_spliced hw guest) rfl).trans w.interpreter

theorem Heaps.spares_spliced : (A.spliced w hw guest.next).Spares A.aside host := by
  have hold : ∀ {id : ObjectId}, id ∉ Set.range (A.spliced w hw guest.next).object →
      id ∉ Set.range w.ren.object := fun hid hmem => hid (mem_range_splice.2 (.inl hmem))
  exact
    { cells := fun id hid => hh.follows.spares.cells id (hold hid)
      closures := fun id hid => hh.follows.spares.closures id (hold hid)
      packages := fun id hid => hh.follows.spares.packages id (hold hid)
      frames := hh.follows.spares.frames }

/-- The symbols that the guest had before have kept their names. -/
theorem Heaps.symbols_spliced (id : ObjectId) (name : String)
    (hne : ¬ (id = lisp.package ∧ name = "&rest")) :
    host.findSymbol ((A.spliced w hw guest.next).object id) name =
      (guest.findSymbol id name).map (A.spliced w hw guest.next).symbol := by
  have hagrees := agrees_spliced hw guest
  rcases Nat.lt_or_ge id guest.next with hlt | hge
  · rw [hagrees.object id hlt, hh.symbols id name hne]
    exact Option.map_congr fun s hs => (hagrees.symbol (hh.bounded (.symbol hs))).symm
  · obtain ⟨k, rfl⟩ := Nat.le.dest hge
    rw [(hh.vacant_spliced hw k).findSymbol, (hh.tidy k).findSymbol, Option.map_none]

/-- **The guest interns the marker** that the host has. -/
theorem Heaps.intern_marker (hguest : lisp.findSymbol guest "&rest" = none)
    (hhost : lisp.findSymbol host "&rest" = some A.marker) :
    ∃ w', w ≤ w' ∧ A.Heaps w' host (lisp.intern guest "&rest").2 ∧
      w'.value (.symbol A.marker) (.symbol (lisp.intern guest "&rest").1) := by
  obtain ⟨u, hu, hfits, hknown⟩ := (Registry.law lisp).intern hh.known "&rest"
  rw [lisp.intern_of_find_none hguest] at hfits hknown ⊢
  set n := guest.next
  set m : Symbol := ⟨n + 1, "&rest", n, false, lisp.package⟩ with hm
  set r' := A.spliced w hw n
  have hagrees := agrees_spliced hw guest
  have hcarries := hh.carries_spliced hw
  have hname : r'.symbol m = A.marker := by
    have hzero : r'.object n = A.mark := splice_new (k := 0) (by decide)
    have hone : r'.object (n + 1) = A.mark + 1 := splice_new (by decide)
    have hpackage : r'.object lisp.package = lisp.package :=
      congrArg Interpreter.package (hh.interpreter_spliced hw)
    rw [hm, Renaming.symbol, hzero, hone, hpackage]
    rfl
  -- what is found in the guest now
  have hfind : ∀ id name,
      (Heap.enter { guest with next := n + 2 } lisp.package m).findSymbol id name =
        if lisp.package = id ∧ "&rest" = name then some m else guest.findSymbol id name := by
    intro id name
    rw [Heap.findSymbol_enter]
    have hmem : lisp.package ∈ guest.packages := hh.package
    simp only [hm, hmem, true_and]
    rfl
  let w' : Names lisp := ⟨u, r', hh.interpreter_spliced hw⟩
  have hle : w ≤ w' :=
    ⟨hu, fun hv => hagrees.value (hh.known.next ▸ hv.below),
      fun hs => hagrees.symbol (hh.known.next ▸ hs.below), fun _ => rfl⟩
  refine ⟨w', hle, ?_, congrArg Value.symbol hname.symm, hknown⟩
  exact
    { known := hfits
      since := hh.since.trans hu
      follows :=
        { cells := hcarries.cells
          closures := hcarries.closures
          packages := fun id => by
            rw [Heap.packageValue?_enter]
            exact hcarries.packages id
          frames := hcarries.frames
          next := fun k => (splice_later k).trans (hh.follows.next k)
          size := hh.follows.size
          spares := hh.spares_spliced hw }
      frames := hh.frames
      fixed := fun id hid => by
        have hlt : id < n := Nat.lt_of_lt_of_le hid hh.start_le
        exact (hagrees.object id hlt).trans (hh.fixed id hid)
      apart := fun hmem => by
        rcases mem_range_splice.1 hmem with hold | ⟨k, hk, heq⟩
        · exact hh.apart hold
        · exact A.closure_ne k hk heq.symm
      package := Heap.mem_packages_enter.2 hh.package
      symbols := fun id name hne => by
        rw [hfind, if_neg fun heq => hne ⟨heq.1.symm, heq.2.symm⟩]
        exact hh.symbols_spliced hw id name hne
      marked := by
        refine .both (s := m) ?_ ?_
        · exact (hfind _ _).trans (if_pos ⟨rfl, rfl⟩)
        · show lisp.findSymbol host "&rest" = some (r'.symbol m)
          rw [hname]
          exact hhost }

end

/-! ## The coupling -/

section

variable {w' : Names lisp} {a a' : Anchors}

theorem Held.mono (ha : A.Held w a a') (hw : w ≤ w') : A.Held w' a a' where
  frames f := by
    have henv : w'.ren.env [f] = w.ren.env [f] := hw.env (e := [f]) trivial
    exact (List.head_eq_of_cons_eq henv).trans (ha.frames f)
  known v hv := (ha.known v hv).mono hw.world
  named v hv := by
    rw [hw.value (ha.known v hv)]
    exact ha.named v hv
  only u hu := (ha.only u hu).imp_right fun ⟨v, hv, heq⟩ =>
    ⟨v, hv, heq.trans (hw.value (ha.known v hv)).symm⟩
  environments := ha.environments
  code := ha.code

/-- One more environment is held on both sides, which has the same frames. -/
theorem Held.stay (ha : A.Held w a a') {e e' : Environment} (he : w.env e e') :
    A.Held w (a.stay e) (a'.stay e') where
  frames := ha.frames
  known := ha.known
  named := ha.named
  only := ha.only
  environments f := by
    have heq : e = e' := he.1.trans (env_eq ha.frames e')
    simp only [Anchors.stay, List.exists_mem_cons_iff, heq, ha.environments f]
  code x hx := (ha.code x hx).imp_right fun ⟨e, he, hx⟩ => ⟨e, List.mem_cons_of_mem _ he, hx⟩

/-- The host may hold an environment twice. -/
theorem Held.stay_again {e : Environment} (ha : A.Held w (a.stay e) a') :
    A.Held w ((a.stay e).stay e) a' where
  frames := ha.frames
  known := ha.known
  named := ha.named
  only := ha.only
  environments f := by
    rw [← ha.environments f]
    simp only [Anchors.stay, List.exists_mem_cons_iff, or_self_left]
  code := ha.code

/-- The environment that is held last gets one more frame on both sides. -/
theorem Held.push {e e' : Environment} (ha : A.Held w (a.stay e) (a'.stay e')) {id id' : FrameId}
    (he : w.env (id :: e) (id' :: e')) :
    A.Held w (a.stay (id :: e)) (a'.stay (id' :: e')) where
  frames := ha.frames
  known := ha.known
  named := ha.named
  only := ha.only
  environments f := by
    have heq : id :: e = id' :: e' := he.1.trans (env_eq ha.frames _)
    obtain ⟨rfl, rfl⟩ := List.cons.inj heq
    have hold := ha.environments f
    simp only [Anchors.stay, List.exists_mem_cons_iff] at hold ⊢
    rw [List.mem_cons, or_assoc, or_assoc, hold]
  code x hx := by
    refine (ha.code x hx).imp_right fun ⟨e₁, he₁, f, hf, hx⟩ => ?_
    rcases List.mem_cons.1 he₁ with rfl | he₁
    · exact ⟨_, List.mem_cons_self, f, List.mem_cons_of_mem _ hf, hx⟩
    · exact ⟨e₁, List.mem_cons_of_mem _ he₁, f, hf, hx⟩

end

/-- **A run that is ahead is coupled to the other one.** -/
def coupling (A : Ahead lisp) : Coupling (Registry.law lisp) lisp where
  heap := A.Heaps
  anchors := A.Held
  known hh := hh.known
  carries hh := hh.follows.toCarries
  lambda {w _ _} hh := by
    have hfound := hh.symbols lisp.package "lambda" fun heq => absurd heq.2 (by decide)
    rwa [object_package] at hfound
  package {w _ _ _ _ s s'} hh ha hs := by
    obtain rfl : s = w.ren.symbol s' := by injection hs.1
    exact hh.packageOf? ha s'
  anchors_mono hw ha := ha.mono hw
  hold ha hvs := ha.hold hvs
  stay ha he := ha.stay he
  push ha he := ha.push he
  number {w _ g} hh n := by
    obtain ⟨u, hw, hheaps, hv⟩ :=
      hh.later ((Registry.law lisp).number hh.known n) (hh.follows.advance 1) rfl rfl
    refine ⟨_, hw, hheaps, ?_, hv⟩
    exact congrArg (Value.number · n) hh.follows.object_next.symm
  cons {w _ g _ _ car' cdr'} hh hcar hcdr := by
    obtain ⟨u, hw, hheaps, hv⟩ :=
      hh.later ((Registry.law lisp).cons hh.known hcar.2 hcdr.2) (hh.follows.advance 1) rfl rfl
    refine ⟨_, hw, hheaps, ?_, hv⟩
    show Value.cons _ _ _ = w.ren.value (.cons g.next car' cdr')
    rw [hcar.1, hcdr.1, Renaming.value, hh.follows.object_next]
  marker {w h g} hh := by
    cases hh.marked with
    | both hguest hhost =>
        rw [lisp.intern_of_find hguest, lisp.intern_of_find hhost]
        exact ⟨w, le_refl w, hh, rfl, hh.known.mentioned (.symbol hguest)⟩
    | ahead hguest hhost hw =>
        rw [lisp.intern_of_find hhost]
        exact hh.intern_marker hw hguest hhost
  closure {w _ g name name' c c'} hh hname hc := by
    have hknown : ∀ s ∈ name', w.world.1.Knows (.symbol s) := by
      intro s hs
      cases hname with
      | some hrel => exact Option.some.inj hs ▸ hrel.2
      | none => cases hs
    obtain rfl : name = name'.map w.ren.symbol := by
      cases hname with
      | some hs => exact congrArg some (by injection hs.1)
      | none => rfl
    rw [hc.eq]
    obtain ⟨u, hw, hheaps, hv⟩ := hh.later ((Registry.law lisp).closure hh.known hknown hc.known)
      (hh.follows.makeClosure _ name' c') rfl rfl
    refine ⟨_, hw, hheaps, ?_, hv⟩
    exact congrArg (Value.closure · _) hh.follows.object_next.symm
  frame {w _ g e e' _ f'} hh he hf := by
    obtain ⟨u, hw, hheaps, hv⟩ := hh.later
      ((Registry.law lisp).frame hh.known he.2 (Naming.frame_known hf))
      (hh.follows.makeFrame f') rfl rfl
    rw [Naming.frame_eq hf]
    refine ⟨_, hw, hheaps, ?_, hv⟩
    show _ :: _ = w.ren.env (g.frames.size :: e')
    rw [he.1]
    exact congrArg (· :: w.ren.env e') hh.follows.frameId_size.symm
  setFunction {w _ _ s s' id id' name name'} hh hs hv := by
    obtain rfl : s = w.ren.symbol s' := by injection hs.1
    rw [hv.1]
    obtain ⟨u, hw, hheaps, _⟩ := hh.later ((Registry.law lisp).setFunction hh.known hs.2 hv.2)
      (hh.follows.setFunction s' _) rfl rfl
    exact ⟨_, hw, hheaps⟩
  setValue {w _ _ s s' v v'} hh hs hv := by
    obtain ⟨rfl, hs⟩ := hs
    obtain ⟨rfl, hv⟩ := hv
    obtain ⟨u, hw, hheaps, _⟩ := hh.later ((Registry.law lisp).setValue hh.known hs hv)
      (hh.follows.setValue s' v') rfl rfl
    exact ⟨_, hw, hheaps⟩
  assign {w h g h' g' e e' s s' v v'} hh he hs hv hhost hguest := by
    obtain ⟨rfl, he⟩ := he
    obtain ⟨rfl, hs⟩ := hs
    obtain ⟨rfl, hv⟩ := hv
    have hpackages : ∀ {h h' : Heap} {e : Environment} {key : ObjectId} {v : Value},
        h.assign? e key v = some h' → h'.packages = h.packages := by
      intro h h' e key v hassign
      obtain ⟨_, _, rfl⟩ := Option.map_eq_some_iff.1 hassign
      rfl
    obtain ⟨u, hw, hheaps, _⟩ := hh.later ((Registry.law lisp).assign hh.known he hs hv hguest)
      (hh.follows.assign hhost hguest) (hpackages hhost) (hpackages hguest)
    exact ⟨_, hw, hheaps⟩

end SmallLisp.Ahead
