import Mathlib.Data.List.Forall2
import SmallLisp.Proofs.Eval.Lawful
import SmallLisp.Proofs.Eval.Renaming

set_option autoImplicit false

/-! # Two runs side by side

A program is run in two heaps, a host and a guest, and does the same in both but for the names of
objects and frames. What is known of the guest obeys a law, as if it ran alone, and whatever is
known there has a name in the host. The names belong to the world too (`Naming`): as the runs go on
more becomes known, and what gets a name later may get one that could not be foreseen. Names of what
is known stay.

A `Coupling` says which heaps belong together, and that each single thing that code can do leads
from such heaps to such heaps. What is held on either side may differ as well, as long as it cannot
be told from the packages that live. Two computations *mirror* each other if they end alike
(`Coupling.Mirrors`); here are the rules for it, and that evaluation obeys them is shown in
`Eval.Coupled`.
-/

namespace SmallLisp

/-! ## Names in a world -/

/-- **What is known of two runs**: what is known of the guest, and the names that its things have in
the host. -/
structure Naming {lisp : Interpreter} (L : Law lisp) (host : Interpreter) where
  world : L.World
  ren : Renaming
  interpreter : ren.interpreter lisp = host

namespace Naming

variable {lisp host : Interpreter} {L : Law lisp}

/-- **Later names**: more is known, and the names of what was known before are the same. -/
structure Le (w w' : Naming L host) : Prop where
  world : w.world ≤ w'.world
  value : ∀ {v : Value}, L.value w.world v → w'.ren.value v = w.ren.value v
  var : ∀ {s : Symbol}, L.var w.world s → w'.ren.symbol s = w.ren.symbol s
  env : ∀ {e : Environment}, L.env w.world e → w'.ren.env e = w.ren.env e

instance : Preorder (Naming L host) where
  le := Le
  le_refl _ := ⟨le_refl _, fun _ => rfl, fun _ => rfl, fun _ => rfl⟩
  le_trans _ _ _ h h' :=
    { world := le_trans h.world h'.world
      value := fun hv => (h'.value (L.value_mono h.world hv)).trans (h.value hv)
      var := fun hs => (h'.var (L.var_mono h.world hs)).trans (h.var hs)
      env := fun he => (h'.env (L.env_mono h.world he)).trans (h.env he) }

/-- The same names when more is known. -/
def later (w : Naming L host) (known : L.World) : Naming L host := ⟨known, w.ren, w.interpreter⟩

theorem le_later (w : Naming L host) {known : L.World} (hw : w.world ≤ known) :
    w ≤ w.later known :=
  ⟨hw, fun _ => rfl, fun _ => rfl, fun _ => rfl⟩

/-! ## What belongs together

In each of these relations the host's side comes first. -/

/-- A value and its name. -/
def value (w : Naming L host) (u v : Value) : Prop := u = w.ren.value v ∧ L.value w.world v

/-- A variable and its name. -/
def var (w : Naming L host) (s s' : Symbol) : Prop := s = w.ren.symbol s' ∧ L.var w.world s'

/-- An environment and its name. -/
def env (w : Naming L host) (e e' : Environment) : Prop := e = w.ren.env e' ∧ L.env w.world e'

/-- Values and their names. -/
abbrev values (w : Naming L host) : List Value → List Value → Prop := List.Forall₂ w.value

/-- Bindings of variables that belong together to values that do. -/
def binding (w : Naming L host) (b b' : Binding) : Prop :=
  (∃ s s', b.object = .symbol s ∧ b'.object = .symbol s' ∧ w.var s s') ∧ w.value b.value b'.value

/-- Frames that belong together. -/
def frame (w : Naming L host) (f f' : Frame) : Prop :=
  List.Forall₂ w.binding f.bindings f'.bindings

/-- Bindings to be made that belong together. -/
def spec (w : Naming L host) (p p' : BindingSpec) : Prop :=
  w.var p.var p'.var ∧ Option.Rel w.value p.init p'.init

/-- Code that belongs together. -/
structure Code (w : Naming L host) (c c' : Closure) : Prop where
  params : List.Forall₂ w.var c.params c'.params
  rest : Option.Rel w.var c.rest c'.rest
  body : w.values c.body c'.body
  env : w.env c.env c'.env

theorem option_imp {α β : Type} {R S : α → β → Prop} (himp : ∀ u v, R u v → S u v)
    {x : Option α} {y : Option β} (hxy : Option.Rel R x y) : Option.Rel S x y := by
  cases hxy with
  | some huv => exact .some (himp _ _ huv)
  | none => exact .none

section

variable {w w' : Naming L host} (hw : w ≤ w')

include hw

theorem value_mono {u v : Value} (hv : w.value u v) : w'.value u v :=
  ⟨hv.1.trans (hw.value hv.2).symm, L.value_mono hw.world hv.2⟩

theorem var_mono {s s' : Symbol} (hs : w.var s s') : w'.var s s' :=
  ⟨hs.1.trans (hw.var hs.2).symm, L.var_mono hw.world hs.2⟩

theorem env_mono {e e' : Environment} (he : w.env e e') : w'.env e e' :=
  ⟨he.1.trans (hw.env he.2).symm, L.env_mono hw.world he.2⟩

theorem values_mono {us vs : List Value} (hvs : w.values us vs) : w'.values us vs :=
  hvs.imp fun _ _ => value_mono hw

theorem spec_mono {p p' : BindingSpec} (hp : w.spec p p') : w'.spec p p' :=
  ⟨var_mono hw hp.1, option_imp (fun _ _ => value_mono hw) hp.2⟩

theorem code_mono {c c' : Closure} (hc : w.Code c c') : w'.Code c c' where
  params := hc.params.imp fun _ _ => var_mono hw
  rest := option_imp (fun _ _ => var_mono hw) hc.rest
  body := values_mono hw hc.body
  env := env_mono hw hc.env

end

section

variable {w : Naming L host}

theorem value_nil (w : Naming L host) : w.value host.nilValue lisp.nilValue := by
  refine ⟨?_, L.nil w.world⟩
  exact congrArg Interpreter.nilValue w.interpreter.symm

theorem value_truth (w : Naming L host) (b : Bool) : w.value (host.truth b) (lisp.truth b) := by
  refine ⟨(congrArg (Interpreter.truth · b) w.interpreter.symm).trans ?_, L.value_truth b⟩
  cases b <;> rfl

theorem values_eq {us vs : List Value} (hvs : w.values us vs) : us = w.ren.values vs := by
  induction hvs with
  | nil => rfl
  | cons hv _ ih => rw [hv.1, ih, Renaming.values_cons]

theorem values_known {us vs : List Value} (hvs : w.values us vs) : L.values w.world vs := by
  induction hvs with
  | nil => exact View.values_nil
  | cons hv _ ih => exact View.values_cons.2 ⟨hv.2, ih⟩

theorem values_of_known {vs : List Value} (hvs : L.values w.world vs) :
    w.values (w.ren.values vs) vs := by
  induction vs with
  | nil => exact .nil
  | cons v vs ih =>
      obtain ⟨hv, hrest⟩ := View.values_cons.1 hvs
      exact .cons ⟨rfl, hv⟩ (ih hrest)

/-- The elements of lists that belong together belong together. -/
theorem items_eq {u v : Value} (hv : w.value u v) :
    u.items? = none ∧ v.items? = none ∨
      ∃ us vs, u.items? = some us ∧ v.items? = some vs ∧ w.values us vs := by
  obtain ⟨rfl, hv⟩ := hv
  cases hitems : v.items? with
  | none => exact .inl ⟨by rw [Renaming.items?_value, hitems, Option.map_none], rfl⟩
  | some vs =>
      refine .inr ⟨_, vs, by rw [Renaming.items?_value, hitems, Option.map_some], rfl, ?_⟩
      exact values_of_known (L.values_items hv hitems)

theorem binding_mk {s s' : Symbol} {u v : Value} (hs : w.var s s') (hv : w.value u v) :
    w.binding ⟨.symbol s, u⟩ ⟨.symbol s', v⟩ :=
  ⟨⟨s, s', rfl, rfl, hs⟩, hv⟩

theorem frame_eq {f f' : Frame} (hf : w.frame f f') : f = w.ren.frame f' := by
  obtain ⟨bs⟩ := f
  obtain ⟨bs'⟩ := f'
  refine congrArg Frame.mk ?_
  have hbs : List.Forall₂ w.binding bs bs' := hf
  induction hbs with
  | nil => rfl
  | @cons b b' _ _ hb _ ih =>
      obtain ⟨⟨s, s', hs, hs', hvar⟩, hv⟩ := hb
      obtain ⟨object, value⟩ := b
      obtain ⟨object', value'⟩ := b'
      obtain rfl : object = .symbol s := hs
      obtain rfl : object' = .symbol s' := hs'
      obtain rfl : value = w.ren.value value' := hv.1
      rw [List.map_cons, ← ih ‹_›, hvar.1]
      rfl

theorem frame_known {f f' : Frame} (hf : w.frame f f') : L.IsFrame w.world f' := by
  obtain ⟨bs⟩ := f
  obtain ⟨bs'⟩ := f'
  have hbs : List.Forall₂ w.binding bs bs' := hf
  show ∀ b' ∈ bs', _
  clear hf
  induction hbs with
  | nil => exact fun _ hb' => absurd hb' List.not_mem_nil
  | cons hb _ ih =>
      obtain ⟨⟨s, s', _, hs', hvar⟩, hv⟩ := hb
      exact List.forall_mem_cons.2 ⟨⟨⟨s', hs', hvar.2⟩, hv.2⟩, ih⟩

theorem vars_eq {ss ss' : List Symbol} (hss : List.Forall₂ w.var ss ss') :
    ss = ss'.map w.ren.symbol ∧ ∀ s' ∈ ss', L.var w.world s' := by
  induction hss with
  | nil => exact ⟨rfl, fun _ hs => absurd hs List.not_mem_nil⟩
  | cons hs _ ih =>
      refine ⟨?_, List.forall_mem_cons.2 ⟨hs.2, ih.2⟩⟩
      rw [List.map_cons, ← ih.1, hs.1]

theorem vars_of_known {ss : List Symbol} (hss : ∀ s ∈ ss, L.var w.world s) :
    List.Forall₂ w.var (ss.map w.ren.symbol) ss := by
  induction ss with
  | nil => exact .nil
  | cons s ss ih =>
      obtain ⟨hs, hrest⟩ := List.forall_mem_cons.1 hss
      exact .cons ⟨rfl, hs⟩ (ih hrest)

theorem Code.eq {c c' : Closure} (hc : w.Code c c') : c = w.ren.closure c' := by
  obtain ⟨params, rest, body, env⟩ := c
  obtain ⟨params', rest', body', env'⟩ := c'
  obtain ⟨hparams, hrest, hbody, henv⟩ := hc
  obtain rfl : params = params'.map w.ren.symbol := (vars_eq hparams).1
  obtain rfl : body = w.ren.values body' := values_eq hbody
  obtain rfl : env = w.ren.env env' := henv.1
  cases hrest with
  | some hs =>
      rw [hs.1]
      rfl
  | none => rfl

theorem Code.known {c c' : Closure} (hc : w.Code c c') : L.IsCode w.world c' := by
  obtain ⟨params, rest, body, env⟩ := c
  obtain ⟨params', rest', body', env'⟩ := c'
  obtain ⟨hparams, hrest, hbody, henv⟩ := hc
  refine ⟨henv.2, List.forall_mem_append.2 ⟨(vars_eq hparams).2, ?_⟩, values_known hbody⟩
  cases hrest with
  | some hs => exact List.forall_mem_singleton.2 hs.2
  | none => exact fun _ hs => absurd hs List.not_mem_nil

/-- Code that is known belongs together with its name. -/
theorem code_of_known {c : Closure} (hc : L.IsCode w.world c) : w.Code (w.ren.closure c) c := by
  obtain ⟨params, rest, body, env⟩ := c
  obtain ⟨henv, hbound, hbody⟩ := hc
  obtain ⟨hparams, hrest⟩ := List.forall_mem_append.1 hbound
  refine ⟨?_, ?_, values_of_known hbody, rfl, henv⟩
  · exact vars_of_known hparams
  · cases rest with
    | some s => exact .some ⟨rfl, hrest s List.mem_cons_self⟩
    | none => exact .none

end

end Naming

/-! ## Couplings -/

/-- Something is made in both heaps, and in some later world it belongs together. -/
def Naming.Arrives {lisp host : Interpreter} {L : Law lisp}
    (heap : Naming L host → Heap → Heap → Prop) (w : Naming L host) {α β : Type}
    (R : Naming L host → β → α → Prop) (out : β × Heap) (out' : α × Heap) : Prop :=
  ∃ w', w ≤ w' ∧ heap w' out.2 out'.2 ∧ R w' out.1 out'.1

/-- **A coupling** of two runs: heaps that belong together lead to heaps that belong together,
whatever code does to both. -/
structure Coupling {lisp : Interpreter} (L : Law lisp) (host : Interpreter) where
  heap : Naming L host → Heap → Heap → Prop
  /-- What is held on either side while heaps of these names belong together. -/
  anchors : Naming L host → Anchors → Anchors → Prop
  -- what is read
  known : ∀ {w : Naming L host} {h g : Heap}, heap w h g → L.heap w.world g
  carries : ∀ {w : Naming L host} {h g : Heap}, heap w h g → w.ren.Carries h g
  lambda : ∀ {w : Naming L host} {h g : Heap}, heap w h g →
    host.findSymbol h "lambda" = (lisp.findSymbol g "lambda").map w.ren.symbol
  package : ∀ {w : Naming L host} {h g : Heap} {a a' : Anchors} {s s' : Symbol}, heap w h g →
    anchors w a a' → w.value (.symbol s) (.symbol s') →
    host.packageOf? h a s = (lisp.packageOf? g a' s').map w.ren.value
  -- what is held
  anchors_mono : ∀ {w w' : Naming L host} {a a' : Anchors}, w ≤ w' → anchors w a a' →
    anchors w' a a'
  hold : ∀ {w : Naming L host} {a a' : Anchors} {us vs : List Value}, anchors w a a' →
    w.values us vs → anchors w (a.hold us) (a'.hold vs)
  stay : ∀ {w : Naming L host} {a a' : Anchors} {e e' : Environment}, anchors w a a' →
    w.env e e' → anchors w (a.stay e) (a'.stay e')
  push : ∀ {w : Naming L host} {a a' : Anchors} {id id' : FrameId} {e e' : Environment},
    anchors w (a.stay e) (a'.stay e') → w.env (id :: e) (id' :: e') →
    anchors w (a.stay (id :: e)) (a'.stay (id' :: e'))
  -- what is made
  number : ∀ {w : Naming L host} {h g : Heap}, heap w h g → ∀ n,
    w.Arrives heap Naming.value (h.alloc (.number · n)) (g.alloc (.number · n))
  cons : ∀ {w : Naming L host} {h g : Heap} {car cdr car' cdr' : Value}, heap w h g →
    w.value car car' → w.value cdr cdr' →
    w.Arrives heap Naming.value (h.cons car cdr) (g.cons car' cdr')
  marker : ∀ {w : Naming L host} {h g : Heap}, heap w h g →
    w.Arrives heap (fun w s s' => w.value (.symbol s) (.symbol s')) (host.intern h "&rest")
      (lisp.intern g "&rest")
  closure : ∀ {w : Naming L host} {h g : Heap} {name name' : Option Symbol} {c c' : Closure},
    heap w h g → Option.Rel (fun s s' => w.value (.symbol s) (.symbol s')) name name' →
    w.Code c c' → w.Arrives heap Naming.value (h.makeClosure name c) (g.makeClosure name' c')
  frame : ∀ {w : Naming L host} {h g : Heap} {e e' : Environment} {f f' : Frame}, heap w h g →
    w.env e e' → w.frame f f' →
    w.Arrives heap (fun w id id' => w.env (id :: e) (id' :: e')) (h.makeFrame f) (g.makeFrame f')
  -- what is changed
  setFunction : ∀ {w : Naming L host} {h g : Heap} {s s' : Symbol} {id id' : ObjectId}
    {name name' : Option Symbol}, heap w h g → w.value (.symbol s) (.symbol s') →
    w.value (.closure id name) (.closure id' name') →
    ∃ w', w ≤ w' ∧ heap w' (h.setFunction s (.closure id name))
      (g.setFunction s' (.closure id' name'))
  setValue : ∀ {w : Naming L host} {h g : Heap} {s s' : Symbol} {v v' : Value}, heap w h g →
    w.var s s' → w.value v v' → ∃ w', w ≤ w' ∧ heap w' (h.setValue s v) (g.setValue s' v')
  assign : ∀ {w : Naming L host} {h g h' g' : Heap} {e e' : Environment} {s s' : Symbol}
    {v v' : Value}, heap w h g → w.env e e' → w.var s s' → w.value v v' →
    h.assign? e s.id v = some h' → g.assign? e' s'.id v' = some g' →
    ∃ w', w ≤ w' ∧ heap w' h' g'

namespace Coupling

open Eval

variable {lisp host : Interpreter} {L : Law lisp}

/-! ## Computations that mirror each other -/

/-- States that belong together, along with what is held. -/
structure States (C : Coupling L host) (w : Naming L host) (a a' : Anchors) (s s' : State) :
    Prop where
  heap : C.heap w s.heap s'.heap
  env : w.env s.env s'.env
  anchors : C.anchors w (a.stay s.env) (a'.stay s'.env)

/-- Two computations end alike, in states that belong together in some later world. -/
inductive Ends (C : Coupling L host) (w : Naming L host) (a a' : Anchors)
    (kept : Environment → Prop) {α β : Type} (R : Naming L host → β → α → Prop) :
    EStateM.Result Stop State β → EStateM.Result Stop State α → Prop
  | ok {w' : Naming L host} {v : β} {v' : α} {s s' : State} (hw : w ≤ w')
      (hstates : C.States w' a a' s s') (hkept : kept s'.env) (hv : R w' v v') :
      Ends C w a a' kept R (.ok v s) (.ok v' s')
  | error {w' : Naming L host} {e : Stop} {s s' : State} (hw : w ≤ w')
      (hstates : C.States w' a a' s s') (hkept : kept s'.env) :
      Ends C w a a' kept R (.error (w'.ren.stop e) s) (.error e s')

/-- **A computation mirrors another one**: started in states that belong together the two end alike,
and leave the environments as they were. -/
def Mirrors (C : Coupling L host) (w : Naming L host) {α β : Type} (act : Eval β) (act' : Eval α)
    (R : Naming L host → β → α → Prop) : Prop :=
  ∀ a a' s s', C.States w a a' s s' → C.Ends w a a' (· = s'.env) R (act a s) (act' a' s')

/-- Computations for the inside of a scope, which may leave new frames on the environments. -/
def Stacks (C : Coupling L host) (w : Naming L host) {α β : Type} (act : Eval β) (act' : Eval α)
    (R : Naming L host → β → α → Prop) : Prop :=
  ∀ a a' s s', C.States w a a' s s' → C.Ends w a a' (s'.env <:+ ·) R (act a s) (act' a' s')

section

variable {C : Coupling L host} {w w' : Naming L host} {α β γ δ : Type}
  {R : Naming L host → β → α → Prop} {Q : Naming L host → δ → γ → Prop} {a a' : Anchors}
  {s s' : State}

/-- Heaps that belong together later, in the environments from before. -/
theorem States.later (hs : C.States w a a' s s') (hw : w ≤ w') {h g : Heap} (hh : C.heap w' h g) :
    C.States w' a a' ⟨h, s.env⟩ ⟨g, s'.env⟩ :=
  ⟨hh, Naming.env_mono hw hs.env, C.anchors_mono hw hs.anchors⟩

/-- The environment of the host goes with that of the guest. -/
theorem States.env_eq (hs : C.States w a a' s s') (hw : w ≤ w') {b b' : Anchors} {t t' : State}
    (ht : C.States w' b b' t t') (henv : t'.env = s'.env) : t.env = s.env := by
  rw [ht.env.1, hs.env.1, henv, hw.env hs.env.2]

theorem Ends.imp {kept kept' : Environment → Prop} {out : EStateM.Result Stop State β}
    {out' : EStateM.Result Stop State α} (hend : C.Ends w a a' kept R out out')
    (hk : ∀ e, kept e → kept' e) : C.Ends w a a' kept' R out out' := by
  cases hend with
  | ok hw hstates hkept hv => exact .ok hw hstates (hk _ hkept) hv
  | error hw hstates hkept => exact .error hw hstates (hk _ hkept)

theorem Ends.from_later {kept : Environment → Prop} {out : EStateM.Result Stop State β}
    {out' : EStateM.Result Stop State α} (hw : w ≤ w') (hend : C.Ends w' a a' kept R out out') :
    C.Ends w a a' kept R out out' := by
  cases hend with
  | ok hw' hstates hkept hv => exact .ok (hw.trans hw') hstates hkept hv
  | error hw' hstates hkept => exact .error (hw.trans hw') hstates hkept

theorem Ends.bind {kept : Environment → Prop} {x : Eval β} {x' : Eval α} {k : β → Eval δ}
    {k' : α → Eval γ} (hx : C.Ends w a a' kept R (x a s) (x' a' s'))
    (hk : ∀ w' v v' t t', w ≤ w' → C.States w' a a' t t' → kept t'.env → R w' v v' →
      C.Ends w' a a' kept Q (k v a t) (k' v' a' t')) :
    C.Ends w a a' kept Q ((x >>= k) a s) ((x' >>= k') a' s') := by
  show C.Ends w a a' kept Q (EStateM.bind (x a) (fun v => k v a) s)
    (EStateM.bind (x' a') (fun v => k' v a') s')
  unfold EStateM.bind
  generalize x a s = out at hx
  generalize x' a' s' = out' at hx
  cases hx with
  | @ok w' v v' t t' hw hstates hkept hv =>
      exact (hk w' v v' t t' hw hstates hkept hv).from_later hw
  | error hw hstates hkept => exact .error hw hstates hkept

theorem Mirrors.bind {x : Eval β} {x' : Eval α} {k : β → Eval δ} {k' : α → Eval γ}
    (hx : C.Mirrors w x x' R)
    (hk : ∀ w' v v', w ≤ w' → R w' v v' → C.Mirrors w' (k v) (k' v') Q) :
    C.Mirrors w (x >>= k) (x' >>= k') Q := by
  intro a a' s s' hs
  refine (hx a a' s s' hs).bind fun w' v v' t t' hw ht hkept hv => ?_
  rw [← hkept]
  exact hk w' v v' hw hv a a' t t' ht

theorem Stacks.bind {x : Eval β} {x' : Eval α} {k : β → Eval δ} {k' : α → Eval γ}
    (hx : C.Stacks w x x' R)
    (hk : ∀ w' v v', w ≤ w' → R w' v v' → C.Stacks w' (k v) (k' v') Q) :
    C.Stacks w (x >>= k) (x' >>= k') Q := by
  intro a a' s s' hs
  refine (hx a a' s s' hs).bind fun w' v v' t t' hw ht hkept hv => ?_
  exact (hk w' v v' hw hv a a' t t' ht).imp fun e he => hkept.trans he

theorem Mirrors.stacks {act : Eval β} {act' : Eval α} (hact : C.Mirrors w act act' R) :
    C.Stacks w act act' R :=
  fun a a' s s' hs => (hact a a' s s' hs).imp fun _ he => he ▸ List.suffix_refl _

theorem Mirrors.imp_post {act : Eval β} {act' : Eval α} {R' : Naming L host → β → α → Prop}
    (hact : C.Mirrors w act act' R) (himp : ∀ w v v', R w v v' → R' w v v') :
    C.Mirrors w act act' R' := by
  intro a a' s s' hs
  have hend := hact a a' s s' hs
  generalize act a s = out at hend
  generalize act' a' s' = out' at hend
  cases hend with
  | ok hw ht hkept hv => exact .ok hw ht hkept (himp _ _ _ hv)
  | error hw ht hkept => exact .error hw ht hkept

/-! ## Primitive computations -/

theorem mirrors_pure {v : β} {v' : α} (hv : R w v v') : C.Mirrors w (pure v) (pure v') R :=
  fun _ _ _ _ hs => .ok (le_refl w) hs rfl hv

theorem mirrors_stop (e : Stop) :
    C.Mirrors w (throw (w.ren.stop e) : Eval β) (throw e : Eval α) R :=
  fun _ _ _ _ hs => .error (le_refl w) hs rfl

theorem mirrors_fail {e e' : EvalError} (he : e = w.ren.error e') :
    C.Mirrors w (fail e : Eval β) (fail e' : Eval α) R := by
  subst he
  exact mirrors_stop (.error e')

/-- A check on both sides, of which one is the other, renamed. -/
theorem mirrors_ofExcept {f : α → β} {x : Except EvalError β} {x' : Except EvalError α}
    (hx : x = w.ren.check f x') (hR : ∀ v', x' = .ok v' → R w (f v') v') :
    C.Mirrors w (ofExcept x) (ofExcept x') R := by
  subst hx
  cases x' with
  | ok v' => exact mirrors_pure (hR v' rfl)
  | error e => exact mirrors_fail rfl

/-- The same check of an argument count on both sides. -/
theorem mirrors_arity (arity : Arity) {count count' : Nat} (hcount : count = count') :
    C.Mirrors w (ofExcept (arity.check count)) (ofExcept (arity.check count'))
      fun _ _ _ => True := by
  subst hcount
  exact mirrors_ofExcept (w.ren.arityCheck_eq_check arity count) fun _ _ => trivial

theorem mirrors_onHeap {read : Heap → β} {read' : Heap → α}
    (hread : ∀ h g, C.heap w h g → R w (read h) (read' g)) :
    C.Mirrors w (onHeap read) (onHeap read') R :=
  fun _ _ s s' hs => .ok (le_refl w) hs rfl (hread s.heap s'.heap hs.heap)

theorem mirrors_inspect {read : Anchors → Heap → β} {read' : Anchors → Heap → α}
    (hread : ∀ a a' h g, C.heap w h g → C.anchors w a a' → R w (read a h) (read' a' g)) :
    C.Mirrors w (inspect read) (inspect read') R :=
  fun _ _ s s' hs => .ok (le_refl w) hs rfl (hread _ _ s.heap s'.heap hs.heap hs.anchors)

theorem mirrors_environment : C.Mirrors w environment environment Naming.env :=
  fun _ _ _ _ hs => .ok (le_refl w) hs rfl hs.env

theorem mirrors_make {build : Heap → β × Heap} {build' : Heap → α × Heap}
    (hbuild : ∀ h g, C.heap w h g → w.Arrives C.heap R (build h) (build' g)) :
    C.Mirrors w (make build) (make build') R := by
  intro a a' s s' hs
  obtain ⟨w', hw, hh, hv⟩ := hbuild s.heap s'.heap hs.heap
  exact .ok hw (hs.later hw hh) rfl hv

theorem mirrors_change {alter alter' : Heap → Heap}
    (halter : ∀ h g, C.heap w h g → ∃ w', w ≤ w' ∧ C.heap w' (alter h) (alter' g)) :
    C.Mirrors w (change alter) (change alter') fun _ _ _ => True := by
  intro a a' s s' hs
  obtain ⟨w', hw, hh⟩ := halter s.heap s'.heap hs.heap
  exact .ok hw (hs.later hw hh) rfl trivial

theorem stacks_push {f f' : Frame} (hf : w.frame f f') :
    C.Stacks w (Eval.push f) (Eval.push f') fun _ _ _ => True := by
  intro a a' s s' hs
  obtain ⟨w', hw, hh, henv⟩ := C.frame hs.heap hs.env hf
  have hanchors := C.push (C.anchors_mono hw hs.anchors) henv
  exact .ok hw ⟨hh, henv, hanchors⟩ (List.suffix_cons _ _) trivial

theorem Mirrors.holding {act : Eval β} {act' : Eval α} (hact : C.Mirrors w act act' R)
    {us vs : List Value} (hvs : w.values us vs) :
    C.Mirrors w (holding us act) (holding vs act') R := by
  intro a a' s s' hs
  have hend := hact (a.hold us) (a'.hold vs) s s'
    ⟨hs.heap, hs.env, C.hold hs.anchors hvs⟩
  show C.Ends w a a' _ R (act (a.hold us) s) (act' (a'.hold vs) s')
  generalize act (a.hold us) s = out at hend
  generalize act' (a'.hold vs) s' = out' at hend
  cases hend with
  | ok hw ht hkept hv =>
      have hback := hs.later hw ht.heap
      rw [← hkept, ← hs.env_eq hw ht hkept] at hback
      exact .ok hw hback hkept hv
  | error hw ht hkept =>
      have hback := hs.later hw ht.heap
      rw [← hkept, ← hs.env_eq hw ht hkept] at hback
      exact .error hw hback hkept

/-- A scope takes off on both sides what its body has left on the environments. -/
theorem mirrors_withScope {act : Eval β} {act' : Eval α} (hact : C.Stacks w act act' R) :
    C.Mirrors w (withScope act) (withScope act') R := by
  intro a a' s s' hs
  have hend := hact a a' s s' hs
  have hback : ∀ {w' : Naming L host} {t t' : State}, w ≤ w' → C.States w' a a' t t' →
      s'.env <:+ t'.env → t'.env.truncate s'.env.length = s'.env ∧
        t.env.truncate s.env.length = s.env := by
    intro w' t t' hw ht hsuffix
    have hguest := View.truncate_of_suffix hsuffix
    refine ⟨hguest, ?_⟩
    rw [ht.env.1, hs.env.1, Renaming.length_env, Renaming.truncate_env, hguest, hw.env hs.env.2]
  simp only [Eval.withScope]
  generalize act a s = out at hend
  generalize act' a' s' = out' at hend
  cases hend with
  | ok hw ht hkept hv =>
      obtain ⟨hguest, hhost⟩ := hback hw ht hkept
      simp only [hguest, hhost]
      exact .ok hw (hs.later hw ht.heap) rfl hv
  | error hw ht hkept =>
      obtain ⟨hguest, hhost⟩ := hback hw ht hkept
      simp only [hguest, hhost]
      exact .error hw (hs.later hw ht.heap) rfl

theorem Mirrors.inEnvironment {act : Eval β} {act' : Eval α} (hact : C.Mirrors w act act' R)
    {e e' : Environment} (he : w.env e e') :
    C.Mirrors w (inEnvironment e act) (inEnvironment e' act') R := by
  intro a a' s s' hs
  have hend := hact (a.stay s.env) (a'.stay s'.env) { s with env := e } { s' with env := e' }
    ⟨hs.heap, he, C.stay hs.anchors he⟩
  simp only [Eval.inEnvironment]
  generalize act (a.stay s.env) { s with env := e } = out at hend
  generalize act' (a'.stay s'.env) { s' with env := e' } = out' at hend
  cases hend with
  | ok hw ht _ hv => exact .ok hw (hs.later hw ht.heap) rfl hv
  | error hw ht _ => exact .error hw (hs.later hw ht.heap) rfl

theorem mirrors_lexical {x x' : Symbol} (hx : w.value (.symbol x) (.symbol x')) :
    C.Mirrors w (lexical? x) (lexical? x') fun w => Option.Rel w.value := by
  intro a a' s s' hs
  refine .ok (le_refl w) hs rfl ?_
  have hid : x.id = w.ren.object x'.id := congrArg Value.id hx.1
  show Option.Rel w.value (s.heap.lookup s.env x.id) (s'.heap.lookup s'.env x'.id)
  rw [hid, hs.env.1, (C.carries hs.heap).lookup]
  cases hfound : s'.heap.lookup s'.env x'.id with
  | some v => exact .some ⟨rfl, L.lookup (C.known hs.heap) hs.env.2 hfound⟩
  | none => exact .none

theorem mirrors_assign {x x' : Symbol} {v v' : Value} (hx : w.var x x') (hv : w.value v v') :
    C.Mirrors w (Eval.assign x v) (Eval.assign x' v') fun _ _ _ => True := by
  intro a a' s s' hs
  have hid : x.id = w.ren.object x'.id := congrArg Symbol.id hx.1
  have hbinder := (C.carries hs.heap).binder? s'.env x'.id
  rw [← hs.env.1, ← hid] at hbinder
  simp only [Eval.assign]
  cases hguest : s'.heap.binder? s'.env x'.id with
  | none =>
      rw [hguest] at hbinder
      simp only [Heap.assign?, hbinder, hguest, Option.map_none]
      obtain ⟨w', hw, hh⟩ := C.setValue hs.heap hx hv
      exact .ok hw (hs.later hw hh) rfl trivial
  | some id =>
      rw [hguest] at hbinder
      simp only [Heap.assign?, hbinder, hguest, Option.map_some]
      obtain ⟨w', hw, hh⟩ := C.assign hs.heap hs.env hx hv (by rw [Heap.assign?, hbinder]; rfl)
        (by rw [Heap.assign?, hguest]; rfl)
      exact .ok hw (hs.later hw hh) rfl trivial

/-- A cell of a symbol, read on both sides. -/
theorem cell_rel {h g : Heap} (hh : C.heap w h g) {x x' : Symbol}
    (hx : w.value (.symbol x) (.symbol x')) (cell : Cells → Option Value)
    (hcell : ∀ c, cell (w.ren.cells c) = (cell c).map w.ren.value)
    (hmem : ∀ c v, cell c = some v → v ∈ Heap.cellValues c) :
    Option.Rel w.value (cell (h.cellsOf x)) (cell (g.cellsOf x')) := by
  obtain ⟨rfl⟩ : x = w.ren.symbol x' := by injection hx.1
  rw [(C.carries hh).cellsOf, hcell]
  cases hfound : cell (g.cellsOf x') with
  | some v => exact .some ⟨rfl, L.cell (C.known hh) hx.2 (hmem _ v hfound)⟩
  | none => exact .none

theorem mirrors_functionOf {x x' : Symbol} (hx : w.value (.symbol x) (.symbol x')) :
    C.Mirrors w (functionOf x) (functionOf x') Naming.value := by
  have hname : x.name = x'.name := by
    obtain ⟨rfl⟩ : x = w.ren.symbol x' := by injection hx.1
    rfl
  refine Mirrors.bind (R := fun w => Option.Rel w.value) (mirrors_onHeap fun h g hh =>
    cell_rel hh hx Cells.function (fun _ => rfl) fun c v hv => by simp [Heap.cellValues, hv])
    fun w' found found' hw hfound => ?_
  cases hfound with
  | some hv => exact mirrors_pure hv
  | none =>
      refine mirrors_fail ?_
      rw [hname]
      rfl

end

end Coupling

end SmallLisp
