import SmallLisp.Proofs.Eval.Built
import SmallLisp.Proofs.Eval.Frames
import SmallLisp.Proofs.Heap.Identity
import SmallLisp.Proofs.Program.Lawful
import SmallLisp.Session.Run

set_option autoImplicit false

/-! # What a request does to a session

Whatever a session is asked to do, it is done in small acts: objects of the session are picked, a
form is read, a name is interned, an object is made, something is set, or code is run (`Act`). An
act works on values that are at hand, and these have been picked or have come out of an act before
it. No act touches the environments of the session or its slots (`Acts.steady`).

The code that is run is evaluation, entered at a form, at a call or at a native operator
(`Eval.Entered`). What is known of evaluation at any depth is known of such code.
-/

namespace SmallLisp

/-! ## Code -/

namespace Eval

/-- **Code that is entered with values at hand**: a form, a call, or a native operator. -/
inductive Entered (lisp : Interpreter) (limit : Nat) (vs : List Value) : Eval Value → Prop
  | form {form : Value} (hform : form ∈ vs) : Entered lisp limit vs (evaluate lisp limit form)
  | apply (operator : Value) {argList : Value} (hlist : argList ∈ vs) :
      Entered lisp limit vs (apply lisp (evaluate lisp limit) operator argList)
  | applyValues (operator : Value) {args : List Value} (hargs : args ⊆ vs) :
      Entered lisp limit vs (applyValues lisp (evaluate lisp limit) operator args)
  | specialForm (form : SpecialForm) {args : List Value} (hargs : args ⊆ vs) :
      Entered lisp limit vs (form.run lisp (evaluate lisp limit) args)
  | builtin (op : Builtin) {args : List Value} (hargs : args ⊆ vs) :
      Entered lisp limit vs (callBuiltin lisp (evaluate lisp limit) op args)
  | holding {act : Eval Value} (held : List Value) (hact : Entered lisp limit vs act) :
      Entered lisp limit vs (holding held act)

variable {lisp : Interpreter} {limit : Nat} {vs : List Value} {act : Eval Value}

/-- It keeps every law if the values are known. -/
theorem Entered.keeps (hact : Entered lisp limit vs act) (L : Law lisp) {w : L.World}
    (hvs : L.values w vs) : L.Keeps w act L.value := by
  have hev : L.Evaluates (evaluate lisp limit) := L.keeps_evaluate limit
  induction hact with
  | form hform => exact hev (hvs _ hform)
  | apply operator hlist => exact L.keeps_apply hev (hvs _ hlist) operator
  | applyValues operator hargs =>
      exact L.keeps_applyValues hev (fun v hv => hvs v (hargs hv)) operator
  | specialForm form hargs => exact L.keeps_specialForm hev form fun v hv => hvs v (hargs hv)
  | builtin op hargs =>
      exact L.keeps_callBuiltin op (fun v hv => hvs v (hargs hv)) fun _ hrest g =>
        L.keeps_applyValues hev hrest g
  | holding held _ ih => exact View.keeps_holding ih

theorem Entered.keepsShape (hact : Entered lisp limit vs act) : KeepsShape lisp act :=
  fun L w => hact.keeps L.toLaw (L.values w vs)

theorem Entered.built (hact : Entered lisp limit vs act) : Built lisp act := by
  have hev : ∀ form, Built lisp (evaluate lisp limit form) := built_evaluate limit
  induction hact with
  | form => exact hev _
  | apply operator => exact built_apply hev operator _
  | applyValues operator => exact built_applyValues hev operator _
  | specialForm form => exact built_specialForm hev form _
  | builtin op => exact built_callBuiltin op _ fun _ rest g _ => built_applyValues hev g rest
  | holding held _ ih => exact .holding held ih

end Eval

/-- The value that a result yields, if there is one. -/
def yielded {ε : Type} : Except ε Value → List Value
  | .ok v => [v]
  | .error _ => []

theorem View.values_yielded {V : View} {w : V.World} {ε : Type} {r : Except ε Value} :
    V.values w (yielded r) ↔ V.result w r := by
  cases r with
  | ok v => exact List.forall_mem_singleton
  | error e => exact iff_of_true values_nil trivial

namespace Session

/-! ## Acts -/

/-- **The objects of a session.** -/
inductive Has (s : Session) : Value → Prop
  | slot {x : String × Value} (hx : x ∈ s.slots) : Has s x.2
  | own {v : Value} (hv : v ∈ s.lisp.held) : Has s v
  | foreign {lisp : Interpreter} {v : Value} (hlisp : s.foreign = some lisp)
      (hv : v ∈ lisp.held) : Has s v
  | heap {v : Value} (hv : s.heap.Mentions v) : Has s v
  | part {v p : Value} (hv : Has s v) (hp : p ∈ v.parts) : Has s p

theorem has_slot (s : Session) (name : String) : s.Has (s.slot name) := by
  unfold Session.slot
  cases hfound : s.slots.lookup name with
  | none => exact .own (by simp [Interpreter.held])
  | some v =>
      obtain ⟨before, after, hsplit, _⟩ := List.lookup_eq_some_iff.1 hfound
      exact .slot (hsplit ▸ List.mem_append_right _ List.mem_cons_self : (name, v) ∈ s.slots)

/-- The environments that a session runs code in. -/
inductive Enters (s : Session) : Environment → Prop
  | working : Enters s s.env
  | toplevel : Enters s s.lisp.toplevel
  | captured (name : String) : Enters s (s.environment name)

/-- **An act**, with the values `vs` at hand, and the values that come out of it. -/
inductive Act (s : Session) (vs : List Value) : Session → List Value → Prop
  | pick {new : List Value} (hnew : ∀ v ∈ new, s.Has v) : Act s vs s new
  | read (source : String) : Act s vs (s.read source).2 (yielded (s.read source).1)
  | intern {package : ObjectId} (hp : ∃ v ∈ vs, v.id = package) (name : String) :
      Act s vs { s with heap := (s.heap.intern package name).2 }
        [.symbol (s.heap.intern package name).1]
  | number (n : Number) :
      Act s vs { s with heap := (s.heap.alloc (.number · n)).2 } [(s.heap.alloc (.number · n)).1]
  | string (text : String) :
      Act s vs { s with heap := (s.heap.alloc (.string · text)).2 }
        [(s.heap.alloc (.string · text)).1]
  | list {tail : Value} {items : List Value} (htail : tail ∈ vs) (hitems : items ⊆ vs) :
      Act s vs { s with heap := (s.heap.listWithTail tail items).2 }
        [(s.heap.listWithTail tail items).1]
  | package (name : String) :
      Act s vs { s with heap := (s.heap.makePackage name).2 } [(s.heap.makePackage name).1]
  | interpreter :
      Act s vs
        { s with
          foreign := some (Interpreter.fresh s.heap).1
          heap := (Interpreter.fresh s.heap).2 }
        (Interpreter.fresh s.heap).1.held
  | dismiss : Act s vs { s with foreign := none } []
  | assign {env : Environment} {key : ObjectId} {v : Value} {h : Heap} (hv : v ∈ vs)
      (hassign : s.heap.assign? env key v = some h) : Act s vs { s with heap := h } []
  | cell {symbol : Symbol} {v : Value} (hsymbol : .symbol symbol ∈ vs) (hv : v ∈ vs)
      (cell : CellName) : Act s vs { s with heap := setCell s.heap symbol v cell } []
  | load (limit : Nat) (held : Anchors) (source : List Char) :
      Act s vs { s with heap := (s.lisp.loadText limit held source s.heap).2 }
        (yielded (s.lisp.loadText limit held source s.heap).1)
  | run {limit : Nat} {act : Eval Value} {env : Environment}
      (hact : act.Entered s.lisp limit vs) (held : Anchors) (henv : s.Enters env) :
      Act s vs { s with heap := (Interpreter.runIn held env s.heap act).2.1 }
        (yielded (Interpreter.runIn held env s.heap act).1)

/-- **Any number of acts**, and the values that are at hand after them. -/
inductive Acts (s : Session) (vs : List Value) : Session → List Value → Prop
  | none : Acts s vs s vs
  | more {s' s'' : Session} {vs' new : List Value} (hs : Acts s vs s' vs')
      (hact : Act s' vs' s'' new) : Acts s vs s'' (new ++ vs')

/-- **A session that keeps all but its heap and its second interpreter.** -/
structure Steady (s s' : Session) : Prop where
  lisp : s'.lisp = s.lisp
  env : s'.env = s.env
  scopes : s'.scopes = s.scopes
  slots : s'.slots = s.slots
  captured : s'.captured = s.captured

variable {s s' s'' : Session} {vs vs' : List Value}

theorem Act.steady {new : List Value} (hact : Act s vs s' new) : Steady s s' := by
  cases hact <;> exact ⟨rfl, rfl, rfl, rfl, rfl⟩

theorem Acts.steady (hs : Acts s vs s' vs') : Steady s s' := by
  induction hs with
  | none => exact ⟨rfl, rfl, rfl, rfl, rfl⟩
  | more _ hact ih =>
      exact ⟨hact.steady.lisp.trans ih.lisp, hact.steady.env.trans ih.env,
        hact.steady.scopes.trans ih.scopes, hact.steady.slots.trans ih.slots,
        hact.steady.captured.trans ih.captured⟩

end Session

end SmallLisp
