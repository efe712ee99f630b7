import SmallLisp.Proofs.Eval.Coupled
import SmallLisp.Proofs.Eval.Frames
import SmallLisp.Proofs.Program.Runs

set_option autoImplicit false

/-! # Reading and running do not depend on names

The reader makes objects and interns names, in the order in which it meets them. So in a host and
its guest it reads the same items into forms of which one is the other, renamed, and what it has
under way is the same but for names as well (`Hosts.take`). Errors of reading hold no objects at
all. A host and its guest are coupled by one renaming for ever (`Hosts.coupling`), so the same
programs have the same outcomes, renamed (`Hosts.evalText`, `Hosts.loadText`).
-/

namespace SmallLisp.Renaming

open Reader

/-! ## Reading -/

section

variable (r : Renaming)

/-- A construct that is being read, renamed. -/
def context : Context → Context
  | .list opened items => .list opened (r.values items)
  | .tail opened items => .tail opened (r.values items)
  | .quote => .quote

/-- What the reader waits for, renamed. -/
def stage : Stage → Stage
  | .form stack => .form (stack.map r.context)
  | .closing opened items tail stack =>
      .closing opened (r.values items) (r.value tail) (stack.map r.context)

/-- The result of taking a token, renamed. -/
def progress : Progress → Progress
  | .done form => .done (r.value form)
  | .more next => .more (r.stage next)
  | .failed e => .failed e

theorem atEnd_stage (now : Stage) : (r.stage now).atEnd = now.atEnd := by
  cases now with
  | closing opened items tail stack => rfl
  | form stack =>
      cases stack with
      | nil => rfl
      | cons context stack => cases context <;> rfl

theorem values_reverse (vs : List Value) : (r.values vs).reverse = r.values vs.reverse :=
  List.map_reverse.symm

end

variable {r : Renaming} {lisp : Interpreter} {base host guest : Heap}

/-- What is made on both sides and then delivered. -/
theorem Makes.deliver {out out' : Value × Heap} (hmade : r.Makes lisp base r.value out out')
    (stack : List Context) :
    r.Makes lisp base r.progress
      (deliver (r.interpreter lisp) out.1 (stack.map r.context) out.2)
      (deliver lisp out'.1 stack out'.2) := by
  induction stack generalizing out out' with
  | nil => exact ⟨congrArg Progress.done hmade.result, hmade.hosts⟩
  | cons context stack ih =>
      obtain ⟨v, h⟩ := out
      obtain ⟨v', h'⟩ := out'
      obtain ⟨hv, hh⟩ := hmade
      obtain rfl : v = r.value v' := hv
      cases context with
      | list opened items => exact ⟨rfl, hh⟩
      | tail opened items => exact ⟨rfl, hh⟩
      | quote =>
          have hquote := hh.intern "quote"
          simp only [List.map_cons, Renaming.context, SmallLisp.deliver]
          rw [hquote.result]
          exact ih (hquote.hosts.list [.symbol (lisp.intern h' "quote").1, v'])

theorem Hosts.takeForm (hh : r.Hosts lisp base host guest) (token : Located Token)
    (stack : List Context) :
    r.Makes lisp base r.progress
      (takeForm (r.interpreter lisp) token (stack.map r.context) host)
      (takeForm lisp token stack guest) := by
  unfold SmallLisp.takeForm
  cases token.content with
  | leftParen => exact ⟨rfl, hh⟩
  | quote => exact ⟨rfl, hh⟩
  | integer i => exact Makes.deliver (hh.alloc rfl) stack
  | float x => exact Makes.deliver (hh.alloc rfl) stack
  | string s => exact Makes.deliver (hh.alloc rfl) stack
  | symbol name =>
      have hsymbol := hh.intern name
      have hmade : r.Makes lisp base r.value
          (.symbol ((r.interpreter lisp).intern host name).1,
            ((r.interpreter lisp).intern host name).2)
          (.symbol (lisp.intern guest name).1, (lisp.intern guest name).2) :=
        ⟨congrArg Value.symbol hsymbol.result, hsymbol.hosts⟩
      exact hmade.deliver stack
  | rightParen =>
      rcases stack with _ | ⟨_ | _ | _, outer⟩
      · exact ⟨rfl, hh⟩
      · rename_i opened items
        simp only [List.map_cons, context]
        rw [values_reverse]
        exact (hh.list items.reverse).deliver outer
      · exact ⟨rfl, hh⟩
      · exact ⟨rfl, hh⟩
  | dot =>
      rcases stack with _ | ⟨⟨opened, _ | ⟨x, xs⟩⟩ | _ | _, outer⟩ <;> exact ⟨rfl, hh⟩

/-- **Taking one token** on both sides. -/
theorem Hosts.take (hh : r.Hosts lisp base host guest) (token : Located Token) (now : Stage) :
    r.Makes lisp base r.progress ((r.stage now).take (r.interpreter lisp) token host)
      (now.take lisp token guest) := by
  cases now with
  | form stack => exact hh.takeForm token stack
  | closing opened items tail stack =>
      simp only [stage, Stage.take]
      cases token.content with
      | rightParen =>
          rw [values_reverse]
          exact (hh.listWithTail tail items.reverse).deliver stack
      | _ => exact ⟨rfl, hh⟩

/-- Readings of the same items on both sides. -/
structure Reads (r : Renaming) (lisp : Interpreter) (base : Heap) (out out' : Reading) : Prop where
  result : out.result = out'.result.map r.value
  reader : out.reader = out'.reader
  hosts : r.Hosts lisp base out.heap out'.heap

theorem Hosts.run (hh : r.Hosts lisp base host guest) (length : Nat) (now : Stage)
    (items : List Item) :
    r.Reads lisp base (run (r.interpreter lisp) length (r.stage now) items host)
      (run lisp length now items guest) := by
  induction items generalizing now host guest with
  | nil => exact ⟨congrArg Except.error (r.atEnd_stage now), rfl, hh⟩
  | cons item rest ih =>
      unfold Reader.run
      cases item.content with
      | error e => exact ⟨rfl, rfl, hh⟩
      | ok token =>
          have htake := hh.take ⟨item.span, token⟩ now
          rcases htaken : now.take lisp ⟨item.span, token⟩ guest with ⟨p, h₁⟩
          rw [htaken] at htake
          simp only [htaken]
          rw [htake.eq]
          cases p with
          | done form => exact ⟨rfl, rfl, htake.hosts⟩
          | failed e => exact ⟨rfl, rfl, htake.hosts⟩
          | more next => exact ih htake.hosts next

theorem Hosts.read (hh : r.Hosts lisp base host guest) (reader : Reader) :
    r.Reads lisp base (reader.read (r.interpreter lisp) host) (reader.read lisp guest) :=
  hh.run reader.length (.form []) reader.pending

theorem Hosts.readText (hh : r.Hosts lisp base host guest) (source : List Char) :
    r.Makes lisp base (Except.map r.value) (readText (r.interpreter lisp) source host)
      (readText lisp source guest) := by
  have hread := hh.read (ofSource source)
  unfold SmallLisp.readText
  generalize (ofSource source).read (r.interpreter lisp) host = out at hread
  generalize (ofSource source).read lisp guest = out' at hread
  simp only [hread.result, hread.reader]
  cases out'.result with
  | error e => exact ⟨rfl, hread.hosts⟩
  | ok form =>
      -- after the form there must be nothing left
      rcases out'.reader.pending with _ | ⟨⟨span, _ | token⟩, rest⟩ <;> exact ⟨rfl, hread.hosts⟩

/-! ## Running -/

section

variable (r : Renaming)

/-- A failure, renamed. -/
def failure : Failure → Failure
  | .eval e => .eval (r.error e)
  | e => e

/-- A result, renamed. -/
def result : Except Failure Value → Except Failure Value
  | .ok v => .ok (r.value v)
  | .error e => .error (r.failure e)

end

/-- Where everything is known, no name ever changes. -/
theorem ren_eq_of_le {host : Interpreter} {w w' : Naming (ShapeLaw.vacuous lisp).toLaw host}
    (hw : w ≤ w') : w'.ren = w.ren := by
  have hobject : w'.ren.object = w.ren.object := by
    funext id
    exact congrArg Value.id (hw.value (v := .package id "") trivial)
  have hframe : w'.ren.frameId = w.ren.frameId := by
    funext id
    exact List.head_eq_of_cons_eq (hw.env (e := [id]) trivial)
  cases hren : w.ren
  cases hren' : w'.ren
  simp_all

/-- **A host and its guest are coupled** by their renaming, whatever is held on either side. -/
def Hosts.coupling (lisp : Interpreter) (base : Heap) (host : Interpreter) :
    Coupling (ShapeLaw.vacuous lisp).toLaw host where
  heap w h g := w.ren.Hosts lisp base h g
  anchors _ _ _ := True
  known _ := trivial
  carries hh := hh.toCarries
  lambda {w _ _} hh := by
    have hfound : (w.ren.interpreter lisp).findSymbol _ "lambda" = _ :=
      hh.symbols lisp.package "lambda"
    rwa [w.interpreter] at hfound
  package {w _ _ a a' _ s'} hh _ hs := by
    obtain rfl : _ = w.ren.symbol s' := by injection hs.1
    have hpackage := hh.packageOf? a a' s'
    rwa [w.interpreter] at hpackage
  anchors_mono _ _ := trivial
  hold _ _ := trivial
  stay _ _ := trivial
  push _ _ := trivial
  number {w h g} hh n := by
    have hmade : w.ren.Makes lisp base w.ren.value (h.alloc (.number · n))
        (g.alloc (.number · n)) := hh.alloc rfl
    exact ⟨w, le_refl w, hmade.hosts, hmade.result, trivial⟩
  cons {w _ _ _ _ car' cdr'} hh hcar hcdr := by
    obtain ⟨rfl, _⟩ := hcar
    obtain ⟨rfl, _⟩ := hcdr
    have hmade := hh.cons car' cdr'
    exact ⟨w, le_refl w, hmade.hosts, hmade.result, trivial⟩
  marker {w _ _} hh := by
    have hmade := hh.intern "&rest"
    rw [w.interpreter] at hmade
    exact ⟨w, le_refl w, hmade.hosts, congrArg Value.symbol hmade.result, trivial⟩
  closure {w _ _ name name' _ c'} hh hname hc := by
    obtain rfl : name = name'.map w.ren.symbol := by
      cases hname with
      | some hs => exact congrArg some (by injection hs.1)
      | none => rfl
    rw [hc.eq]
    have hmade := hh.makeClosure name' c'
    exact ⟨w, le_refl w, hmade.hosts, hmade.result, trivial⟩
  frame {w _ _ _ _ _ f'} hh he hf := by
    rw [Naming.frame_eq hf]
    have hmade := hh.makeFrame f'
    refine ⟨w, le_refl w, hmade.hosts, ?_, trivial⟩
    rw [hmade.result, he.1]
    rfl
  setFunction {w _ _ _ s' _ _ _ _} hh hs hv := by
    obtain rfl : _ = w.ren.symbol s' := by injection hs.1
    rw [hv.1]
    exact ⟨w, le_refl w, hh.setFunction s' _⟩
  setValue {w _ _ _ _ _ _} hh hs hv := by
    obtain ⟨rfl, _⟩ := hs
    obtain ⟨rfl, _⟩ := hv
    exact ⟨w, le_refl w, hh.setValue _ _⟩
  assign {w _ _ _ _ _ _ _ _ _ _} hh he hs hv hhost hguest := by
    obtain ⟨rfl, _⟩ := he
    obtain ⟨rfl, _⟩ := hs
    obtain ⟨rfl, _⟩ := hv
    exact ⟨w, le_refl w, hh.assign hhost hguest⟩

/-- **Evaluating a form at top level**, on both sides. -/
theorem Hosts.eval (hh : r.Hosts lisp base host guest) (depth : Nat) (held held' : Anchors)
    (form : Value) :
    r.Makes lisp base r.result ((r.interpreter lisp).eval depth held (r.value form) host)
      (lisp.eval depth held' form guest) := by
  let w : Naming (ShapeLaw.vacuous lisp).toLaw (r.interpreter lisp) := ⟨(), r, rfl⟩
  have hform : w.value (r.value form) form := ⟨rfl, trivial⟩
  have hend := (coupling lisp base _).mirrors_evaluate depth hform (held.hold [r.value form])
    (held'.hold [form]) ⟨host, (r.interpreter lisp).toplevel⟩ ⟨guest, lisp.toplevel⟩
    ⟨hh, ⟨rfl, trivial⟩, trivial⟩
  unfold Interpreter.eval Interpreter.runIn
  generalize Eval.evaluate (r.interpreter lisp) depth (r.value form) (held.hold [r.value form])
    ⟨host, (r.interpreter lisp).toplevel⟩ = out at hend
  generalize Eval.evaluate lisp depth form (held'.hold [form]) ⟨guest, lisp.toplevel⟩ = out'
    at hend
  cases hend with
  | @ok w' _ _ _ _ hw hstates _ hv =>
      have hren : w'.ren = r := ren_eq_of_le hw
      have hheap : w'.ren.Hosts lisp base _ _ := hstates.heap
      rw [hren] at hheap
      refine ⟨congrArg Except.ok ?_, hheap⟩
      rw [← hren]
      exact hv.1
  | @error w' e _ _ hw hstates _ =>
      have hren : w'.ren = r := ren_eq_of_le hw
      have hheap : w'.ren.Hosts lisp base _ _ := hstates.heap
      rw [hren] at hheap ⊢
      exact ⟨by cases e <;> rfl, hheap⟩

theorem Hosts.evalText (hh : r.Hosts lisp base host guest) (depth : Nat) (held held' : Anchors)
    (source : List Char) :
    r.Makes lisp base r.result ((r.interpreter lisp).evalText depth held source host)
      (lisp.evalText depth held' source guest) := by
  have hread := hh.readText source
  rcases htext : SmallLisp.readText lisp source guest with ⟨x, h₁⟩
  rw [htext] at hread
  unfold Interpreter.evalText
  rw [htext, hread.eq]
  cases x with
  | error e => exact ⟨rfl, hread.hosts⟩
  | ok form => exact hread.hosts.eval depth held held' form

theorem Hosts.loadFrom (hh : r.Hosts lisp base host guest) (depth : Nat) (held held' : Anchors)
    (last : Value) (reader : Reader) :
    r.Makes lisp base r.result
      ((r.interpreter lisp).loadFrom depth held (r.value last) reader host)
      (lisp.loadFrom depth held' last reader guest) := by
  fun_induction Interpreter.loadFrom lisp depth held' last reader guest generalizing host with
  | case1 last reader guest hnext =>
      rw [loadFrom_of_pending_nil (next?_eq_none_iff.1 hnext)]
      exact ⟨rfl, hh⟩
  | case2 last reader guest out hnext e herr =>
      obtain ⟨hne, rfl⟩ := next?_eq_some_iff.1 hnext
      have hread := hh.read reader
      rw [loadFrom_of_read_error hne (by rw [hread.result, herr]; rfl)]
      exact ⟨rfl, hread.hosts⟩
  | case3 last reader guest out hnext form hform e h₁ heval =>
      obtain ⟨hne, rfl⟩ := next?_eq_some_iff.1 hnext
      have hread := hh.read reader
      have hout := hread.hosts.eval depth (held.hold [r.value last]) (held'.hold [last]) form
      rw [heval] at hout
      rw [loadFrom_eq_of_read hne (by rw [hread.result, hform]; rfl), hout.eq]
      exact ⟨rfl, hout.hosts⟩
  | case4 last reader guest out hnext form hform v h₁ heval ih =>
      obtain ⟨hne, rfl⟩ := next?_eq_some_iff.1 hnext
      have hread := hh.read reader
      have hout := hread.hosts.eval depth (held.hold [r.value last]) (held'.hold [last]) form
      rw [heval] at hout
      rw [loadFrom_eq_of_read hne (by rw [hread.result, hform]; rfl), hout.eq]
      show r.Makes lisp base r.result ((r.interpreter lisp).loadFrom depth held (r.value v)
        (reader.read (r.interpreter lisp) host).reader _) _
      rw [hread.reader]
      exact ih hout.hosts

/-- **Loading a text**, on both sides. -/
theorem Hosts.loadText (hh : r.Hosts lisp base host guest) (depth : Nat) (held held' : Anchors)
    (source : List Char) :
    r.Makes lisp base r.result ((r.interpreter lisp).loadText depth held source host)
      (lisp.loadText depth held' source guest) :=
  hh.loadFrom depth held held' lisp.nilValue (ofSource source)

end SmallLisp.Renaming
