import SmallLisp.Program
import SmallLisp.Proofs.Eval.Lawful
import SmallLisp.Proofs.Form.Reading

set_option autoImplicit false

/-! # Reading and running keep every law

What the reader has under way is on its stack, and it does nothing to the heap but make objects
and intern names. So a reader whose stack holds known values goes on with known values, token by
token (`reaches_take`), and the form that it ends with is known. Programs read forms and evaluate
them, and therefore keep every law that evaluation keeps, whether they succeed or fail.
-/

namespace SmallLisp

/-! ## Values under way -/

/-- The values that a construct has so far. -/
def Context.values : Context → List Value
  | .list _ items => items
  | .tail _ items => items
  | .quote => []

/-- The values that a reader has under way. -/
def Stage.values : Stage → List Value
  | .form stack => stack.flatMap Context.values
  | .closing _ items tail stack => tail :: items ++ stack.flatMap Context.values

/-- The values that a token leaves a reader with. -/
def Progress.values : Progress → List Value
  | .done form => [form]
  | .more stage => stage.values
  | .failed _ => []

namespace View

/-- A result that is known, if there is one. -/
def result (V : View) (w : V.World) {ε : Type} : Except ε Value → Prop
  | .ok v => V.value w v
  | .error _ => True

variable {V : View} {w : V.World}

theorem values_append {vs vs' : List Value} :
    V.values w (vs ++ vs') ↔ V.values w vs ∧ V.values w vs' :=
  List.forall_mem_append

theorem values_reverse {vs : List Value} (hvs : V.values w vs) : V.values w vs.reverse :=
  fun v hv => hvs v (List.mem_reverse.1 hv)

end View

namespace Law

open View

variable {lisp : Interpreter} (L : Law lisp) {w : L.World} {h : Heap}

/-! ## Reading -/

/-- Of what is delivered to a stack of quotes, each quote makes a list around it. -/
theorem reaches_deliver {form : Value} {stack : List Context} (hheap : L.heap w h)
    (hform : L.value w form) (hstack : L.values w (stack.flatMap Context.values)) :
    L.Reaches w (deliver lisp form stack h).2 fun w' =>
      L.values w' (deliver lisp form stack h).1.values := by
  induction stack generalizing form w h with
  | nil => exact .here hheap (values_cons.2 ⟨hform, values_nil⟩)
  | cons context stack ih =>
      rw [List.flatMap_cons, values_append] at hstack
      obtain ⟨hitems, hstack⟩ := hstack
      cases context with
      | list opened items =>
          exact .here hheap (values_append.2 ⟨values_cons.2 ⟨hform, hitems⟩, hstack⟩)
      | tail opened items =>
          exact .here hheap (values_append.2 ⟨values_cons.2 ⟨hform, hitems⟩, hstack⟩)
      | quote =>
          obtain ⟨w₁, hw₁, hheap₁, hquote⟩ := L.intern hheap "quote"
          have hquoted : L.values w₁ [.symbol (lisp.intern h "quote").1, form] :=
            values_cons.2 ⟨hquote, values_cons.2 ⟨L.value_mono hw₁ hform, values_nil⟩⟩
          obtain ⟨w₂, hw₂, hheap₂, hlist⟩ := L.reaches_listWithTail hheap₁ (L.nil w₁) hquoted
          have hw : w ≤ w₂ := le_trans hw₁ hw₂
          exact (ih hheap₂ hlist (values_mono hw hstack)).from_later hw

/-- What is made and then delivered to a stack of known values. -/
theorem reaches_deliver_made {v : Value} {h' : Heap} {stack : List Context}
    (hmade : L.Reaches w h' fun w' => L.value w' v)
    (hstack : L.values w (stack.flatMap Context.values)) :
    L.Reaches w (deliver lisp v stack h').2 fun w' =>
      L.values w' (deliver lisp v stack h').1.values := by
  obtain ⟨w', hw, hheap, hv⟩ := hmade
  exact (L.reaches_deliver hheap hv (values_mono hw hstack)).from_later hw

theorem reaches_takeForm (token : Located Token) {stack : List Context} (hheap : L.heap w h)
    (hstack : L.values w (stack.flatMap Context.values)) :
    L.Reaches w (takeForm lisp token stack h).2 fun w' =>
      L.values w' (takeForm lisp token stack h).1.values := by
  unfold takeForm
  split
  · exact .here hheap hstack
  · exact .here hheap hstack
  · exact L.reaches_deliver_made (L.number hheap _) hstack
  · exact L.reaches_deliver_made (L.number hheap _) hstack
  · exact L.reaches_deliver_made (L.string hheap _) hstack
  · exact L.reaches_deliver_made (L.intern hheap _) hstack
  · split
    · obtain ⟨hitems, houter⟩ := values_append.1 hstack
      exact L.reaches_deliver_made
        (L.reaches_listWithTail hheap (L.nil w) (values_reverse hitems)) houter
    · exact .here hheap values_nil
  · split
    · exact .here hheap hstack
    · exact .here hheap values_nil

/-- **A token leaves a reader with known values.** -/
theorem reaches_take (token : Located Token) {stage : Stage} (hheap : L.heap w h)
    (hstage : L.values w stage.values) :
    L.Reaches w (stage.take lisp token h).2 fun w' =>
      L.values w' (stage.take lisp token h).1.values := by
  cases stage with
  | form stack => exact L.reaches_takeForm token hheap hstage
  | closing opened items tail stack =>
      obtain ⟨hlist, hstack⟩ := values_append.1 hstage
      obtain ⟨htail, hitems⟩ := values_cons.1 hlist
      simp only [Stage.take]
      split
      · exact L.reaches_deliver_made
          (L.reaches_listWithTail hheap htail (values_reverse hitems)) hstack
      · exact .here hheap values_nil

theorem reaches_run (length : Nat) {stage : Stage} (items : List Item) (hheap : L.heap w h)
    (hstage : L.values w stage.values) :
    L.Reaches w (Reader.run lisp length stage items h).heap fun w' =>
      L.result w' (Reader.run lisp length stage items h).result := by
  induction items generalizing stage w h with
  | nil => exact .here hheap trivial
  | cons item rest ih =>
      unfold Reader.run
      split
      · exact .here hheap trivial
      · rename_i token _
        have htake := L.reaches_take ⟨item.span, token⟩ hheap hstage
        split <;> rename_i heq <;> rw [heq] at htake
        · exact htake.imp fun w' _ hform => hform _ List.mem_cons_self
        · exact htake.imp fun _ _ _ => trivial
        · obtain ⟨w', hw, hheap', hnext⟩ := htake
          exact (ih hheap' hnext).from_later hw

/-- **Reading a form keeps the law**, and the form is known. -/
theorem reaches_read (r : Reader) (hheap : L.heap w h) :
    L.Reaches w (r.read lisp h).heap fun w' => L.result w' (r.read lisp h).result :=
  L.reaches_run r.length r.pending hheap values_nil

theorem reaches_readText (source : List Char) (hheap : L.heap w h) :
    L.Reaches w (readText lisp source h).2 fun w' => L.result w' (readText lisp source h).1 := by
  have hread := L.reaches_read (Reader.ofSource source) hheap
  simp only [readText]
  split
  · exact hread.imp fun _ _ _ => trivial
  · rename_i form hform
    rw [hform] at hread
    split
    · exact hread
    · split <;> exact hread.imp fun _ _ _ => trivial

/-! ## Running -/

open Interpreter

/-- A computation that keeps the law leaves the environment that it is run in. -/
theorem reaches_runIn {act : Eval Value} (hact : L.Keeps w act L.value) (held : Anchors)
    {env : Environment} (hheap : L.heap w h) (henv : L.env w env) :
    (runIn held env h act).2.2 = env ∧
      L.Reaches w (runIn held env h act).2.1 fun w' => L.result w' (runIn held env h act).1 := by
  have hend := hact held ⟨h, env⟩ hheap henv
  unfold runIn
  split <;> rename_i heq <;> rw [heq] at hend
  · exact ⟨hend.1, hend.2.imp fun _ _ hpost => hpost.2⟩
  · exact hend

theorem reaches_eval (depth : Nat) (held : Anchors) {form : Value} (hheap : L.heap w h)
    (hform : L.value w form) :
    L.Reaches w (lisp.eval depth held form h).2 fun w' =>
      L.result w' (lisp.eval depth held form h).1 :=
  (L.reaches_runIn (L.keeps_evaluate depth hform) _ hheap (L.toplevel w)).2

/-- **Reading and evaluating one form keeps the law.** -/
theorem reaches_evalText (depth : Nat) (held : Anchors) (source : List Char)
    (hheap : L.heap w h) :
    L.Reaches w (lisp.evalText depth held source h).2 fun w' =>
      L.result w' (lisp.evalText depth held source h).1 := by
  have hread := L.reaches_readText source hheap
  unfold evalText
  split <;> rename_i heq <;> rw [heq] at hread
  · exact hread
  · obtain ⟨w', hw, hheap', hform⟩ := hread
    exact (L.reaches_eval depth held hheap' hform).from_later hw

theorem reaches_next {r : Reader} {out : Reading} (hheap : L.heap w h)
    (hnext : r.next? lisp h = some out) :
    L.Reaches w out.heap fun w' => L.result w' out.result := by
  obtain ⟨_, rfl⟩ := Reader.next?_eq_some_iff.1 hnext
  exact L.reaches_read r hheap

/-- The next form of a reader may be evaluated where it has been read. -/
theorem reaches_eval_next {depth : Nat} {held : Anchors} {r : Reader} {out : Reading}
    {form : Value} {result : Except Failure Value} {h' : Heap} (hheap : L.heap w h)
    (hnext : r.next? lisp h = some out) (hform : out.result = .ok form)
    (heval : lisp.eval depth held form out.heap = (result, h')) :
    L.Reaches w h' fun w' => L.result w' result := by
  obtain ⟨w', hw, hheap', hknown⟩ := L.reaches_next hheap hnext
  rw [hform] at hknown
  have hrun := L.reaches_eval depth held hheap' hknown
  rw [heval] at hrun
  exact hrun.from_later hw

theorem reaches_loadFrom (depth : Nat) (held : Anchors) {last : Value} (r : Reader)
    (hheap : L.heap w h) (hlast : L.value w last) :
    L.Reaches w (lisp.loadFrom depth held last r h).2 fun w' =>
      L.result w' (lisp.loadFrom depth held last r h).1 := by
  fun_induction loadFrom lisp depth held last r h generalizing w with
  | case1 last r h hnext => exact .here hheap hlast
  | case2 last r h out hnext e herr =>
      exact (L.reaches_next hheap hnext).imp fun _ _ _ => trivial
  | case3 last r h out hnext form hform e h₁ heval =>
      exact L.reaches_eval_next hheap hnext hform heval
  | case4 last r h out hnext form hform v h₁ heval ih =>
      obtain ⟨w', hw, hheap', hv⟩ := L.reaches_eval_next hheap hnext hform heval
      exact (ih hheap' hv).from_later hw

/-- **Loading a text keeps the law**, also if it fails on the way. -/
theorem reaches_loadText (depth : Nat) (held : Anchors) (source : List Char)
    (hheap : L.heap w h) :
    L.Reaches w (lisp.loadText depth held source h).2 fun w' =>
      L.result w' (lisp.loadText depth held source h).1 :=
  L.reaches_loadFrom depth held (Reader.ofSource source) hheap (L.nil w)

end Law

end SmallLisp
