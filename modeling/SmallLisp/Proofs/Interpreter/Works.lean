import SmallLisp.Proofs.Heap.Identity

set_option autoImplicit false

/-! # Interpreters at work

The states that Lisp code leads to. An interpreter that starts alone reads forms and evaluates
whatever objects are there, in any environment of frames that are there, and neither has to succeed
(`Interpreter.Works`). Besides the heap such a state has the objects that are at hand: forms that
have been read and values that have been computed, of which the heap need not know.

A law that holds of a fresh interpreter and knows what a heap mentions holds of all these states
(`Works.exists_world`). Texts that are evaluated or loaded lead from one of them to another.
-/

namespace SmallLisp

open Eval

/-! ## Objects that are there -/

/-- **The objects that are there**: those at hand, those that the heap mentions, and their parts. -/
inductive Heap.Has (h : Heap) (vs : List Value) : Value → Prop
  | given {v : Value} (hv : v ∈ vs) : Has h vs v
  | mentioned {v : Value} (hv : h.Mentions v) : Has h vs v
  | part {v p : Value} (hv : Has h vs v) (hp : p ∈ v.parts) : Has h vs p

/-- The frames of an environment are there. -/
def Heap.HasFrames (h : Heap) (env : Environment) : Prop := ∀ f ∈ env, f < h.frames.size

/-- The value that a computation ends in, if it does. -/
def Eval.valueOf : EStateM.Result Stop State Value → List Value
  | .ok v _ => [v]
  | .error _ _ => []

/-! ## States -/

/-- **The states that Lisp code leads to**, with the objects at hand. -/
inductive Interpreter.Works (lisp : Interpreter) : Heap → List Value → Prop
  | fresh (hmade : (fresh Heap.empty).1 = lisp) : Works lisp (fresh Heap.empty).2 []
  | read {h : Heap} {vs : List Value} (hw : Works lisp h vs) (r : Reader) :
      Works lisp (r.read lisp h).heap ((r.read lisp h).result.toOption.toList ++ vs)
  | evaluate {h : Heap} {vs : List Value} {form : Value} {env : Environment}
      (hw : Works lisp h vs) (hform : h.Has vs form) (henv : h.HasFrames env) (depth : Nat)
      (held : Anchors) :
      Works lisp (left (Eval.evaluate lisp depth form held ⟨h, env⟩)).heap
        (valueOf (Eval.evaluate lisp depth form held ⟨h, env⟩) ++ vs)

/-! ## Laws -/

/-- **A law about whole states**: what a heap mentions is known, parts of what is known are known,
and so are environments of frames that are there. -/
structure Law.Covers {lisp : Interpreter} (L : Law lisp) : Prop where
  mentioned : ∀ {w : L.World} {h : Heap} {v : Value}, L.heap w h → h.Mentions v → L.value w v
  part : ∀ {w : L.World} {v p : Value}, L.value w v → p ∈ v.parts → L.value w p
  env : ∀ {w : L.World} {h : Heap} {env : Environment}, L.heap w h → h.HasFrames env → L.env w env

namespace Law

variable {lisp : Interpreter} {L : Law lisp} {w : L.World} {h : Heap} {vs : List Value}

theorem Covers.value (hL : L.Covers) (hheap : L.heap w h) (hvs : L.values w vs) {v : Value}
    (hv : h.Has vs v) : L.value w v := by
  induction hv with
  | given hv => exact hvs _ hv
  | mentioned hv => exact hL.mentioned hheap hv
  | part _ hp ih => exact hL.part ih hp

/-- **Evaluating an object that is there keeps the law**, and its value is known. -/
theorem Covers.reaches_evaluate (hL : L.Covers) (hheap : L.heap w h) (hvs : L.values w vs)
    {form : Value} (hform : h.Has vs form) {env : Environment} (henv : h.HasFrames env)
    (depth : Nat) (held : Anchors) :
    L.Reaches w (left (evaluate lisp depth form held ⟨h, env⟩)).heap fun w' =>
      L.values w' (valueOf (evaluate lisp depth form held ⟨h, env⟩) ++ vs) := by
  have hend := L.keeps_evaluate depth (hL.value hheap hvs hform) held ⟨h, env⟩ hheap
    (hL.env hheap henv)
  revert hend
  cases evaluate lisp depth form held ⟨h, env⟩ with
  | ok v s =>
      exact fun hend => hend.2.imp fun _ hw hpost =>
        View.values_cons.2 ⟨hpost.2, View.values_mono hw hvs⟩
  | error e s => exact fun hend => hend.2.imp fun _ hw _ => View.values_mono hw hvs

end Law

namespace Interpreter

variable {lisp : Interpreter} {h : Heap} {vs : List Value}

/-- **A law that a fresh interpreter obeys is obeyed at work.** -/
theorem Works.exists_world (hw : lisp.Works h vs) {L : Law lisp} (hL : L.Covers)
    (hfresh : ∃ w, L.heap w (Interpreter.fresh Heap.empty).2) :
    ∃ w, L.heap w h ∧ L.values w vs := by
  induction hw with
  | fresh _ =>
      obtain ⟨w, hheap⟩ := hfresh
      exact ⟨w, hheap, View.values_nil⟩
  | read _ r ih =>
      obtain ⟨w, hheap, hvs⟩ := ih
      obtain ⟨w', hw', hheap', hresult⟩ := L.reaches_read r hheap
      refine ⟨w', hheap', View.values_append.2 ⟨fun v hv => ?_, View.values_mono hw' hvs⟩⟩
      cases hread : (r.read lisp _).result with
      | error e =>
          rw [hread] at hv
          cases hv
      | ok form =>
          rw [hread] at hv hresult
          exact List.mem_singleton.1 hv ▸ hresult
  | evaluate _ hform henv depth held ih =>
      obtain ⟨w, hheap, hvs⟩ := ih
      obtain ⟨w', _, hheap', hvs'⟩ := hL.reaches_evaluate hheap hvs hform henv depth held
      exact ⟨w', hheap', hvs'⟩

theorem Works.made (hw : lisp.Works h vs) : (Interpreter.fresh Heap.empty).1 = lisp := by
  induction hw with
  | fresh hmade => exact hmade
  | read _ _ ih => exact ih
  | evaluate _ _ _ _ _ ih => exact ih

/-- Whatever is done is done by changes of the heap. -/
theorem Works.solitary (hw : lisp.Works h vs) : lisp.Solitary h := by
  induction hw with
  | fresh hmade => exact ⟨hmade, .refl⟩
  | read _ r ih => exact ih.of_changes (r.changes_read lisp _)
  | evaluate _ _ _ depth held ih =>
      exact ih.of_changes ((built_evaluate depth _).changes held ⟨_, _⟩)

/-! ## Programs -/

/-- An object that is there is evaluated at top level. -/
theorem Works.eval (hw : lisp.Works h vs) {form : Value} (hform : h.Has vs form) (depth : Nat)
    (held : Anchors) :
    lisp.Works (lisp.eval depth held form h).2
      ((lisp.eval depth held form h).1.toOption.toList ++ vs) := by
  have htop : lisp.toplevel = [] := by
    rw [← hw.made]
    rfl
  have henv : h.HasFrames lisp.toplevel := by
    rw [htop]
    exact fun _ hf => absurd hf List.not_mem_nil
  have hwork := hw.evaluate hform henv depth (held.hold [form])
  simp only [Interpreter.eval, runIn]
  split <;> rename_i hrun <;> rw [hrun] at hwork <;> exact hwork

/-- A form is read and evaluated at top level. -/
theorem Works.eval_read (hw : lisp.Works h vs) {r : Reader} {form : Value}
    (hform : (r.read lisp h).result = .ok form) (depth : Nat) (held : Anchors) :
    ∃ vs', lisp.Works (lisp.eval depth held form (r.read lisp h).heap).2 vs' := by
  have hread := hw.read r
  rw [hform] at hread
  exact ⟨_, hread.eval (.given (List.mem_append_left _ List.mem_cons_self)) depth held⟩

/-- **Evaluating a text is work.** -/
theorem Works.evalText (hw : lisp.Works h vs) (depth : Nat) (held : Anchors)
    (source : List Char) : ∃ vs', lisp.Works (lisp.evalText depth held source h).2 vs' := by
  have hread := hw.read (Reader.ofSource source)
  simp only [Interpreter.evalText, readText]
  cases hform : ((Reader.ofSource source).read lisp h).result with
  | error e => exact ⟨_, hread⟩
  | ok form =>
      cases ((Reader.ofSource source).read lisp h).reader.pending with
      | nil => exact hw.eval_read hform depth held
      | cons item rest => rcases item with ⟨span, _ | _⟩ <;> exact ⟨_, hread⟩

theorem Works.loadFrom (hw : lisp.Works h vs) (depth : Nat) (held : Anchors) (last : Value)
    (r : Reader) : ∃ vs', lisp.Works (lisp.loadFrom depth held last r h).2 vs' := by
  fun_induction Interpreter.loadFrom lisp depth held last r h generalizing vs with
  | case1 last r h hnext => exact ⟨vs, hw⟩
  | case2 last r h out hnext e herr =>
      obtain ⟨_, rfl⟩ := Reader.next?_eq_some_iff.1 hnext
      exact ⟨_, hw.read r⟩
  | case3 last r h out hnext form hform e h₁ heval =>
      obtain ⟨_, rfl⟩ := Reader.next?_eq_some_iff.1 hnext
      obtain ⟨vs', hw'⟩ := hw.eval_read hform depth (held.hold [last])
      rw [heval] at hw'
      exact ⟨vs', hw'⟩
  | case4 last r h out hnext form hform v h₁ heval ih =>
      obtain ⟨_, rfl⟩ := Reader.next?_eq_some_iff.1 hnext
      obtain ⟨vs', hw'⟩ := hw.eval_read hform depth (held.hold [last])
      rw [heval] at hw'
      exact ih hw'

/-- **Loading a text is work.** -/
theorem Works.loadText (hw : lisp.Works h vs) (depth : Nat) (held : Anchors)
    (source : List Char) : ∃ vs', lisp.Works (lisp.loadText depth held source h).2 vs' :=
  hw.loadFrom depth held lisp.nilValue (Reader.ofSource source)

end Interpreter

end SmallLisp
