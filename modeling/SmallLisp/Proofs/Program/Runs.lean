import SmallLisp.Proofs.Eval.Built
import SmallLisp.Proofs.Form.Acceptance
import SmallLisp.Proofs.Form.Incomplete

set_option autoImplicit false

/-! # Runs

A run is a sequence of forms that are read one after the other and evaluated, each before the
next one is read. `Runs` keeps the forms and their values, so that two ways of going through a
text can be compared by what they do and not only by where they end.

A run that meets no error has three properties that make it divisible. It does not depend on what
is held, as long as there is one package (`Runs.with_hold`); it depends on the contents of the
items only (`Runs.alike`); and where nothing is open it can be cut in two (`Runs.split`).
-/

namespace SmallLisp

open Heap Reader

/-- A form that was evaluated, and its value. -/
structure Evaluation where
  form : Value
  value : Value

/-- **A run**: all forms that a reader has are read and evaluated without error, one after the
other. What is held during an evaluation may depend on the value before it. -/
inductive Runs (lisp : Interpreter) (depth : Nat) (hold : Value → Anchors) :
    Value → Reader → Heap → List Evaluation → Heap → Prop
  | done {last : Value} {r : Reader} {h : Heap} (hnext : r.next? lisp h = none) :
      Runs lisp depth hold last r h [] h
  | step {last : Value} {r : Reader} {h h' h'' : Heap} {out : Reading} {form v : Value}
      {steps : List Evaluation} (hnext : r.next? lisp h = some out) (hform : out.result = .ok form)
      (heval : lisp.eval depth (hold last) form out.heap = (.ok v, h'))
      (hrest : Runs lisp depth hold v out.reader h' steps h'') :
      Runs lisp depth hold last r h (⟨form, v⟩ :: steps) h''

section

variable {lisp : Interpreter} {depth : Nat} {hold : Value → Anchors} {last : Value}
  {r r' : Reader} {h h' : Heap} {steps : List Evaluation}

/-- Reading a form and evaluating it makes elementary changes. -/
theorem changes_next {a : Anchors} {form : Value} {out : Reading} {result : Except Failure Value}
    (hnext : r.next? lisp h = some out)
    (heval : lisp.eval depth a form out.heap = (result, h')) : Changes h h' := by
  obtain ⟨_, rfl⟩ := next?_eq_some_iff.1 hnext
  have hc := lisp.changes_eval depth a form (r.read lisp h).heap
  rw [heval] at hc
  exact (r.changes_read lisp h).trans hc

/-! ## Loading -/

/-- **Loading succeeds exactly if there is a run**, and gives its last value. -/
theorem loadFrom_eq_ok_iff {held : Anchors} {v : Value} :
    lisp.loadFrom depth held last r h = (.ok v, h') ↔
      ∃ steps, Runs lisp depth (fun last => held.hold [last]) last r h steps h' ∧
        (steps.map Evaluation.value).getLastD last = v := by
  constructor
  · intro hload
    fun_induction Interpreter.loadFrom lisp depth held last r h with
    | case1 last r h hnext =>
        cases hload
        exact ⟨[], .done hnext, rfl⟩
    | case2 last r h out hnext e herr => cases hload
    | case3 last r h out hnext form hform e h₁ heval => cases hload
    | case4 last r h out hnext form hform w h₁ heval ih =>
        obtain ⟨steps, hrun, hlast⟩ := ih hload
        refine ⟨⟨form, w⟩ :: steps, .step hnext hform heval hrun, ?_⟩
        rw [List.map_cons, List.getLastD_cons, hlast]
  · rintro ⟨steps, hrun, rfl⟩
    induction hrun with
    | done hnext =>
        rw [Interpreter.loadFrom]
        split
        · rfl
        · rename_i hsome
          rw [hnext] at hsome
          cases hsome
    | @step last r h h₁ h₂ out form w steps hnext hform heval _ ih =>
        rw [Interpreter.loadFrom]
        split
        · rename_i hnone
          rw [hnext] at hnone
          cases hnone
        · rename_i out' hsome
          obtain rfl : out = out' := Option.some.inj (hnext.symm.trans hsome)
          simp only [hform, heval, ih, List.map_cons, List.getLastD_cons]

/-- The first form of a reader is read and evaluated before the rest is looked at. -/
theorem loadFrom_eq_of_read {held : Anchors} {form : Value} (hne : r.pending ≠ [])
    (hform : (r.read lisp h).result = .ok form) :
    lisp.loadFrom depth held last r h =
      match lisp.eval depth (held.hold [last]) form (r.read lisp h).heap with
      | (.error e, h₁) => (.error e, h₁)
      | (.ok v, h₁) => lisp.loadFrom depth held v (r.read lisp h).reader h₁ := by
  have hnext : r.next? lisp h = some (r.read lisp h) := next?_eq_some_iff.2 ⟨hne, rfl⟩
  rw [Interpreter.loadFrom]
  split
  · rename_i hnone
    rw [hnext] at hnone
    cases hnone
  · rename_i out hsome
    obtain rfl : r.read lisp h = out := Option.some.inj (hnext.symm.trans hsome)
    rcases heval : lisp.eval depth (held.hold [last]) form (r.read lisp h).heap with ⟨_ | v, h₁⟩ <;>
      simp only [hform, heval]

theorem loadFrom_of_read_error {held : Anchors} {e : ParseError} (hne : r.pending ≠ [])
    (herr : (r.read lisp h).result = .error e) :
    lisp.loadFrom depth held last r h = (.error (.parse e), (r.read lisp h).heap) := by
  have hnext : r.next? lisp h = some (r.read lisp h) := next?_eq_some_iff.2 ⟨hne, rfl⟩
  rw [Interpreter.loadFrom]
  split
  · rename_i hnone
    rw [hnext] at hnone
    cases hnone
  · rename_i out hsome
    obtain rfl : r.read lisp h = out := Option.some.inj (hnext.symm.trans hsome)
    rw [herr]

theorem loadFrom_of_pending_nil {held : Anchors} (hnil : r.pending = []) :
    lisp.loadFrom depth held last r h = (.ok last, h) :=
  loadFrom_eq_ok_iff.2 ⟨[], .done (next?_eq_none_iff.2 hnil), rfl⟩

/-- Whether it succeeds or not, loading makes elementary changes. -/
theorem changes_loadFrom (lisp : Interpreter) (depth : Nat) (held : Anchors) (last : Value)
    (r : Reader) (h : Heap) : Changes h (lisp.loadFrom depth held last r h).2 := by
  fun_induction Interpreter.loadFrom lisp depth held last r h with
  | case1 last r h hnext => exact .refl
  | case2 last r h out hnext e herr =>
      obtain ⟨_, rfl⟩ := next?_eq_some_iff.1 hnext
      exact r.changes_read lisp h
  | case3 last r h out hnext form hform e h₁ heval => exact changes_next hnext heval
  | case4 last r h out hnext form hform w h₁ heval ih => exact (changes_next hnext heval).trans ih

/-! ## What a run does not depend on -/

/-- What a run does to the heap are elementary changes. -/
theorem Runs.changes (hrun : Runs lisp depth hold last r h steps h') : Changes h h' := by
  induction hrun with
  | done hnext => exact .refl
  | step hnext hform heval _ ih => exact (changes_next hnext heval).trans ih

/-- What is held does not matter where the interpreter is alone. -/
theorem Runs.with_hold {hold' : Value → Anchors} (hrun : Runs lisp depth hold last r h steps h')
    (halone : lisp.Alone h) (last' : Value) : Runs lisp depth hold' last' r h steps h' := by
  induction hrun generalizing last' with
  | done hnext => exact .done hnext
  | @step last r h h₁ h₂ out form v steps hnext hform heval _ ih =>
      have halone₁ := halone.of_changes (changes_next hnext heval)
      obtain ⟨_, rfl⟩ := next?_eq_some_iff.1 hnext
      have hread := halone.of_changes (r.changes_read lisp h)
      rw [Interpreter.eval_indifferent hread depth (hold last) (hold' last') form] at heval
      exact .step hnext hform heval (ih halone₁ v)

theorem read_alike (lisp : Interpreter) {r r' : Reader}
    (hc : r.pending.map Located.content = r'.pending.map Located.content) (h : Heap) :
    (r.read lisp h).Alike (r'.read lisp h) :=
  run_alike lisp r.length r'.length hc (.form .nil) h

/-- A reading that succeeds is as good as one that is alike. -/
theorem Reading.Alike.result_ok {out out' : Reading} (ha : out.Alike out') {form : Value}
    (hform : out.result = .ok form) : out'.result = .ok form := by
  have hresult := ha.result
  rw [hform] at hresult
  cases hout : out'.result with
  | ok form' =>
      rw [hout] at hresult
      cases hresult
      rfl
  | error e =>
      rw [hout] at hresult
      cases hresult

/-- Only the contents of the items matter. -/
theorem Runs.alike (hrun : Runs lisp depth hold last r h steps h')
    (hc : r.pending.map Located.content = r'.pending.map Located.content) :
    Runs lisp depth hold last r' h steps h' := by
  induction hrun generalizing r' with
  | @done last r h hnext =>
      rw [next?_eq_none_iff] at hnext
      rw [hnext, eq_comm, List.map_nil, List.map_eq_nil_iff] at hc
      exact .done (next?_eq_none_iff.2 hc)
  | @step last r h h₁ h₂ out form v steps hnext hform heval _ ih =>
      obtain ⟨hne, rfl⟩ := next?_eq_some_iff.1 hnext
      have ha := read_alike lisp hc h
      have hne' : r'.pending ≠ [] := by
        intro hnil
        rw [hnil, List.map_nil, List.map_eq_nil_iff] at hc
        exact hne hc
      rw [ha.heap] at heval
      exact .step (next?_eq_some_iff.2 ⟨hne', rfl⟩) (ha.result_ok hform) heval (ih ha.pending)

/-! ## Cutting a run -/

/-- A run ends where nothing is open. -/
theorem Runs.remains (hrun : Runs lisp depth hold last r h steps h') :
    Pending.start.remains r.pending = false := by
  induction hrun with
  | done hnext =>
      rw [next?_eq_none_iff.1 hnext]
      rfl
  | @step last r h h₁ h₂ out form v steps hnext hform _ _ ih =>
      obtain ⟨_, rfl⟩ := next?_eq_some_iff.1 hnext
      rw [remains_of_read_ok hform]
      exact ih

/-- Unless a reading runs out of items, it is the same with more of them. -/
theorem Reader.RunsTo.append {length : Nat} {stage : Stage} {its : List Item} {out : Reading}
    (hrun : RunsTo lisp length stage h its out) (more : List Item) :
    (∃ tokens last h₁, its = tokens.map Located.item ∧ Feeds lisp stage tokens h last h₁) ∨
      run lisp length stage (its ++ more) h =
        ⟨out.result, ⟨out.reader.pending ++ more, out.reader.position, out.reader.length⟩,
          out.heap⟩ := by
  cases hrun with
  | done hf htake =>
      right
      rw [List.append_assoc, run_of_feeds hf, List.cons_append, run_item, htake]
      rfl
  | @ended tokens last h₁ hf => exact .inl ⟨tokens, last, h₁, rfl, hf⟩
  | failed hf htake =>
      right
      rw [List.append_assoc, run_of_feeds hf, List.cons_append, run_item, htake]
      rfl
  | lexical hf =>
      right
      rw [List.append_assoc, run_of_feeds hf, List.cons_append]
      rfl

/-- **A form is read in front of a cut** if there are items in front of it and nothing is open
at the cut. -/
theorem read_of_split {front back : Reader} {form : Value}
    (hc : r.pending.map Located.content =
      front.pending.map Located.content ++ back.pending.map Located.content)
    (hne : front.pending ≠ []) (hopen : Pending.start.remains front.pending = false)
    (hform : (r.read lisp h).result = .ok form) :
    (front.read lisp h).result = .ok form ∧ (front.read lisp h).heap = (r.read lisp h).heap ∧
      (r.read lisp h).reader.pending.map Located.content =
        (front.read lisp h).reader.pending.map Located.content ++
          back.pending.map Located.content := by
  have hrun := (runsTo_run lisp front.length (.form []) front.pending h).append back.pending
  rcases hrun with ⟨tokens, last, h₁, htokens, hf⟩ | hrun
  · -- all items in front of the cut are fed, so a form is open there
    have hlast := hf.ne_start (.inl fun hnil => hne (by rw [htokens, hnil, List.map_nil]))
    have hend := hf.remains []
    rw [List.append_nil, ← htokens, Stage.pending_nil, hopen,
      Stage.remains_pending hlast] at hend
    cases hend
  · -- otherwise the same form is read whether the items behind the cut are there or not
    rw [← List.map_append] at hc
    have ha := run_alike lisp r.length front.length hc (.form .nil) h
    rw [hrun] at ha
    refine ⟨ha.result_ok hform, ha.heap.symm, ?_⟩
    rw [← List.map_append]
    exact ha.pending

/-- **A run can be cut where nothing is open.** -/
theorem Runs.split {a : Anchors} {front back : Reader}
    (hrun : Runs lisp depth (fun _ => a) last r h steps h')
    (hc : r.pending.map Located.content =
      front.pending.map Located.content ++ back.pending.map Located.content)
    (hopen : Pending.start.remains front.pending = false) :
    ∃ early late h₁ last', steps = early ++ late ∧
      Runs lisp depth (fun _ => a) last front h early h₁ ∧
      Runs lisp depth (fun _ => a) last' back h₁ late h' := by
  induction hrun generalizing front with
  | @done last r h hnext =>
      rw [next?_eq_none_iff.1 hnext, List.map_nil, eq_comm, List.append_eq_nil_iff,
        List.map_eq_nil_iff, List.map_eq_nil_iff] at hc
      exact ⟨[], [], h, last, rfl, .done (next?_eq_none_iff.2 hc.1),
        .done (next?_eq_none_iff.2 hc.2)⟩
  | @step last r h h₁ h₂ out form v steps hnext hform heval hrest ih =>
      -- in front of the cut there is nothing left, or the next form stands there as a whole
      by_cases hfront : front.pending = []
      · rw [hfront, List.map_nil, List.nil_append] at hc
        exact ⟨[], _, h, last, rfl, .done (next?_eq_none_iff.2 hfront),
          (Runs.step hnext hform heval hrest).alike hc⟩
      · obtain ⟨_, rfl⟩ := next?_eq_some_iff.1 hnext
        obtain ⟨hform', hheap, hpending⟩ := read_of_split hc hfront hopen hform
        have hopen' : Pending.start.remains (front.read lisp h).reader.pending = false := by
          rw [← remains_of_read_ok hform', hopen]
        obtain ⟨early, late, h₃, last', rfl, hearly, hlate⟩ := ih hpending hopen'
        rw [← hheap] at heval
        exact ⟨⟨form, v⟩ :: early, late, h₃, last', rfl,
          .step (next?_eq_some_iff.2 ⟨hfront, rfl⟩) hform' heval hearly, hlate⟩

end

end SmallLisp
