import SmallLisp.Proofs.Program.Runs
import SmallLisp.Proofs.Session.Objects

set_option autoImplicit false

/-! # The states that a session leads to

Whatever a session is asked to do, what happens to its heap are elementary changes, new packages
and new interpreters. So the state of its interpreter is a reachable one at any time
(`Reached.reachable`), and all that is known about reachable states can be said of sessions.
-/

namespace SmallLisp.Session

open Heap

variable {s s' : Session}

theorem changes_runIn {lisp : Interpreter} {act : Eval Value} (hact : Eval.Built lisp act)
    (held : Anchors) (env : Environment) (h : Heap) :
    Changes h (Interpreter.runIn held env h act).2.1 := by
  have hc := hact.changes held ⟨h, env⟩
  unfold Interpreter.runIn
  split <;> rename_i hrun <;> rw [hrun] at hc <;> exact hc

/-- **After an act every interpreter is in a reachable state** that was in one before. -/
theorem Act.reachable {vs new : List Value} (hact : Act s vs s' new) {lisp : Interpreter}
    (hr : lisp.Reachable s.heap) : lisp.Reachable s'.heap := by
  cases hact with
  | pick => exact hr
  | read source => exact hr.of_changes (changes_readText s.lisp source.toList s.heap)
  | intern _ name => exact hr.change (.intern _ _ name)
  | number n => exact hr.change (.alloc _ (.number · n))
  | string text => exact hr.change (.alloc _ (.string · text))
  | list => exact hr.of_changes (changes_listWithTail _ _ _)
  | package name => exact hr.package name
  | interpreter => exact hr.interpreter
  | dismiss => exact hr
  | assign _ hassign => exact hr.change (.assign hassign)
  | cell _ _ cell =>
      refine hr.change ?_
      cases cell <;> exact .cells _ _ _
  | load limit held source => exact hr.of_changes (changes_loadFrom s.lisp limit held _ _ _)
  | run hrun held => exact hr.of_changes (changes_runIn hrun.built held _ _)

theorem Acts.reachable {vs vs' : List Value} (hacts : Acts s vs s' vs') {lisp : Interpreter}
    (hr : lisp.Reachable s.heap) : lisp.Reachable s'.heap := by
  induction hacts with
  | none => exact hr
  | more _ hact ih => exact hact.reachable ih

/-- **After a turn too.** -/
theorem Turn.reachable {step : Step} {answer : Answer} (hturn : Turn s step answer s')
    {lisp : Interpreter} (hr : lisp.Reachable s.heap) : lisp.Reachable s'.heap := by
  cases hturn with
  | opened => exact hr
  | closed => exact hr
  | pushed hacts => exact (hacts.reachable hr).change (.frame _ _)
  | captured name => exact hr
  | acts hanswers =>
      obtain ⟨_, hacts, _⟩ := hanswers
      exact hacts.reachable hr

/-- **The interpreter of a session is in a reachable state.** -/
theorem Reached.reachable (hs : s.Reached) : s.lisp.Reachable s.heap := by
  induction hs with
  | start => exact .fresh Heap.empty rfl
  | @step s _ limit request ih =>
      obtain ⟨s', slots, hturn, hafter, _⟩ := turn_after limit s request
      rw [lisp_after, hafter]
      exact hturn.reachable ih

/-- Nothing has cells that has not been made. -/
theorem Reached.cells_lt (hs : s.Reached) : ∀ id ∈ s.heap.cells, id < s.heap.next := by
  obtain ⟨w, hfits⟩ := hs.fits
  exact fun _ hid => hfits.heap.cells_lt hid

end SmallLisp.Session
