import SmallLisp.Proofs.Session.Turns

set_option autoImplicit false

/-! # Scopes and environments of a session

Whatever a session is asked to do, its scopes are closed in the state in which they were opened,
and its environments form a tree.

For the first, a `Ledger` is kept beside the session: which frames there were when each open scope
was opened, and how many were pushed in it since. The session itself only keeps depths, but they
say the same as the ledger (`Ledger.Fits`). For the second, all environments of a session follow
one descent of frames (`Session.Follows`).
-/

namespace SmallLisp

open Session

/-! ## A ledger of scopes -/

/-- An open scope: the frames that it was opened on, and how many have been pushed in it. -/
structure Opened where
  frames : Environment
  pushes : Nat

/-- **A ledger of scopes**: the current one and those around it, innermost first. -/
structure Ledger where
  scope : Opened
  outer : List Opened

namespace Ledger

/-- The outermost scope, opened on no frames. -/
def start : Ledger := ⟨⟨[], 0⟩, []⟩

/-- Enters what a step did in the working environment `env`. Closing the outermost scope begins
it anew, and a push that was refused does not count. -/
def enter (ledger : Ledger) (env : Environment) : Step → Answer → Ledger
  | .openScope, _ => ⟨⟨env, 0⟩, ledger.scope :: ledger.outer⟩
  | .closeScope, _ =>
      match ledger.outer with
      | [] => start
      | scope :: outer => ⟨scope, outer⟩
  | .push _, .frame _ => ⟨⟨ledger.scope.frames, ledger.scope.pushes + 1⟩, ledger.outer⟩
  | _, _ => ledger

theorem enter_of_not_moves (ledger : Ledger) (env : Environment) {step : Step} {answer : Answer}
    (hmoves : step.moves answer = false) : ledger.enter env step answer = ledger := by
  unfold enter
  -- the first three rows are those in which something moves
  split
  · cases hmoves
  · cases hmoves
  · cases hmoves
  · rfl

/-- **The depths that a session keeps fit a ledger**: each scope lies on the frames that it was
opened on, and what is above them has been pushed in it. -/
inductive Fits : Environment → List Nat → Ledger → Prop
  | outermost (pushed : Environment) : Fits pushed [] ⟨⟨[], pushed.length⟩, []⟩
  | nested {env : Environment} {scopes : List Nat} {ledger : Ledger}
      (hfits : Fits env scopes ledger) (pushed : Environment) :
      Fits (pushed ++ env) (env.length :: scopes)
        ⟨⟨env, pushed.length⟩, ledger.scope :: ledger.outer⟩

/-- A scope is closed on the frames that it was opened on. -/
theorem Fits.truncate_eq {env : Environment} {scopes : List Nat} {ledger : Ledger}
    (hfits : Fits env scopes ledger) :
    env.truncate (scopes.head?.getD 0) = ledger.scope.frames := by
  cases hfits with
  | outermost => simpa using Environment.truncate_append env []
  | nested hfits pushed => exact Environment.truncate_append pushed _

/-- The depth of an environment is what a scope was opened on and what was pushed in it. -/
theorem Fits.length_eq {env : Environment} {scopes : List Nat} {ledger : Ledger}
    (hfits : Fits env scopes ledger) :
    env.length = ledger.scope.frames.length + ledger.scope.pushes ∧
      scopes.head?.getD 0 = ledger.scope.frames.length := by
  cases hfits with
  | outermost => exact ⟨(Nat.zero_add _).symm, rfl⟩
  | nested hfits pushed => exact ⟨by rw [List.length_append, Nat.add_comm], rfl⟩

theorem Fits.close {env : Environment} {scopes : List Nat} {ledger : Ledger}
    (hfits : Fits env scopes ledger) (answer : Answer) :
    Fits (env.truncate (scopes.head?.getD 0)) scopes.tail
      (ledger.enter env .closeScope answer) := by
  rw [hfits.truncate_eq]
  cases hfits with
  | outermost => exact .outermost []
  | nested hfits pushed => exact hfits

theorem Fits.push {env : Environment} {scopes : List Nat} {ledger : Ledger}
    (hfits : Fits env scopes ledger) (id : FrameId) :
    Fits (id :: env) scopes
      ⟨⟨ledger.scope.frames, ledger.scope.pushes + 1⟩, ledger.outer⟩ := by
  cases hfits with
  | outermost => exact .outermost (id :: env)
  | nested hfits pushed => exact .nested hfits (id :: pushed)

/-- **A turn of a session and its entry in the ledger go together.** -/
theorem Fits.turn {s s' : Session} {ledger : Ledger} {step : Step} {answer : Answer}
    (hfits : Fits s.env s.scopes ledger) (hturn : Turn s step answer s') :
    Fits s'.env s'.scopes (ledger.enter s.env step answer) := by
  cases hturn with
  | opened => exact .nested hfits []
  | closed => exact hfits.close _
  | @pushed bindings s₁ vs hacts frame hframe =>
      have hfits₁ : Fits s₁.env s₁.scopes ledger := by
        rwa [hacts.steady.env, hacts.steady.scopes]
      exact hfits₁.push _
  | captured name => exact hfits
  | acts hanswers hmoves =>
      obtain ⟨_, hacts, _⟩ := hanswers
      rw [enter_of_not_moves ledger s.env hmoves, hacts.steady.env, hacts.steady.scopes]
      exact hfits

end Ledger

namespace Session

/-- **A session with its ledger.** -/
inductive Kept : Session → Ledger → Prop
  | start : Kept start .start
  | step {s : Session} {ledger : Ledger} (hs : Kept s ledger) (limit : Nat) (request : Request) :
      Kept (s.after limit request)
        (ledger.enter s.env request.step (s.take limit request.step).1)

theorem Kept.fits {s : Session} {ledger : Ledger} (hs : Kept s ledger) :
    Ledger.Fits s.env s.scopes ledger := by
  induction hs with
  | start => exact .outermost []
  | @step s ledger _ limit request ih =>
      obtain ⟨s', slots, hturn, hafter, _⟩ := turn_after limit s request
      have hfits := ih.turn hturn
      rw [hafter]
      exact hfits

theorem Kept.toplevel {s : Session} {ledger : Ledger} (hs : Kept s ledger) :
    s.lisp.toplevel = [] := by
  induction hs with
  | start => rfl
  | @step s ledger _ limit request ih =>
      rw [lisp_after, ih]

end Session

open Eval in
/-- **Frames are released on every exit.** Every evaluation, call and native operator leaves the
environment as it was, in any state and however it ends. So whatever a session does, closing its
current scope brings back the frames that the scope was opened on, the frames pushed in it are
those above them, and evaluation at top level leaves no frames. -/
theorem frames_released_on_every_exit :
    (∀ (lisp : Interpreter) (depth : Nat),
      (∀ form, (evaluate lisp depth form).Releases) ∧
      (∀ operator argList, (apply lisp (evaluate lisp depth) operator argList).Releases) ∧
      (∀ operator args, (applyValues lisp (evaluate lisp depth) operator args).Releases) ∧
      (∀ (form : SpecialForm) args, (form.run lisp (evaluate lisp depth) args).Releases) ∧
      ∀ op args, (callBuiltin lisp (evaluate lisp depth) op args).Releases) ∧
    ∀ (s : Session) (ledger : Ledger), s.Kept ledger →
      s.closeScope.env = ledger.scope.frames ∧
      s.base ≤ s.depth ∧
      s.pushed = ledger.scope.pushes ∧
      s.depth = ledger.scope.frames.length + s.pushed ∧
      s.lisp.toplevel.length = 0 ∧
      ∀ depth form a h,
        (left (evaluate s.lisp depth form a ⟨h, s.lisp.toplevel⟩)).env.length = 0 := by
  refine ⟨fun lisp depth => ⟨?_, ?_, ?_, ?_, ?_⟩, fun s ledger hs => ?_⟩
  · exact fun form => (keepsShape_evaluate lisp depth form).releases
  · exact fun operator argList => (keepsShape_apply lisp depth operator argList).releases
  · exact fun operator args => (keepsShape_applyValues lisp depth operator args).releases
  · exact fun form args => (keepsShape_specialForm lisp depth form args).releases
  · exact fun op args => (keepsShape_callBuiltin lisp depth op args).releases
  · obtain ⟨hdepth, hbase⟩ := hs.fits.length_eq
    have hpushed : s.pushed = ledger.scope.pushes := by
      show s.env.length - s.scopes.head?.getD 0 = ledger.scope.pushes
      omega
    have htop : s.lisp.toplevel.length = 0 := by rw [hs.toplevel, List.length_nil]
    refine ⟨hs.fits.truncate_eq, ?_, hpushed, ?_, htop, fun depth form a h => ?_⟩
    · show s.scopes.head?.getD 0 ≤ s.env.length
      omega
    · rw [hpushed]
      exact hdepth
    · rw [(keepsShape_evaluate s.lisp depth form).releases a]
      exact htop

/-- A scope opened after a push is closed on the pushed frame, although an evaluation has failed
inside a scope of its own. -/
theorem frames_released_after_failure :
    (((start.after 1 ⟨.push [], none⟩).after 1 ⟨.openScope, none⟩).after 9
      ⟨.evalHere "(let ((x 1)) (car x))", none⟩).closeScope.env =
        (start.after 1 ⟨.push [], none⟩).env :=
  (frames_released_on_every_exit.2 _ _ (.step (.step (.step .start 1 _) 1 _) 9 _)).1

/-! ## The tree of environments -/

namespace Session

/-- **The environments of a session**: the working environment, those that have been captured,
those of closures, and the top level of the interpreter. -/
inductive HasEnvironment (s : Session) : Environment → Prop
  | working : HasEnvironment s s.env
  | captured {name : String} {env : Environment} (hmem : (name, env) ∈ s.captured) :
      HasEnvironment s env
  | closure {id : ObjectId} {c : Closure} (hfound : s.heap.closures[id]? = some c) :
      HasEnvironment s c.env
  | toplevel : HasEnvironment s s.lisp.toplevel

/-- **A session whose environments follow the descent of the frames in its heap.** -/
structure Follows (s : Session) (l : Lineage) : Prop where
  toplevel : s.lisp.toplevel = []
  heap : l.Describes s.heap
  env : l.IsPath s.env
  captured : ∀ c ∈ s.captured, l.IsPath c.2

section

variable {s s' : Session} {l : Lineage}

theorem Follows.isPath (hs : s.Follows l) {env : Environment} (henv : s.HasEnvironment env) :
    l.IsPath env := by
  cases henv with
  | working => exact hs.env
  | captured hmem => exact hs.captured _ hmem
  | closure hfound => exact hs.heap.closures hfound
  | toplevel =>
      rw [hs.toplevel]
      exact .nil

/-- Code is entered in environments that follow the descent. -/
theorem Follows.isPath_of_enters (hs : s.Follows l) {env : Environment} (henv : s.Enters env) :
    l.IsPath env := by
  cases henv with
  | working => exact hs.env
  | toplevel => exact hs.isPath .toplevel
  | captured name =>
      unfold environment
      cases hfound : s.captured.lookup name with
      | none => exact .nil
      | some env =>
          obtain ⟨before, after, hsplit, _⟩ := List.lookup_eq_some_iff.1 hfound
          exact hs.captured (name, env) (hsplit ▸ List.mem_append_right _ List.mem_cons_self)

/-- A session that has kept its environments follows what describes its heap. -/
theorem Follows.of_steady (hs : s.Follows l) (hsteady : Steady s s') {l' : Lineage} (hl : l ≤ l')
    (hheap : l'.Describes s'.heap) : s'.Follows l' where
  toplevel := hsteady.lisp ▸ hs.toplevel
  heap := hheap
  env := hsteady.env ▸ hs.env.mono hl
  captured := hsteady.captured ▸ fun c hc => (hs.captured c hc).mono hl

open Heap in
/-- **Acts follow the descent of frames.** Most of them make no frames and no closures. -/
theorem Act.follows {vs new : List Value} (hact : Act s vs s' new) (hs : s.Follows l) :
    ∃ l', l ≤ l' ∧ s'.Follows l' := by
  have hstill : Still s.heap s'.heap → ∃ l', l ≤ l' ∧ s'.Follows l' := fun hstill =>
    ⟨l, le_refl l, hs.of_steady hact.steady (le_refl l) (hs.heap.of_still hstill)⟩
  have hreach : ∀ {post : Lineage → Prop},
      (Lineage.law s.lisp hs.toplevel).toLaw.Reaches l s'.heap post →
        ∃ l', l ≤ l' ∧ s'.Follows l' := by
    rintro post ⟨l', hl, hheap, _⟩
    exact ⟨l', hl, hs.of_steady hact.steady hl hheap⟩
  cases hact with
  | pick => exact hstill (.refl _)
  | read source => exact hreach (Law.reaches_readText _ source.toList hs.heap)
  | intern _ name => exact hstill (still_intern _ _ name)
  | number n => exact hstill (still_alloc _ (.number · n))
  | string text => exact hstill (still_alloc _ (.string · text))
  | list => exact hstill (still_listWithTail _ _ _)
  | package name => exact hstill (still_makePackage _ name)
  | interpreter => exact hstill (Interpreter.still_fresh _)
  | dismiss => exact hstill (.refl _)
  | assign _ hassign => exact hstill (still_assign? hassign)
  | cell _ _ cell => exact hstill (by cases cell <;> exact still_setCells _ _ _)
  | load limit held source => exact hreach (Law.reaches_loadText _ limit held source hs.heap)
  | run hrun held henv =>
      have hkeeps := hrun.keepsShape (Lineage.law s.lisp hs.toplevel) l
      exact hreach (Law.reaches_runIn _ hkeeps held hs.heap (hs.isPath_of_enters henv)).2

theorem Acts.follows {vs vs' : List Value} (hacts : Acts s vs s' vs') (hs : s.Follows l) :
    ∃ l', l ≤ l' ∧ s'.Follows l' := by
  induction hacts with
  | none => exact ⟨l, le_refl l, hs⟩
  | more _ hact ih =>
      obtain ⟨l₁, hl₁, hs₁⟩ := ih
      obtain ⟨l₂, hl₂, hs₂⟩ := hact.follows hs₁
      exact ⟨l₂, le_trans hl₁ hl₂, hs₂⟩

/-- **What a turn keeps**: the environments of a session follow the descent of its frames. -/
theorem Follows.turn {step : Step} {answer : Answer} (hs : s.Follows l)
    (hturn : Turn s step answer s') : ∃ l', s'.Follows l' := by
  cases hturn with
  | opened => exact ⟨l, hs.toplevel, hs.heap, hs.env, hs.captured⟩
  | closed => exact ⟨l, hs.toplevel, hs.heap, hs.env.drop _, hs.captured⟩
  | @pushed bindings s₁ vs hacts frame =>
      obtain ⟨l₁, hl₁, hs₁⟩ := hacts.follows hs
      obtain ⟨l₂, hl₂, hheap, henv⟩ := Lineage.describes_makeFrame hs₁.heap hs₁.env frame
      exact ⟨l₂, hs₁.toplevel, hheap, henv, fun c hc => (hs₁.captured c hc).mono hl₂⟩
  | captured name =>
      refine ⟨l, hs.toplevel, hs.heap, hs.env, List.forall_mem_cons.2 ⟨hs.env, fun c hc => ?_⟩⟩
      exact hs.captured c (List.mem_of_mem_filter hc)
  | acts hanswers =>
      obtain ⟨_, hacts, _⟩ := hanswers
      obtain ⟨l', _, hs'⟩ := hacts.follows hs
      exact ⟨l', hs'⟩

end

theorem follows_start : start.Follows .empty where
  toplevel := rfl
  heap :=
    have hstill := Interpreter.still_fresh Heap.empty
    Lineage.describes_empty hstill.size hstill.closures
  env := .nil
  captured := nofun

theorem Reached.follows {s : Session} (hs : Reached s) : ∃ l, s.Follows l := by
  induction hs with
  | start => exact ⟨_, follows_start⟩
  | @step s _ limit request ih =>
      obtain ⟨l, hl⟩ := ih
      obtain ⟨s', slots, hturn, hafter, _⟩ := turn_after limit s request
      obtain ⟨l₁, hl₁⟩ := hl.turn hturn
      rw [hafter]
      exact ⟨l₁, hl₁.toplevel, hl₁.heap, hl₁.env, hl₁.captured⟩

end Session

/-- **Environments form a tree.** In whatever session, no environment has a frame twice, and a
frame that occurs in two environments lies on the same frames, and so at the same depth, in
both. -/
theorem environments_form_tree {s : Session} (hs : s.Reached) :
    (∀ env, s.HasEnvironment env → env.Nodup) ∧
    ∀ above above' below below' f, s.HasEnvironment (above ++ f :: below) →
      s.HasEnvironment (above' ++ f :: below') → below = below' := by
  obtain ⟨l, hl⟩ := hs.follows
  refine ⟨fun env henv => (hl.isPath henv).nodup, ?_⟩
  intro above above' below below' f henv henv'
  exact (hl.isPath henv).below_eq (hl.isPath henv')

/-- A frame that has been captured is below the one that is pushed next, and is another. -/
theorem environments_form_tree_above_capture :
    ∃ (s : Session) (f g : FrameId),
      s.Reached ∧ s.env = [g, f] ∧ s.HasEnvironment [f] ∧ g ≠ f := by
  have hs : Reached (((start.after 1 ⟨.push [], none⟩).after 1 ⟨.capture "outer", none⟩).after 1
      ⟨.push [], none⟩) := .step (.step (.step .start 1 _) 1 _) 1 _
  refine ⟨_, _, _, hs, rfl, .captured List.mem_cons_self, ?_⟩
  have hnodup := (environments_form_tree hs).1 _ .working
  exact List.ne_of_not_mem_cons (List.nodup_cons.1 hnodup).1

end SmallLisp
