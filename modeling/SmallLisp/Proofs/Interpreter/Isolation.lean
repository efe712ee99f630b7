import SmallLisp.Proofs.Heap.Moving
import SmallLisp.Proofs.Program.Renamed

set_option autoImplicit false

/-! # Interpreters that share a process

Interpreters of one process take their objects from one heap and number them in one sequence. As no
object gets from one interpreter to another by itself, none of them notices the others: whatever is
evaluated or loaded, and in whichever order, each call gets the reply that it would get if the
interpreter were alone in a process in which nothing has happened yet.

The proof follows each interpreter next to one that is *alone* (`Process.Lodged`). The heap of the
process hosts the heap of the lone interpreter under a renaming. While an interpreter runs its
renaming stays the same, and that of every other one is changed afterwards, for the numbers to come.
-/

namespace SmallLisp

/-! ## Replies -/

/-- The kinds of errors of evaluation. -/
inductive EvalError.Kind
  | unboundVariable
  | undefinedFunction
  | wrongArgumentCount
  | unsupportedArgument
  | notCallable
  | notEvaluable
  | malformed
  | arithmetic
deriving DecidableEq

/-- The kind of an error of evaluation. -/
def EvalError.kind : EvalError → EvalError.Kind
  | .unboundVariable _ => .unboundVariable
  | .undefinedFunction _ => .undefinedFunction
  | .wrongArgumentCount _ _ => .wrongArgumentCount
  | .unsupportedArgument _ _ => .unsupportedArgument
  | .notCallable _ => .notCallable
  | .notEvaluable _ => .notEvaluable
  | .malformed _ => .malformed
  | .arithmetic _ _ => .arithmetic

/-- **What is seen of a result** from outside: type and text of a value, kind and wording of an
error. Only errors of evaluation can hold objects, so the other failures are seen as they are. -/
inductive Reply
  | value (typeName text : String)
  | parse (e : ParseError)
  | eval (kind : EvalError.Kind) (message : String)
  | file (path : String) (e : FileError)
  | exhausted
deriving DecidableEq

/-- The reply of a call that ends with a result. -/
def Reply.of : Except Failure Value → Reply
  | .ok v => .value v.typeName v.text
  | .error (.parse e) => .parse e
  | .error (.eval e) => .eval e.kind e.message
  | .error (.file path e) => .file path e
  | .error .exhausted => .exhausted

theorem Renaming.kind_error (r : Renaming) (e : EvalError) : (r.error e).kind = e.kind := by
  cases e <;> rfl

/-- The names of objects do not show in a reply. -/
theorem Renaming.reply_result (r : Renaming) (result : Except Failure Value) :
    Reply.of (r.result result) = Reply.of result := by
  cases result with
  | ok v => exact congrArg₂ Reply.value (r.typeName_value v) (r.text_value v)
  | error e =>
      cases e with
      | eval e => exact congrArg₂ Reply.eval (r.kind_error e) (r.message_error e)
      | _ => rfl

/-! ## Calls -/

/-- **A call** of an interpreter: to evaluate the one form of a text, or to load all its forms. -/
inductive Call
  | evalText (depth : Nat) (source : List Char)
  | loadText (depth : Nat) (source : List Char)
deriving DecidableEq

/-- The outcome of a call. -/
def Call.run (lisp : Interpreter) (held : Anchors) (h : Heap) : Call → Outcome
  | .evalText depth source => lisp.evalText depth held source h
  | .loadText depth source => lisp.loadText depth held source h

theorem Renaming.Hosts.call {r : Renaming} {lisp : Interpreter} {base host guest : Heap}
    (hh : r.Hosts lisp base host guest) (held held' : Anchors) (call : Call) :
    r.Makes lisp base r.result (call.run (r.interpreter lisp) held host)
      (call.run lisp held' guest) := by
  cases call with
  | evalText depth source => exact hh.evalText depth held held' source
  | loadText depth source => exact hh.loadText depth held held' source

theorem Bounds.exists_call {lisp : Interpreter} (htop : lisp.toplevel = []) (w : Bounds lisp)
    (held : Anchors) (call : Call) : ∃ w', w ≤ w' ∧ w'.heap = (call.run lisp held w.heap).2 := by
  cases call with
  | evalText depth source => exact w.exists_evalText htop depth held source
  | loadText depth source => exact w.exists_loadText htop depth held source

/-! ## An interpreter alone -/

namespace Lone

/-- The interpreter of a process that has just begun. -/
def lisp : Interpreter := (Interpreter.fresh Heap.empty).1

/-- The heap after some calls, when there is nobody else. -/
def heap (calls : List Call) : Heap :=
  calls.foldl (fun h call => (call.run lisp .none h).2) (Interpreter.fresh Heap.empty).2

/-- The replies to calls that are made from a heap on. -/
def repliesFrom (h : Heap) : List Call → List Reply
  | [] => []
  | call :: calls =>
      let out := call.run lisp .none h
      Reply.of out.1 :: repliesFrom out.2 calls

/-- **The replies of an interpreter that is alone**, in a process in which nothing has happened
before. -/
def replies (calls : List Call) : List Reply :=
  repliesFrom (Interpreter.fresh Heap.empty).2 calls

theorem heap_append (calls : List Call) (call : Call) :
    heap (calls ++ [call]) = (call.run lisp .none (heap calls)).2 := by
  rw [heap, List.foldl_append]
  rfl

theorem replies_append (calls : List Call) (call : Call) :
    replies (calls ++ [call]) =
      replies calls ++ [Reply.of (call.run lisp .none (heap calls)).1] := by
  unfold replies heap
  generalize (Interpreter.fresh Heap.empty).2 = h
  induction calls generalizing h with
  | nil => rfl
  | cons first calls ih => exact congrArg _ (ih (first.run lisp .none h).2)

theorem toplevel_lisp : lisp.toplevel = [] := rfl

theorem bounded (calls : List Call) : lisp.Bounded (heap calls) := by
  unfold heap
  have hfresh : lisp.Bounded (Interpreter.fresh Heap.empty).2 :=
    Interpreter.bounded_fresh Heap.bounded_empty
  generalize (Interpreter.fresh Heap.empty).2 = h at hfresh
  induction calls generalizing h with
  | nil => exact hfresh
  | cons call calls ih =>
      obtain ⟨w, _, hw⟩ := Bounds.exists_call toplevel_lisp ⟨h, hfresh⟩ .none call
      exact ih (call.run lisp .none h).2 (hw ▸ w.bounded)

/-- Nothing is ever taken back. -/
theorem heap_grows (calls : List Call) (call : Call) :
    (heap calls).next ≤ (heap (calls ++ [call])).next ∧
      (heap calls).frames.size ≤ (heap (calls ++ [call])).frames.size := by
  obtain ⟨w, hle, hw⟩ := Bounds.exists_call toplevel_lisp ⟨heap calls, bounded calls⟩ .none call
  rw [heap_append, ← hw]
  exact hle

end Lone

/-! ## Processes -/

/-- An interpreter of a process, with the calls that were made of it and its replies. -/
structure Member where
  lisp : Interpreter
  calls : List Call
  replies : List Reply
deriving DecidableEq

/-- **A process**: a heap and the interpreters in it, in the order in which they were made. -/
structure Process where
  heap : Heap
  members : List Member

namespace Process

/-- **What happens in a process.** Something else uses up numbers of objects, an interpreter is
made, or an interpreter is called, by someone who holds anything at all. -/
inductive Event
  | skip (count : Nat)
  | create
  | call (index : Nat) (held : Anchors) (call : Call)

/-- The process after an event. A call of an interpreter that is not there does nothing. -/
def step (p : Process) : Event → Process
  | .skip count => { p with heap := { p.heap with next := p.heap.next + count } }
  | .create =>
      let made := Interpreter.fresh p.heap
      ⟨made.2, p.members ++ [⟨made.1, [], []⟩]⟩
  | .call index held call =>
      match p.members[index]? with
      | none => p
      | some m =>
          let out := call.run m.lisp held p.heap
          ⟨out.2, p.members.set index
            ⟨m.lisp, m.calls ++ [call], m.replies ++ [Reply.of out.1]⟩⟩

/-- A process without interpreters, in which the next object gets the given number. -/
def start (next : ObjectId) : Process := ⟨{ Heap.empty with next }, []⟩

/-- The process after some events. -/
def run (next : ObjectId) (events : List Event) : Process := events.foldl step (start next)

/-! ## Lodging -/

/-- An interpreter of a process goes along with one that is alone. -/
structure Lodges (h : Heap) (m : Member) (r : Renaming) : Prop where
  lisp : m.lisp = r.interpreter Lone.lisp
  hosts : r.Hosts Lone.lisp h h (Lone.heap m.calls)
  replies : m.replies = Lone.replies m.calls

/-- **Every interpreter of a process is lodged in its heap**, apart from the others. -/
structure Lodged (p : Process) (r : Nat → Renaming) : Prop where
  tidy : p.heap.Tidy
  lodges : ∀ {i m}, p.members[i]? = some m → Lodges p.heap m (r i)
  apart : ∀ {i j m m'}, i ≠ j → p.members[i]? = some m → p.members[j]? = some m' →
    (r i).Apart (Lone.heap m.calls) (r j) (Lone.heap m'.calls)

theorem lodged_start (next : ObjectId) (r : Nat → Renaming) : (start next).Lodged r where
  tidy _ :=
    ⟨Std.TreeMap.getElem?_emptyc, Std.TreeMap.getElem?_emptyc, Std.TreeMap.getElem?_emptyc⟩
  lodges hm := by cases hm
  apart _ hm := by cases hm

/-- An interpreter that was left alone stays lodged, under another renaming. -/
theorem Lodges.move {h h' : Heap} {m : Member} {r s : Renaming} (hm : Lodges h m r)
    (hclear : r.Clear (Lone.heap m.calls) s) (hspares : s.Spares h h') (hlater : h.Precedes h') :
    ∃ r', r.Agrees r' (Lone.heap m.calls) ∧ Lodges h' m r' := by
  have hb := Lone.bounded m.calls
  obtain ⟨r', hagrees, hhosts⟩ := hm.hosts.move hb.heap (hclear.untouched hspares) hlater
  refine ⟨r', hagrees, ?_, hhosts, hm.replies⟩
  rw [hm.lisp, hagrees.interpreter hb Lone.toplevel_lisp]

variable {p p' : Process} {r : Nat → Renaming}

/-- **One interpreter is active, the others stay lodged.** `s` names what belongs to the active
one, which is the one at `a`. -/
theorem Lodged.advance (hp : p.Lodged r) (a : Nat) (s : Renaming)
    (hlater : p.heap.Precedes p'.heap) (hspares : s.Spares p.heap p'.heap)
    (hclear : ∀ {i m}, i ≠ a → p.members[i]? = some m → (r i).Clear (Lone.heap m.calls) s)
    (hothers : ∀ i ≠ a, p'.members[i]? = p.members[i]?)
    (hactive : ∀ {m}, p'.members[a]? = some m → Lodges p'.heap m s) : ∃ r', p'.Lodged r' := by
  have hmove : ∀ i, ∃ r', ∀ m, i ≠ a → p'.members[i]? = some m →
      (r i).Agrees r' (Lone.heap m.calls) ∧ Lodges p'.heap m r' := by
    intro i
    by_cases hmember : i ≠ a ∧ ∃ m, p'.members[i]? = some m
    · obtain ⟨hi, m, hm⟩ := hmember
      have hm' := (hothers i hi).symm.trans hm
      obtain ⟨r', hr'⟩ := (hp.lodges hm').move (hclear hi hm') hspares hlater
      exact ⟨r', fun m' _ hm' => Option.some.inj (hm.symm.trans hm') ▸ hr'⟩
    · exact ⟨r i, fun m hi hm => absurd ⟨hi, m, hm⟩ hmember⟩
  choose moved hmoved using hmove
  -- the others are clear of the active one, so they stay apart from it under their new names
  have happart : ∀ {i m} (m' : Member), i ≠ a → p'.members[i]? = some m →
      (moved i).Apart (Lone.heap m.calls) s (Lone.heap m'.calls) := by
    intro i m m' hi hm
    have hc := hclear hi ((hothers i hi).symm.trans hm)
    exact (hc.apart _).of_agrees (hmoved i m hi hm).1 (.refl s _)
  refine ⟨fun i => if i = a then s else moved i, hlater.tidy, ?_, ?_⟩
  · intro i m hm
    by_cases hi : i = a
    · subst hi
      simpa using hactive hm
    · simpa [hi] using (hmoved i m hi hm).2
  · intro i j m m' hij hm hm'
    by_cases hi : i = a <;> by_cases hj : j = a
    · exact absurd (hi.trans hj.symm) hij
    · subst hi
      simpa [hj] using (happart m hj hm').symm
    · subst hj
      simpa [hi] using happart m' hi hm
    · have hold := hp.apart hij ((hothers i hi).symm.trans hm) ((hothers j hj).symm.trans hm')
      simpa [hi, hj] using hold.of_agrees (hmoved i m hi hm).1 (hmoved j m' hj hm').1

/-- A newcomer is clear of everyone. -/
theorem Lodged.clear_newcomer (hp : p.Lodged r) {i : Nat} {m : Member}
    (hm : p.members[i]? = some m) :
    (r i).Clear (Lone.heap m.calls) (Renaming.newcomer p.heap) :=
  (hp.lodges hm).hosts.clear_newcomer

theorem Lodged.skip (hp : p.Lodged r) (count : Nat) : ∃ r', (p.step (.skip count)).Lodged r' := by
  have htidy : (p.step (.skip count)).heap.Tidy := by
    intro n
    have hvacant := hp.tidy (count + n)
    rw [← Nat.add_assoc] at hvacant
    exact ⟨hvacant.cells, hvacant.closures, hvacant.packages⟩
  have hlater : p.heap.Precedes (p.step (.skip count)).heap :=
    ⟨htidy, Nat.le_add_right _ count, Nat.le_refl _⟩
  have hspares : (Renaming.newcomer p.heap).Spares p.heap (p.step (.skip count)).heap :=
    ⟨fun _ _ => rfl, fun _ _ => rfl, fun _ _ => rfl, fun _ _ => rfl⟩
  -- nobody is active: there is no interpreter behind the last one
  have hnone : p.members[p.members.length]? = none := List.getElem?_eq_none (Nat.le_refl _)
  exact hp.advance p.members.length (.newcomer p.heap) hlater hspares
    (fun _ hm => hp.clear_newcomer hm) (fun _ _ => rfl)
    fun hm => absurd (hnone.symm.trans hm) (Option.some_ne_none _).symm

theorem Lodged.create (hp : p.Lodged r) : ∃ r', (p.step .create).Lodged r' := by
  have hempty := Renaming.hosts_empty Lone.lisp hp.tidy
  have hfresh := hempty.fresh (show Heap.empty.next = Lone.lisp.package from rfl)
  have hlater := hempty.precedes hfresh.hosts (Lone.bounded []).heap (Nat.zero_le _) (Nat.zero_le _)
  refine hp.advance p.members.length (.newcomer p.heap) hlater hfresh.hosts.spares
    (fun _ hm => hp.clear_newcomer hm) (fun i hi => ?_) fun hm => ?_
  · simp only [step]
    grind
  · rw [step, List.getElem?_concat_length, Option.some.injEq] at hm
    subst hm
    exact ⟨hfresh.result, hfresh.hosts.rebase, rfl⟩

theorem Lodged.call (hp : p.Lodged r) (index : Nat) (held : Anchors) (call : Call) :
    ∃ r', (p.step (.call index held call)).Lodged r' := by
  simp only [step]
  split
  · exact ⟨r, hp⟩
  · rename_i m hm
    obtain ⟨hlisp, hhosts, hreplies⟩ := hp.lodges hm
    have hcall := hhosts.call held .none call
    obtain ⟨hnext, hsize⟩ := Lone.heap_grows m.calls call
    have hhosts' : (r index).Hosts Lone.lisp p.heap (call.run m.lisp held p.heap).2
        (Lone.heap (m.calls ++ [call])) := by
      rw [hlisp, Lone.heap_append]
      exact hcall.hosts
    have hlater := hhosts.precedes hhosts' (Lone.bounded _).heap hnext hsize
    refine hp.advance index (r index) hlater hhosts'.spares
      (fun hi hm' => (hp.apart hi hm' hm).clear (hp.lodges hm').hosts hhosts)
      (fun i hi => List.getElem?_set_ne hi.symm) fun hm' => ?_
    rw [List.getElem?_set_self (List.getElem?_eq_some_iff.1 hm).1, Option.some.injEq] at hm'
    subst hm'
    refine ⟨hlisp, hhosts'.rebase, ?_⟩
    rw [Lone.replies_append, hreplies, hlisp, hcall.result, Renaming.reply_result]

/-- **Every event keeps all interpreters lodged.** -/
theorem Lodged.step (hp : p.Lodged r) (event : Event) : ∃ r', (p.step event).Lodged r' := by
  cases event with
  | skip count => exact hp.skip count
  | create => exact hp.create
  | call index held call => exact hp.call index held call

theorem exists_lodged_run (next : ObjectId) (events : List Event) :
    ∃ r, (run next events).Lodged r := by
  unfold run
  obtain ⟨r, hstart⟩ : ∃ r, (start next).Lodged r :=
    ⟨fun _ => .newcomer Heap.empty, lodged_start next _⟩
  generalize start next = p at hstart
  induction events generalizing p r with
  | nil => exact ⟨r, hstart⟩
  | cons event events ih =>
      obtain ⟨r', hstep⟩ := hstart.step event
      exact ih r' (p.step event) hstep

/-- **Interpreters do not interfere.** Let a process begin with any number for its next object, and
let interpreters be made in it and called in any order. Then each of them has replied to its calls
as an interpreter does that is alone in a process that begins with number 0. -/
theorem interpreters_do_not_interfere (next : ObjectId) (events : List Event) :
    ∀ m ∈ (run next events).members, m.replies = Lone.replies m.calls := by
  intro m hm
  obtain ⟨r, hlodged⟩ := exists_lodged_run next events
  obtain ⟨i, hi⟩ := List.mem_iff_getElem?.1 hm
  exact (hlodged.lodges hi).replies

/-- One interpreter defines a function while the other one, made later, has none of that name. -/
theorem interpreters_do_not_interfere_twins :
    let events : List Event := [.create, .skip 5, .create,
      .call 0 .none (.loadText 9 "(setq x 1) (defun f (y) (eq x y))".toList),
      .call 1 .none (.evalText 9 "(f x)".toList),
      .call 0 .none (.evalText 9 "(f x)".toList)]
    (∃ m ∈ (run 7 events).members, m.replies = [.value "symbol" "f", .value "symbol" "t"] ∧
      m.replies = Lone.replies m.calls) ∧
    ∃ m ∈ (run 7 events).members,
      m.replies = [.eval .undefinedFunction "Undefined function: 'f'"] ∧
      m.replies = Lone.replies m.calls := by
  intro events
  have hfirst : ∃ m ∈ (run 7 events).members,
      m.replies = [.value "symbol" "f", .value "symbol" "t"] := by decide +kernel
  have hsecond : ∃ m ∈ (run 7 events).members,
      m.replies = [.eval .undefinedFunction "Undefined function: 'f'"] := by decide +kernel
  obtain ⟨m, hm, hreplies⟩ := hfirst
  obtain ⟨m', hm', hreplies'⟩ := hsecond
  exact ⟨⟨m, hm, hreplies, interpreters_do_not_interfere 7 events m hm⟩,
    m', hm', hreplies', interpreters_do_not_interfere 7 events m' hm'⟩

end Process

end SmallLisp
