import SmallLisp.Proofs.Session.Acts

set_option autoImplicit false

/-! # Turns of a session

A step of a session is carried out by acts, and the value that it answers is at hand then
(`Session.Answers`). Some steps do more: they open or close a scope, push a frame, or capture the
working environment (`Turn`). `turn_take` goes through all steps once and says what each of them
does, so that an invariant of sessions has to be shown for acts and for the five kinds of turns.
-/

namespace SmallLisp.Session

variable {s s' s'' : Session} {vs vs' : List Value}

/-! ## Parts of steps -/

/-- The value of an answer, if it has one to be kept. -/
def Answer.values : Answer → List Value
  | .result r => yielded r
  | .captured r _ => yielded r
  | _ => []

/-- **Acts lead to a session and an answer**, whose value is at hand. -/
def Answers (s : Session) (vs : List Value) (out : Answer × Session) : Prop :=
  ∃ vs', Acts s vs out.2 vs' ∧ out.1.values ⊆ vs'

theorem Acts.single {new : List Value} (hact : Act s vs s' new) : Acts s vs s' (new ++ vs) :=
  .more .none hact

/-- An answer without a value needs nothing at hand. -/
theorem Acts.answers (hs : Acts s vs s' vs') {answer : Answer} (hnil : answer.values = []) :
    s.Answers vs (answer, s') :=
  ⟨vs', hs, hnil ▸ List.nil_subset _⟩

/-- The result of the last act is the answer. -/
theorem Acts.answers_result (hs : Acts s vs s' vs') {r : Except Failure Value}
    (hact : Act s' vs' s'' (yielded r)) : s.Answers vs (.result r, s'') :=
  ⟨yielded r ++ vs', .more hs hact, List.subset_append_left _ _⟩

/-- An object of the session is picked to be at hand. -/
theorem Acts.pick (hs : Acts s vs s' vs') {new : List Value} (hnew : ∀ v ∈ new, s'.Has v) :
    Acts s vs s' (new ++ vs') :=
  .more hs (.pick hnew)

theorem has_slots (s : Session) (names : List String) : ∀ v ∈ names.map s.slot, s.Has v := by
  intro v hv
  obtain ⟨name, _, rfl⟩ := List.mem_map.1 hv
  exact s.has_slot name

theorem Acts.read (hs : Acts s vs s' vs') {source : String} {r : Except ParseError Value}
    (hread : s'.read source = (r, s'')) : Acts s vs s'' (yielded r ++ vs') := by
  have hact : Act s' vs' (s'.read source).2 (yielded (s'.read source).1) := .read source
  rw [hread] at hact
  exact .more hs hact

/-- **To resolve a target** is to pick an object, or to intern a name. -/
theorem Acts.resolve (hs : Acts s vs s' vs') {target : Target} {object : Value}
    (hresolve : s'.resolve target = (object, s'')) :
    ∃ vs'', Acts s vs s'' vs'' ∧ vs' ⊆ vs'' ∧ object ∈ vs'' := by
  cases target with
  | slot name =>
      cases hresolve
      exact ⟨_, hs.pick (List.forall_mem_singleton.2 (s'.has_slot name)),
        List.subset_append_right _ _, List.mem_cons_self⟩
  | symbol name =>
      cases hresolve
      have hheld : Acts s vs s' (s'.lisp.held ++ vs') := hs.pick fun v hv => .own hv
      have hpackage : ∃ v ∈ s'.lisp.held ++ vs', v.id = s'.lisp.package :=
        ⟨_, List.mem_append_left _ List.mem_cons_self, rfl⟩
      refine ⟨_, .more hheld (.intern hpackage name), ?_, List.mem_cons_self⟩
      exact List.subset_append_of_subset_right _ (List.subset_append_right _ _)

/-- Code that is run in the working environment releases its frames, so that it is a single act. -/
theorem Acts.runHere (hs : Acts s vs s' vs') {limit : Nat} {act : Eval Value}
    (hact : act.Entered s'.lisp limit vs') : s.Answers vs (s'.runHere act) := by
  have henv : (Interpreter.runIn s'.held s'.env s'.heap act).2.2 = s'.env := by
    have hleft := hact.keepsShape.releases s'.held ⟨s'.heap, s'.env⟩
    unfold Interpreter.runIn
    split <;> rename_i heq <;> rw [heq] at hleft <;> exact hleft
  have hrun : s'.runHere act = (.result (Interpreter.runIn s'.held s'.env s'.heap act).1,
      { s' with heap := (Interpreter.runIn s'.held s'.env s'.heap act).2.1 }) := by
    simp only [Session.runHere, henv]
  rw [hrun]
  exact hs.answers_result (.run hact s'.held .working)

/-- A form is evaluated at top level. -/
theorem Acts.eval (hs : Acts s vs s' vs') (limit : Nat) (held : Anchors) {form : Value}
    (hform : form ∈ vs') :
    s.Answers vs (s'.finish (s'.lisp.eval limit held form s'.heap)) :=
  hs.answers_result (.run (.form hform) (held.hold [form]) .toplevel)

theorem answers_picked {v : Value} (hv : s.Has v) : s.Answers [] (s.made (v, s.heap)) :=
  Acts.none.answers_result (r := .ok v) (.pick (List.forall_mem_singleton.2 hv))

/-- Objects of the session are put in a list. -/
theorem answers_listed {tail : Value} (htail : s.Has tail) {items : List Value}
    (hitems : ∀ v ∈ items, s.Has v) : s.Answers [] (s.made (s.heap.listWithTail tail items)) := by
  have hpick : Acts s [] s (tail :: items ++ []) :=
    Acts.none.pick (List.forall_mem_cons.2 ⟨htail, hitems⟩)
  rw [List.append_nil] at hpick
  exact hpick.answers_result (r := .ok _) (.list List.mem_cons_self (List.subset_cons_self _ _))

/-- The second interpreter is at hand when it has been asked for. -/
theorem acts_withForeign (s : Session) :
    ∃ vs, Acts s [] s.withForeign.2 vs ∧ s.withForeign.1.held ⊆ vs := by
  unfold withForeign
  split
  · rename_i lisp hlisp
    exact ⟨_, Acts.none.pick fun v hv => .foreign hlisp hv, List.subset_append_left _ _⟩
  · exact ⟨_, .single .interpreter, List.subset_append_left _ _⟩

theorem answers_build (s : Session) (recipe : Recipe) : s.Answers [] (s.build recipe) := by
  cases recipe with
  | number n => exact Acts.none.answers_result (r := .ok _) (.number n)
  | string text => exact Acts.none.answers_result (r := .ok _) (.string text)
  | cons car cdr =>
      exact answers_listed (s.has_slot cdr) (List.forall_mem_singleton.2 (s.has_slot car))
  | list items => exact answers_listed (.own (by simp [Interpreter.held])) (s.has_slots items)
  | listWithTail items tail => exact answers_listed (s.has_slot tail) (s.has_slots items)
  | truth b =>
      refine answers_picked (.own ?_)
      cases b <;> simp [Interpreter.held, Interpreter.truth]
  | package name => exact Acts.none.answers_result (r := .ok _) (.package name)
  | home =>
      refine answers_picked (v := (s.heap.packageValue? s.lisp.package).getD s.lisp.nilValue) ?_
      cases hp : s.heap.packages[s.lisp.package]? with
      | none =>
          rw [Heap.packageValue?, hp]
          exact .own (by simp [Interpreter.held])
      | some p =>
          rw [Heap.packageValue?, hp]
          exact .heap (.package hp)
  | foreign name =>
      obtain ⟨vs, hacts, hheld⟩ := s.acts_withForeign
      have hpackage : ∃ v ∈ vs, v.id = s.withForeign.1.package :=
        ⟨_, hheld List.mem_cons_self, rfl⟩
      exact hacts.answers_result (r := .ok _) (.intern hpackage name)

/-- To look something up changes no more than to resolve its target does. -/
theorem answers_looked {target : Target} {object : Value}
    (hresolve : s.resolve target = (object, s')) {answer : Answer} (hnil : answer.values = []) :
    s.Answers [] (answer, s') := by
  obtain ⟨vs, hs, _⟩ := Acts.none.resolve hresolve
  exact hs.answers hnil

theorem answers_assignIn (s : Session) (env : Environment) (target : Target) (source : String) :
    s.Answers [] (s.assignIn env target source) := by
  unfold assignIn
  split
  · rename_i e s₁ hread
    exact (Acts.none.read hread).answers rfl
  · rename_i v s₁ hread
    have hv : Acts s [] s₁ [v] := Acts.none.read hread
    split
    rename_i object s₂ hresolve
    obtain ⟨vs₂, hs₂, hsubset, _⟩ := hv.resolve hresolve
    split
    · rename_i h hassign
      exact (hs₂.more (.assign (hsubset List.mem_cons_self) hassign)).answers rfl
    · exact hs₂.answers rfl

/-- The bindings of a frame are at hand when they have been read. -/
theorem acts_readBindings (hs : Acts s vs s' vs') (bindings : List (Target × String)) :
    ∃ vs'', Acts s vs (s'.readBindings bindings).2 vs'' ∧ vs' ⊆ vs'' ∧
      ∀ bs, (s'.readBindings bindings).1 = .ok bs → (Frame.mk bs).objects ⊆ vs'' := by
  fun_induction Session.readBindings s' bindings generalizing vs' with
  | case1 s' =>
      refine ⟨vs', hs, List.Subset.refl _, fun bs hbs => ?_⟩
      cases hbs
      exact List.nil_subset _
  | case2 s' target source rest e s₁ hread =>
      exact ⟨_, hs.read hread, List.subset_append_right _ _, nofun⟩
  | case3 s' target source rest v s₁ hread object s₂ hresolve e s₃ hrest ih =>
      obtain ⟨vs₂, hs₂, hsubset, _⟩ := (hs.read hread).resolve hresolve
      obtain ⟨vs₃, hs₃, hsubset₃, _⟩ := ih hs₂
      rw [hrest] at hs₃
      refine ⟨vs₃, hs₃, ?_, nofun⟩
      exact List.Subset.trans (List.subset_append_right _ _) (List.Subset.trans hsubset hsubset₃)
  | case4 s' target source rest v s₁ hread object s₂ hresolve bindings s₃ hrest ih =>
      obtain ⟨vs₂, hs₂, hsubset, hobject⟩ := (hs.read hread).resolve hresolve
      obtain ⟨vs₃, hs₃, hsubset₃, hobjects⟩ := ih hs₂
      rw [hrest] at hs₃ hobjects
      have hlater : vs' ⊆ vs₃ :=
        List.Subset.trans (List.subset_append_right _ _) (List.Subset.trans hsubset hsubset₃)
      refine ⟨vs₃, hs₃, hlater, fun bs hbs => ?_⟩
      cases hbs
      have hvalue : v ∈ vs₃ := hsubset₃ (hsubset List.mem_cons_self)
      exact List.cons_subset.2 ⟨hsubset₃ hobject,
        List.cons_subset.2 ⟨hvalue, hobjects bindings rfl⟩⟩

/-- Reading and evaluating are acts of their own. -/
theorem answers_evalText (s : Session) (limit : Nat) (source : String) :
    s.Answers [] (s.finish (s.lisp.evalText limit s.held source.toList s.heap)) := by
  have hnone : Acts s [] s [] := .none
  simp only [finish, Interpreter.evalText]
  split
  · rename_i e h heq
    have hread : s.read source = (.error e, { s with heap := h }) := by rw [Session.read, heq]
    exact (hnone.read hread).answers rfl
  · rename_i form h heq
    have hread : s.read source = (.ok form, { s with heap := h }) := by rw [Session.read, heq]
    exact (hnone.read hread).eval limit s.held List.mem_cons_self

/-- What has been read is evaluated in an environment that has been captured. -/
theorem answers_evalCaptured (limit : Nat) (name : String) {source : String} {form : Value}
    (hread : s.read source = (.ok form, s')) {out : Except Failure Value × Heap × Environment}
    (hout : Interpreter.runIn (s'.held.hold [form]) (s.environment name) s'.heap
      (Eval.evaluate s'.lisp limit form) = out) (depth : Nat) :
    s.Answers [] (.captured out.1 depth, { s' with heap := out.2.1 }) := by
  have hs : Acts s [] s' [form] := Acts.none.read hread
  have henv : s'.environment name = s.environment name := by
    rw [environment, hs.steady.captured, environment]
  subst hout
  refine ⟨_, .more hs (.run (.form List.mem_cons_self) (s'.held.hold [form]) ?_),
    List.subset_append_left _ _⟩
  exact henv ▸ .captured name

/-- The target of a cell is resolved first, and then the value is picked. -/
theorem answers_setCell {target : Target} {symbol : Symbol}
    (hresolve : s.resolve target = (.symbol symbol, s')) (value : String) (cell : CellName) :
    s.Answers []
      (.flag true, { s' with heap := setCell s'.heap symbol (s'.slot value) cell }) := by
  obtain ⟨vs, hs, _, hobject⟩ := Acts.none.resolve hresolve
  have hvalue : Acts s [] s' (s'.slot value :: vs) :=
    hs.pick (List.forall_mem_singleton.2 (s'.has_slot value))
  have hset := hvalue.more (.cell (List.mem_cons_of_mem _ hobject) List.mem_cons_self cell)
  exact hset.answers rfl

/-! ## Turns -/

/-- Whether a step, by its answer, has moved frames or scopes. -/
def Step.moves : Step → Answer → Bool
  | .openScope, _ => true
  | .closeScope, _ => true
  | .push _, .frame _ => true
  | _, _ => false

/-- **A turn of a session**: acts, and what a step does to environments besides. -/
inductive Turn (s : Session) : Step → Answer → Session → Prop
  | opened : Turn s .openScope .opened s.openScope
  | closed : Turn s .closeScope .closed s.closeScope
  | pushed {bindings : List (Target × String)} {s' : Session} {vs : List Value}
      (hacts : Acts s [] s' vs) {frame : Frame} (hframe : frame.objects ⊆ vs) :
      Turn s (.push bindings) (.frame frame.bindings.length) (s'.pushFrame frame)
  | captured (name : String) : Turn s (.capture name) (.count s.depth)
      { s with captured := (name, s.env) :: s.captured.filter (·.1 != name) }
  | acts {step : Step} {answer : Answer} {s' : Session} (hanswers : s.Answers [] (answer, s'))
      (hmoves : step.moves answer = false) : Turn s step answer s'

/-- **What each step does.** -/
theorem turn_take (limit : Nat) (s : Session) (step : Step) :
    Turn s step (s.take limit step).1 (s.take limit step).2 := by
  have hnone : Acts s [] s [] := .none
  have hself : ∀ {answer : Answer}, answer.values = [] → s.Answers [] (answer, s) := hnone.answers
  have hslot : ∀ name, Acts s [] s [s.slot name] := fun name =>
    hnone.pick (List.forall_mem_singleton.2 (s.has_slot name))
  have hslots : ∀ names : List String, Acts s [] s (names.map s.slot) := fun names => by
    have hpick := hnone.pick (s.has_slots names)
    rwa [List.append_nil] at hpick
  cases step with
  -- what is read and run
  | evalText source => exact .acts (s.answers_evalText limit source) rfl
  | loadText source => exact .acts (hnone.answers_result (.load limit s.held source.toList)) rfl
  | readText source =>
      rcases hread : s.read source with ⟨r, s₁⟩
      simp only [take, hread]
      cases r with
      | ok v => exact .acts ⟨_, hnone.read hread, List.Subset.refl _⟩ rfl
      | error e => exact .acts ((hnone.read hread).answers rfl) rfl
  | evalObject target =>
      obtain ⟨vs, hs, _, hobject⟩ := hnone.resolve (rfl : s.resolve target = _)
      exact .acts (hs.eval limit (s.resolve target).2.held hobject) rfl
  | evalHere source =>
      simp only [take]
      split
      · rename_i hread
        exact .acts ((hnone.read hread).answers rfl) rfl
      · rename_i form s₁ hread
        have hform : form ∈ [form] := List.mem_cons_self
        exact .acts ((hnone.read hread).runHere (.holding [form] (.form hform))) rfl
  | evalCaptured name source =>
      simp only [take]
      split
      · rename_i hread
        exact .acts ((hnone.read hread).answers rfl) rfl
      · rename_i form s₁ hread
        exact .acts (answers_evalCaptured limit name hread rfl _) rfl
  | apply operator args =>
      exact .acts ((hslot args).runHere (.apply _ List.mem_cons_self)) rfl
  | applyValues operator args =>
      exact .acts ((hslots args).runHere (.applyValues _ (List.Subset.refl _))) rfl
  | callDirectly operator args =>
      simp only [take]
      split
      · exact .acts ((hslots args).runHere (.specialForm _ (List.Subset.refl _))) rfl
      · exact .acts ((hslots args).runHere (.builtin _ (List.Subset.refl _))) rfl
      · exact .acts (hself rfl) rfl
  -- what is made and set
  | intern name =>
      obtain ⟨vs, hs, _, hobject⟩ := hnone.resolve (rfl : s.resolve (.symbol name) = _)
      exact .acts ⟨vs, hs, List.cons_subset.2 ⟨hobject, List.nil_subset _⟩⟩ rfl
  | make recipe => exact .acts (s.answers_build recipe) rfl
  | dropForeign => exact .acts ((hnone.more .dismiss).answers rfl) rfl
  | packageIntern package name =>
      simp only [take]
      split
      · rename_i id title hpackage
        have hp : ∃ v ∈ [s.slot package], v.id = id :=
          ⟨_, List.mem_cons_self, by rw [hpackage]; rfl⟩
        exact .acts ((hslot package).answers_result (r := .ok _) (.intern hp name)) rfl
      · exact .acts (hself rfl) rfl
  | assign target source => exact .acts (s.answers_assignIn s.env target source) rfl
  | assignCaptured name target source =>
      exact .acts (s.answers_assignIn (s.environment name) target source) rfl
  | setCell target cell value =>
      simp only [take]
      split
      · rename_i hresolve
        exact .acts (answers_setCell hresolve value cell) rfl
      · rename_i hresolve
        exact .acts (answers_looked hresolve rfl) rfl
  -- what happens to environments
  | push bindings =>
      obtain ⟨vs, hs, _, hobjects⟩ := acts_readBindings hnone bindings
      simp only [take]
      split <;> rename_i heq <;> rw [heq] at hs hobjects
      · exact .acts (hs.answers rfl) rfl
      · exact .pushed hs (hobjects _ rfl)
  | capture name => exact .captured name
  | openScope => exact .opened
  | closeScope => exact .closed
  -- what is only looked up
  | lookup target => exact .acts (answers_looked (rfl : s.resolve target = _) rfl) rfl
  | lookupCaptured name target => exact .acts (answers_looked (rfl : s.resolve target = _) rfl) rfl
  | describe target => exact .acts (answers_looked (rfl : s.resolve target = _) rfl) rfl
  | cells target =>
      simp only [take]
      split <;> rename_i hresolve <;> exact .acts (answers_looked hresolve rfl) rfl
  | same a b => exact .acts (hself rfl) rfl
  | findSymbol name => exact .acts (hself rfl) rfl
  | names all => exact .acts (hself rfl) rfl
  | packageFind package name =>
      simp only [take]
      split <;> exact .acts (hself rfl) rfl
  | packageInfo package =>
      simp only [take]
      split <;> exact .acts (hself rfl) rfl
  | readSource path =>
      simp only [take]
      split <;> exact .acts (hself rfl) rfl

/-! ## Histories -/

theorem mem_slots_save {name : String} {v : Value} {x : String × Value}
    (hx : x ∈ (s.save name v).slots) : x ∈ s.slots ∨ x.2 = v := by
  rcases List.mem_cons.1 hx with rfl | hx
  · exact .inr rfl
  · exact .inl (List.mem_filter.1 hx).1

/-- A value that is kept is put into a slot, and nothing else is changed. -/
theorem exists_slots_keep (s : Session) (save : Option String) (answer : Answer) :
    ∃ slots, s.keep save answer = { s with slots := slots } ∧
      ∀ x ∈ slots, x ∈ s.slots ∨ x.2 ∈ answer.values := by
  unfold keep
  split
  · exact ⟨_, rfl, fun x hx => (mem_slots_save hx).imp_right List.mem_singleton.2⟩
  · exact ⟨_, rfl, fun x hx => (mem_slots_save hx).imp_right List.mem_singleton.2⟩
  · exact ⟨s.slots, rfl, fun x hx => .inl hx⟩

/-- The session after a request. -/
def after (limit : Nat) (s : Session) (request : Request) : Session :=
  (s.take limit request.step).2.keep request.save (s.take limit request.step).1

/-- **A request is a turn**, after which the answer may be put into a slot. -/
theorem turn_after (limit : Nat) (s : Session) (request : Request) :
    ∃ s' slots, Turn s request.step (s.take limit request.step).1 s' ∧
      s.after limit request = { s' with slots := slots } ∧
      ∀ x ∈ slots, x ∈ s'.slots ∨ x.2 ∈ (s.take limit request.step).1.values := by
  obtain ⟨slots, hkeep, hslots⟩ := exists_slots_keep (s.take limit request.step).2 request.save
    (s.take limit request.step).1
  exact ⟨_, slots, turn_take limit s request.step, hkeep, hslots⟩

/-- No step changes the interpreter. -/
theorem Turn.lisp_eq {step : Step} {answer : Answer} (hturn : Turn s step answer s') :
    s'.lisp = s.lisp := by
  cases hturn with
  | opened => rfl
  | closed => rfl
  | pushed hacts => exact hacts.steady.lisp
  | captured name => rfl
  | acts hanswers =>
      obtain ⟨_, hacts, _⟩ := hanswers
      exact hacts.steady.lisp

theorem lisp_after (limit : Nat) (s : Session) (request : Request) :
    (s.after limit request).lisp = s.lisp := by
  obtain ⟨s', slots, hturn, hafter, _⟩ := turn_after limit s request
  rw [hafter]
  exact hturn.lisp_eq

/-- **The sessions that requests lead to**, each with its own limit on nesting. -/
inductive Reached : Session → Prop
  | start : Reached start
  | step {s : Session} (hs : Reached s) (limit : Nat) (request : Request) :
      Reached (s.after limit request)

end SmallLisp.Session
