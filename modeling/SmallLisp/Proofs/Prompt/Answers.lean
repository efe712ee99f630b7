import SmallLisp.Proofs.Program.Runs
import SmallLisp.Proofs.Prompt.Units

set_option autoImplicit false

/-! # Typing a program in is loading it

A text can be loaded as a whole, or typed in line by line at the prompt. If loading succeeds, the
prompt does the same: it evaluates the same forms in the same order, prints each value, has
nothing to report, and leaves the same heap.

The two differ in how they go through the text, and this is what has to be bridged. Loading has
one reader for the whole text, the prompt has one for each unit; units end where nothing is open,
so the run of the whole is cut there into runs of the units. Loading also holds the last value
while the next one is computed, which is of no consequence to an interpreter that is alone.
-/

namespace SmallLisp

open Reader Prompt

/-- **Runs of several texts**, one after the other. Nothing is held meanwhile. -/
inductive RunsAll (lisp : Interpreter) (depth : Nat) :
    List (List Char) → Heap → List Evaluation → Heap → Prop
  | nil (h : Heap) : RunsAll lisp depth [] h [] h
  | cons {text : List Char} {texts : List (List Char)} {h h' h'' : Heap}
      {steps later : List Evaluation}
      (hrun : Runs lisp depth (fun _ => .none) lisp.nilValue (.ofSource text) h steps h')
      (hrest : RunsAll lisp depth texts h' later h'') :
      RunsAll lisp depth (text :: texts) h (steps ++ later) h''

section

variable {lisp : Interpreter} {depth : Nat} {last : Value} {r : Reader} {h h' : Heap}
  {steps : List Evaluation}

/-- **A run is a run of complete texts** if these have its contents among them. -/
theorem Runs.runsAll {texts : List (List Char)} (halone : lisp.Alone h)
    (hrun : Runs lisp depth (fun _ => .none) last r h steps h')
    (hc : r.pending.map Located.content = texts.flatMap contents)
    (hcomplete : ∀ text ∈ texts, isIncomplete text = false) :
    RunsAll lisp depth texts h steps h' := by
  induction texts generalizing last r h steps with
  | nil =>
      rw [List.flatMap_nil, List.map_eq_nil_iff] at hc
      cases hrun with
      | done hnext => exact .nil _
      | step hnext _ _ _ => exact absurd hc (next?_eq_some_iff.1 hnext).1
  | cons text texts ih =>
      obtain ⟨htext, htexts⟩ := List.forall_mem_cons.1 hcomplete
      -- a reader of what is left over, wherever it is thought to stand
      have hback : (texts.flatMap items).map Located.content = texts.flatMap contents :=
        List.map_flatMap
      rw [List.flatMap_cons, ← hback] at hc
      obtain ⟨early, late, h₁, last', rfl, hearly, hlate⟩ :=
        @Runs.split lisp depth last r h h' steps .none (.ofSource text)
          ⟨texts.flatMap items, 0, 0⟩ hrun hc htext
      exact .cons (hearly.with_hold halone lisp.nilValue)
        (ih (halone.of_changes hearly.changes) hlate hback htexts)

/-! ## What the prompt writes -/

/-- The lines that the values of a run are printed as. -/
def printed (steps : List Evaluation) : List String := steps.map fun step => step.value.text

/-- A run of a unit is answered by its values. -/
theorem answerFrom_of_runs (hrun : Runs lisp depth (fun _ => .none) last r h steps h')
    (unit : List Char) (output : List String) (reports : List Report) :
    Conversation.answerFrom lisp depth unit r ⟨h, output, reports⟩ =
      ⟨h', output ++ printed steps, reports⟩ := by
  induction hrun generalizing output with
  | done hnext =>
      rw [Conversation.answerFrom]
      split
      · rw [printed, List.map_nil, List.append_nil]
      · rename_i hsome
        rw [hnext] at hsome
        cases hsome
  | @step last r h h₁ h₂ out form v steps hnext hform heval _ ih =>
      rw [Conversation.answerFrom]
      split
      · rename_i hnone
        rw [hnext] at hnone
        cases hnone
      · rename_i out' hsome
        obtain rfl : out = out' := Option.some.inj (hnext.symm.trans hsome)
        simp only [hform, heval, Conversation.say, ih, printed, List.map_cons, List.append_assoc,
          List.singleton_append]

/-- Nothing is evaluated in a blank unit, which is why it can be passed over. -/
theorem runs_blank {unit : List Char} (hblank : Request.ofUnit unit = .nothing)
    (hrun : Runs lisp depth (fun _ => .none) last (.ofSource unit) h steps h') :
    steps = [] ∧ h' = h := by
  cases hrun with
  | done hnext => exact ⟨rfl, rfl⟩
  | @step _ _ _ h₁ _ out form v steps hnext hform heval _ =>
      obtain ⟨hne, rfl⟩ := next?_eq_some_iff.1 hnext
      obtain ⟨⟨span, content⟩, rest, hitems⟩ := List.exists_cons_of_ne_nil hne
      -- the first item of a blank text is an error, if there is one at all
      have hcontent : ∀ t, content ≠ .ok t := by
        rintro t rfl
        refine contents_of_isWhitespace (isWhitespace_of_trim_eq_nil (trim_of_ofUnit hblank)) t ?_
        have hmem : (⟨span, .ok t⟩ : Item) ∈ items unit := by
          show _ ∈ (Reader.ofSource unit).pending
          rw [hitems]
          exact List.mem_cons_self
        exact List.mem_map_of_mem hmem
      rw [Reader.read, hitems, Reader.run] at hform
      cases content with
      | ok t => exact absurd rfl (hcontent t)
      | error e => cases hform

/-- **A conversation over runs** prints their values, and then that it ends. -/
theorem converse_of_runsAll {units : List (List Char)} (hrun : RunsAll lisp depth units h steps h')
    (hexit : ∀ unit ∈ units, Request.ofUnit unit ≠ .exit) (output : List String)
    (reports : List Report) :
    Conversation.converse lisp depth ⟨h, output, reports⟩ units =
      ⟨h', output ++ printed steps ++ ["", "Exiting."], reports⟩ := by
  induction hrun generalizing output with
  | nil h => simp [Conversation.converse, Conversation.say, printed]
  | @cons unit units h h₁ h₂ steps later hunit _ ih =>
      obtain ⟨hfirst, hlater⟩ := List.forall_mem_cons.1 hexit
      have hprinted : printed (steps ++ later) = printed steps ++ printed later := List.map_append
      rw [Conversation.converse]
      cases hrequest : Request.ofUnit unit with
      | nothing =>
          -- the unit is skipped without being read
          obtain ⟨rfl, rfl⟩ := runs_blank hrequest hunit
          exact ih hlater output
      | exit => exact absurd hrequest hfirst
      | evaluate =>
          have hanswer := answerFrom_of_runs hunit unit output reports
          rw [Conversation.answer, hanswer]
          show Conversation.converse lisp depth _ units = _
          rw [ih hlater, hprinted, ← List.append_assoc]

end

/-- Before there is a prompt files are loaded, and these leave the interpreter alone. -/
theorem solitary_loadFiles (read : String → Except FileError String) (lisp : Interpreter)
    (depth : Nat) (c : Conversation) (hs : lisp.Solitary c.heap) (paths : List String) :
    lisp.Solitary (c.loadFiles read lisp depth paths).1.heap := by
  induction paths generalizing c with
  | nil => exact hs
  | cons path paths ih =>
      rw [Conversation.loadFiles]
      split
      · exact hs
      · rename_i text _
        have hc := changes_loadFrom lisp depth .none lisp.nilValue (.ofSource text.toList) c.heap
        rw [← Interpreter.loadText] at hc
        split
        · rename_i e h hload
          rw [hload] at hc
          exact hs.of_changes hc
        · rename_i v h hload
          rw [hload] at hc
          exact ih { c with heap := h } (hs.of_changes hc)

/-- **Typing a program in is loading it.** Let a text be loaded without error by an interpreter
that is alone, as that of the prompt is (`solitary_loadFiles`), and let none of the units it is
cut into ask to exit. Then the prompt, given the
text, evaluates the same forms to the same values in the same order, prints one line for each
value, adds nothing to the reports, loses none of the contents of the text, and ends in the heap
that loading ends in. -/
theorem converse_units_of_loadText {lisp : Interpreter} {h h' : Heap} (hs : lisp.Solitary h)
    {depth : Nat} {held : Anchors} {source : List Char} {v : Value}
    (hload : lisp.loadText depth held source h = (.ok v, h'))
    (hexit : ∀ unit ∈ units source, Request.ofUnit unit ≠ .exit) (output : List String)
    (reports : List Report) :
    ∃ steps : List Evaluation,
      Runs lisp depth (fun last => held.hold [last]) lisp.nilValue (.ofSource source) h steps h' ∧
      RunsAll lisp depth (units source) h steps h' ∧
      Conversation.converse lisp depth ⟨h, output, reports⟩ (units source) =
        ⟨h', output ++ steps.map (fun step => step.value.text) ++ ["", "Exiting."], reports⟩ ∧
      (units source).flatMap contents = contents source := by
  obtain ⟨steps, hrun, _⟩ := loadFrom_eq_ok_iff.1 hload
  have halone := hs.alone
  -- a text that can be loaded is not left unfinished, so no unit is missing at its end
  have hcomplete : isIncomplete source = false := hrun.remains
  have hcontents := flatMap_contents_units hcomplete
  have hall : RunsAll lisp depth (units source) h steps h' :=
    Runs.runsAll halone (hrun.with_hold halone lisp.nilValue) hcontents.symm
      fun unit hunit => isIncomplete_of_mem_joinLines hunit
  exact ⟨steps, hrun, hall, converse_of_runsAll hall hexit output reports, hcontents⟩

/-- A string over two lines with a parenthesis in it, a comment, a blank line, and a last line
without an end. -/
theorem converse_units_of_loadText_numbers :
    let lisp := (Interpreter.fresh Heap.empty).1
    let h := (Interpreter.fresh Heap.empty).2
    let source := "12 \"a\n(b\" ; (\r\n\n-7".toList
    let v : Value := .number (h.next + 2) (.integer (-7))
    let h' : Heap := { h with next := h.next + 3 }
    lisp.Solitary h ∧ lisp.loadText 1 .none source h = (.ok v, h') ∧
      (∀ unit ∈ units source, Request.ofUnit unit ≠ .exit) ∧
      ∃ steps : List Evaluation,
        Runs lisp 1 (fun last => Anchors.none.hold [last]) lisp.nilValue (.ofSource source) h
          steps h' ∧
        RunsAll lisp 1 (units source) h steps h' ∧
        Conversation.converse lisp 1 ⟨h, [], []⟩ (units source) =
          ⟨h', [] ++ steps.map (fun step => step.value.text) ++ ["", "Exiting."], []⟩ ∧
        (units source).flatMap contents = contents source := by
  -- numbers and strings are their own values, whatever the interpreter knows
  have hany : ∀ (lisp : Interpreter) (h : Heap),
      lisp.loadText 1 .none "12 \"a\n(b\" ; (\r\n\n-7".toList h =
        (.ok (.number (h.next + 2) (.integer (-7))), { h with next := h.next + 3 }) := by
    intro lisp h
    have hitems : items "12 \"a\n(b\" ; (\r\n\n-7".toList =
        [⟨⟨0, 2⟩, .ok (.integer 12)⟩, ⟨⟨3, 9⟩, .ok (.string "a\n(b")⟩,
          ⟨⟨16, 18⟩, .ok (.integer (-7))⟩] := by decide +kernel
    rw [Interpreter.loadText, Reader.ofSource, hitems, loadFrom_eq_ok_iff]
    exact ⟨_, .step rfl rfl rfl (.step rfl rfl rfl (.step rfl rfl rfl (.done rfl))), rfl⟩
  have hunits : units "12 \"a\n(b\" ; (\r\n\n-7".toList =
      ["12 \"a\n(b\" ; (".toList, [], "-7".toList] := by decide +kernel
  have hexit : ∀ unit ∈ units "12 \"a\n(b\" ; (\r\n\n-7".toList,
      Request.ofUnit unit ≠ .exit := by
    rw [hunits]
    decide
  intro lisp h source v h'
  have hs : lisp.Solitary h := ⟨rfl, .refl⟩
  exact ⟨hs, hany lisp h, hexit, converse_units_of_loadText hs (hany lisp h) hexit [] []⟩

end SmallLisp
