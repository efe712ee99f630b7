import SmallLisp.Proofs.Form.Outline
import SmallLisp.Proofs.Prompt.Units

set_option autoImplicit false

/-! # Texts that can be completed

A text can be completed if it has a continuation with which all its forms are read. What stands in
the way is an error that no continuation repairs, and this can be seen from the text: complete its
last token, which is done by one of four patches, and read. If the only fault is then that the text
breaks off in the middle of a form, a form and the missing parentheses complete it; otherwise
nothing does.

A text that asks for more counts parentheses and passes over errors, so it may ask in vain. What
holds is the converse: a text that can be completed is complete or asks for more, unless it ends in
an integer that is too large, which a point behind it would make a float.
-/

namespace SmallLisp

open Pattern Rule

namespace Outline

/-- The beginning of what can be followed can be followed. -/
theorem exists_follow?_of_begins {o o' : Outline} {cs ds : List (Except LexicalError Token)}
    (hbegins : Begins cs ds) (h : o.follow? ds = some o') :
    ∃ missing, o.follow? cs = some missing := by
  have hfirst : ∀ {t t' : Token} {later : List (Except LexicalError Token)},
      o.next? t = o.next? t' → o.follow? (.ok t' :: later) = some o' →
      ∃ missing, o.follow? [.ok t] = some missing := by
    intro t t' later htokens hlater
    rw [follow?_cons] at hlater
    obtain ⟨next, hnext, _⟩ := Option.bind_eq_some_iff.1 hlater
    refine ⟨next, ?_⟩
    rw [follow?_cons, step?, htokens, show o.next? t' = some next from hnext]
    rfl
  cases hbegins with
  | nothing => exact ⟨o, rfl⟩
  | token t later => exact hfirst rfl h
  | @atom t t' ht ht' later =>
      exact hfirst ((next?_of_isAtom ht o).trans (next?_of_isAtom ht' o).symm) h

/-- **A text in the middle of a form can be completed**, on a new line. -/
theorem exists_completion {text : List Char} {missing : Outline}
    (h : start.follow? (contents text) = some missing) :
    ∃ more, start.follow? (contents (text ++ more)) = some start := by
  have hclosed : .error .unterminatedString ∉ contents text := not_mem_error_of_follow? h _
  have hline : StartsLine ('\n' :: missing.closers) := .inr (.inl ⟨_, rfl⟩)
  refine ⟨'\n' :: missing.closers, ?_⟩
  rw [contents_append_startsLine hline hclosed, follow?_append, h,
    contents_blank (by decide : Text.isSkipped '\n' = true)]
  exact follow?_closers missing

/-- **If there is a continuation, then one of the patches brings the text into the middle of a
form.** -/
theorem exists_patch {text more : List Char} {o : Outline}
    (h : start.follow? (contents (text ++ more)) = some o) :
    ∃ patch ∈ patches, (∃ missing, start.follow? (contents (text ++ patch)) = some missing) ∧
      (patch = [] ∨ Mendable (contents text)) := by
  obtain ⟨last, front, hlast, hends⟩ := exists_ending text
  rw [hends more, follow?_append] at h
  obtain ⟨reached, hreached, hrest⟩ := Option.bind_eq_some_iff.1 h
  obtain ⟨patch, hpatch, hbegins, hmend⟩ :=
    hlast.exists_patch fun e => not_mem_error_of_follow? hrest e
  obtain ⟨missing, hmissing⟩ := exists_follow?_of_begins hbegins hrest
  refine ⟨patch, hpatch, ⟨missing, ?_⟩, hmend.imp_right fun hlast => ?_⟩
  · rw [hends patch, follow?_append, hreached]
    exact hmissing
  · have hself := hends []
    rw [List.append_nil, List.append_nil] at hself
    rw [hself]
    exact hlast.append front

end Outline

/-- A text that can be followed to its end is complete or asks for more. -/
theorem isIncomplete_of_follow? (lisp : Interpreter) (pastErrors : Bool) (h : Heap)
    {source : List Char} {missing : Outline}
    (hsource : Outline.start.follow? (contents source) = some missing) :
    firstError? ((Reader.ofSource source).readAll lisp pastErrors h).1 = none ∨
      isIncomplete source = true := by
  have hunfinished := (isUnfinished_firstError?_iff lisp pastErrors h source).2 ⟨missing, hsource⟩
  cases hfirst : firstError? ((Reader.ofSource source).readAll lisp pastErrors h).1 with
  | none => exact .inl rfl
  | some e =>
      have he : e.isMissingEnd = true := by
        by_contra hend
        rw [Bool.not_eq_true] at hend
        have hnot := ParseError.isUnfinished_eq_false hend
        rw [hunfinished e hfirst] at hnot
        cases hnot
      exact .inr ((tells_readAll lisp pastErrors (Reader.ofSource source) h).2 e hfirst he)

/-- **Which texts can be completed.** There is a continuation with which all forms of a text are
read if and only if one of the patches leaves no fault but a form that is not finished. And a text
that can be completed is complete, asks for more, or ends in an integer that is too large. -/
theorem completable_iff_patched (lisp : Interpreter) (pastErrors : Bool) (h : Heap)
    (source : List Char) :
    ((∃ more, firstError? ((Reader.ofSource (source ++ more)).readAll lisp pastErrors h).1 = none) ↔
      ∃ patch ∈ patches, ∀ e,
        firstError? ((Reader.ofSource (source ++ patch)).readAll lisp pastErrors h).1 = some e →
          e.isUnfinished = true) ∧
    ((∃ more, firstError? ((Reader.ofSource (source ++ more)).readAll lisp pastErrors h).1 = none) →
      firstError? ((Reader.ofSource source).readAll lisp pastErrors h).1 = none ∨
        isIncomplete source = true ∨
        ∃ text, Matches integerPattern text ∧
          (contents source).getLast? = some (.error (.invalidNumber (String.ofList text)))) := by
  simp only [firstError?_eq_none_iff, isUnfinished_firstError?_iff]
  refine ⟨⟨?_, ?_⟩, ?_⟩
  · rintro ⟨more, hmore⟩
    obtain ⟨patch, hpatch, hmissing, _⟩ := Outline.exists_patch hmore
    exact ⟨patch, hpatch, hmissing⟩
  · rintro ⟨patch, _, missing, hmissing⟩
    obtain ⟨more, hmore⟩ := Outline.exists_completion hmissing
    exact ⟨patch ++ more, by rwa [← List.append_assoc]⟩
  · rintro ⟨more, hmore⟩
    obtain ⟨patch, _, ⟨missing, hmissing⟩, rfl | hopen | hlarge⟩ := Outline.exists_patch hmore
    · rw [List.append_nil] at hmissing
      have hasks := isIncomplete_of_follow? lisp pastErrors h hmissing
      rw [firstError?_eq_none_iff] at hasks
      exact hasks.imp_right .inl
    · -- a string without its end asks for more at once
      refine .inr (.inl ?_)
      by_contra hasks
      rw [Bool.not_eq_true, isIncomplete_eq_false_iff] at hasks
      exact hasks.1 hopen
    · exact .inr (.inr hlarge)

/-- In `'(a . "b\` the string waits for a character, the list for its end, and both can be had. -/
theorem completable_iff_patched_string :
    let lisp := (Interpreter.fresh Heap.empty).1
    let h := (Interpreter.fresh Heap.empty).2
    let source := "\x27(a . \"b\\".toList
    let first := fun text => firstError? ((Reader.ofSource text).readAll lisp false h).1
    (∃ patch ∈ patches, ∀ e, first (source ++ patch) = some e → e.isUnfinished = true) ∧
      (∃ more, first (source ++ more) = none) ∧
      (first source = none ∨ isIncomplete source = true ∨
        ∃ text, Matches integerPattern text ∧
          (contents source).getLast? = some (.error (.invalidNumber (String.ofList text)))) := by
  intro lisp h source first
  have hpatched : ∃ patch ∈ patches, ∀ e, first (source ++ patch) = some e →
      e.isUnfinished = true := by
    have hfirst : first (source ++ ['\\', '"']) = some (.unclosedList ⟨1, 2⟩) := by decide +kernel
    refine ⟨['\\', '"'], by simp [patches], fun e he => ?_⟩
    rw [hfirst] at he
    cases he
    rfl
  have hcompletable := (completable_iff_patched lisp false h source).1.2 hpatched
  exact ⟨hpatched, hcompletable, (completable_iff_patched lisp false h source).2 hcompletable⟩

/-- A text is beyond repair if with every continuation there is an error. -/
def BeyondRepair (source : List Char) : Prop :=
  ∀ (lisp : Interpreter) (pastErrors : Bool) (h : Heap) (more : List Char),
    firstError? ((Reader.ofSource (source ++ more)).readAll lisp pastErrors h).1 ≠ none

theorem beyondRepair_of_patches {source : List Char}
    (hlost : ∀ patch ∈ patches, Outline.start.follow? (contents (source ++ patch)) = none) :
    BeyondRepair source := by
  intro lisp pastErrors h more hnone
  rw [firstError?_eq_none_iff] at hnone
  obtain ⟨patch, hpatch, ⟨missing, hmissing⟩, _⟩ := Outline.exists_patch hnone
  rw [hlost patch hpatch] at hmissing
  cases hmissing

/-- **Text may ask for more in vain**: behind a text that is no token, a parenthesis that closes
nothing and a dot without an element before it, nothing that follows is of any help. -/
theorem incomplete_beyond_repair :
    (isIncomplete "(#".toList = true ∧ BeyondRepair "(#".toList) ∧
      (isIncomplete ") (".toList = true ∧ BeyondRepair ") (".toList) ∧
      isIncomplete "(.".toList = true ∧ BeyondRepair "(.".toList := by
  refine ⟨⟨?_, ?_⟩, ⟨?_, ?_⟩, ?_, ?_⟩
  · decide +kernel
  · exact beyondRepair_of_patches (by decide +kernel)
  · decide +kernel
  · exact beyondRepair_of_patches (by decide +kernel)
  · decide +kernel
  · exact beyondRepair_of_patches (by decide +kernel)

end SmallLisp
