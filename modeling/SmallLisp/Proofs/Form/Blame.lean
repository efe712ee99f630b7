import SmallLisp.Diagnostic
import SmallLisp.Proofs.Form.Unclosed
import SmallLisp.Proofs.Token.Alone

set_option autoImplicit false

/-! # Errors point at the text they are about

Every error of reading, except that of an input that ends too early, has an item of the source that
it complains about (`ParseError.item?`): the token that does not fit, the text that is no token, or
the parenthesis of a list that stays open. An item is made from the text under its span and from
nothing else, so this text read alone shows the same token or error again, and it is what the
diagnostic covers. The reader may be anywhere in the source, behind any number of errors
(`Reader.On`).
-/

namespace SmallLisp

open Reader

/-! ## The item behind an error -/

/-- **The item that an error complains about**; the end of the input has none. -/
def ParseError.item? : ParseError → Option Item
  | .unexpectedToken found _ => some found.item
  | .unexpectedEnd _ => none
  | .unclosedList opened => some ⟨opened, .ok .leftParen⟩
  | .lexical error => some ⟨error.span, .error error.content⟩
  | .invalidDot span => some ⟨span, .ok .dot⟩

theorem ParseError.item?_eq_none_iff {e : ParseError} :
    e.item? = none ↔ ∃ expected, e = .unexpectedEnd expected := by
  cases e <;> simp [ParseError.item?]

/-- The span of an error is the span of its item. -/
theorem ParseError.span?_eq_map (e : ParseError) : e.span? = e.item?.map Located.span := by
  cases e <;> rfl

/-- A diagnostic covers the item of its error. -/
theorem Diagnostic.span_ofParseError {e : ParseError} {item : Item} (he : e.item? = some item)
    (source : List Char) : (Diagnostic.ofParseError source e).span = item.span := by
  cases e with
  | unexpectedEnd expected => cases he
  | _ =>
      cases he
      rfl

/-! ## Errors of a reader are about its items -/

/-- A token that does not fit is what the error is about. -/
theorem Stage.Refuses.item?_eq {stage : Stage} {token : Located Token} {e : ParseError}
    (hrefuses : stage.Refuses token e) : e.item? = some token.item := by
  cases hrefuses <;> rfl

theorem item?_of_take {lisp : Interpreter} {token : Located Token} {h h' : Heap} {stage : Stage}
    {e : ParseError} (htake : stage.take lisp token h = (.failed e, h')) :
    e.item? = some token.item :=
  (Stage.refuses_of_take htake).1.item?_eq

/-- When the input ends, the error is about a list that is open, if it is about an item. -/
theorem Stage.exists_opened_of_atEnd {stage : Stage} {item : Item}
    (hitem : stage.atEnd.item? = some item) :
    ∃ opened ∈ stage.opened, item = ⟨opened, .ok .leftParen⟩ := by
  cases hend : stage.atEnd with
  | unclosedList opened =>
      rw [hend] at hitem
      have hhead := (Stage.atEnd_eq_unclosedList_iff.1 hend).2
      exact ⟨opened, List.mem_of_head? hhead, (Option.some.inj hitem).symm⟩
  | unexpectedEnd expected =>
      rw [hend] at hitem
      cases hitem
  | _ =>
      -- no other error is found at the end
      cases stage with
      | closing opened items tail stack => cases hend
      | form stack =>
          cases stack with
          | nil => cases hend
          | cons context stack => cases context <;> cases hend

section

variable {lisp : Interpreter} {h : Heap} {its : List Item} {out : Reading} {e : ParseError}
  {item : Item} {length : Nat}

/-- **What a run fails with is about one of its items.** -/
theorem Reader.RunsTo.mem_of_item? (hrun : RunsTo lisp length (.form []) h its out)
    (herr : out.result = .error e) (hitem : e.item? = some item) : item ∈ its := by
  cases hrun with
  | done hf htake => cases herr
  | @ended tokens last h₁ hf =>
      cases herr
      obtain ⟨opened, hopened, rfl⟩ := Stage.exists_opened_of_atEnd hitem
      exact List.mem_map_of_mem (hf.leads_start.mem hopened)
  | @failed tokens token rest last h₁ h₂ e hf htake =>
      cases herr
      cases (item?_of_take htake).symm.trans hitem
      simp
  | lexical hf =>
      cases herr
      cases hitem
      simp

/-- What a run leaves is the end of what it was given. -/
theorem Reader.RunsTo.pending_suffix {stage : Stage} (hrun : RunsTo lisp length stage h its out) :
    out.reader.pending <:+ its := by
  cases hrun with
  | @done tokens token rest _ _ _ _ _ _ => exact ⟨tokens.map Located.item ++ [token.item], by simp⟩
  | ended _ => exact List.nil_suffix
  | @failed tokens token rest _ _ _ _ _ _ =>
      exact ⟨tokens.map Located.item ++ [token.item], by simp⟩
  | @lexical tokens span e rest _ _ _ =>
      exact ⟨tokens.map Located.item ++ [⟨span, .error e⟩], by simp⟩

/-- A text as a whole fails like its first form, or at the item behind this form. -/
theorem readText_eq_error {source : List Char} (herr : (readText lisp source h).1 = .error e) :
    ((Reader.ofSource source).read lisp h).result = .error e ∨
      ∃ item ∈ ((Reader.ofSource source).read lisp h).reader.pending, e.item? = some item := by
  unfold readText at herr
  simp only at herr
  cases hresult : ((Reader.ofSource source).read lisp h).result with
  | error e' =>
      rw [hresult] at herr
      exact .inl herr
  | ok form =>
      right
      rw [hresult] at herr
      simp only at herr
      split at herr
      · cases herr
      · rename_i item rest hpending
        refine ⟨item, by rw [hpending]; exact List.mem_cons_self, ?_⟩
        obtain ⟨span, content⟩ := item
        cases content with
        | ok token =>
            cases herr
            rfl
        | error e' =>
            cases herr
            rfl

/-- **What a call fails with is about one of the items that were left.** -/
theorem Reader.Call.mem_of_item? {r : Reader} (hcall : Call lisp h r (.error e))
    (hitem : e.item? = some item) : item ∈ r.pending := by
  generalize hresult : (Except.error e : Except ParseError Value) = result at hcall
  have hread : ∀ r : Reader, (r.read lisp h).result = .error e → item ∈ r.pending :=
    fun r herr => (runsTo_run lisp r.length (.form []) r.pending h).mem_of_item? herr hitem
  cases hcall with
  | next hnext =>
      obtain ⟨_, rfl⟩ := next?_eq_some_iff.1 hnext
      exact hread r hresult.symm
  | read => exact hread r hresult.symm
  | text source =>
      rcases readText_eq_error hresult.symm with herr | ⟨item', hmem, hitem'⟩
      · exact hread _ herr
      · cases hitem.symm.trans hitem'
        exact (runsTo_run lisp _ (.form []) _ h).pending_suffix.mem hmem

end

/-! ## Readers on a source -/

/-- **A reader on a source**: one at the start of it, or one that has gone on from there, any
number of forms and errors, with whatever happened to the heap between them. -/
inductive Reader.On (source : List Char) : Reader → Prop
  | start : On source (.ofSource source)
  | next {r : Reader} {lisp : Interpreter} {h : Heap} {out : Reading} (hr : On source r)
      (hnext : r.next? lisp h = some out) : On source out.reader

theorem Reader.On.pending_suffix {source : List Char} {r : Reader} (hr : r.On source) :
    r.pending <:+ items source := by
  induction hr with
  | start => exact List.suffix_refl _
  | @next r lisp h out _ hnext ih =>
      obtain ⟨_, rfl⟩ := next?_eq_some_iff.1 hnext
      exact (runsTo_run lisp r.length (.form []) r.pending h).pending_suffix.trans ih

/-! ## The text under an error -/

/-- **What an error says about the text that it points at.** A list that stays open is shown by
its parenthesis and a misplaced dot by itself; a token, and what is no token, is found again when
the text is read alone; and the text that an error quotes is the one it points at. -/
def ParseError.IsAbout (text : List Char) : ParseError → Prop
  | .unexpectedToken found _ => items text = [⟨⟨0, Text.byteLength text⟩, .ok found.content⟩]
  | .unexpectedEnd _ => False
  | .unclosedList _ => text = ['(']
  | .invalidDot _ => text = ['.']
  | .lexical error =>
      items text = [⟨⟨0, Text.byteLength text⟩, .error error.content⟩] ∧
        ∀ quoted, error.content = .invalidNumber quoted ∨ error.content = .invalidSymbol quoted →
          quoted = String.ofList text

theorem Rule.Content.yield_eq_ok_iff {content : Rule.Content} {t : Token} :
    content.yield = [.ok t] ↔ content = .token t := by
  cases content <;> simp [Rule.Content.yield]

theorem Rule.Content.yield_eq_error_iff {content : Rule.Content} {e : LexicalError} :
    content.yield = [.error e] ↔ content = .error e := by
  cases content <;> simp [Rule.Content.yield]

/-- **An error is about the text of its item.** -/
theorem ParseError.isAbout_of_item? {e : ParseError} {item : Item} {text : List Char}
    (he : e.item? = some item) (halone : items text = [⟨⟨0, Text.byteLength text⟩, item.content⟩])
    {content : Rule.Content} (hyield : content.yield = [item.content])
    (htells : content.Tells text) : e.IsAbout text := by
  cases e with
  | unexpectedEnd expected => cases he
  | unexpectedToken found expected =>
      cases he
      exact halone
  | unclosedList opened =>
      cases he
      obtain rfl := Rule.Content.yield_eq_ok_iff.1 hyield
      exact htells
  | invalidDot span =>
      cases he
      obtain rfl := Rule.Content.yield_eq_ok_iff.1 hyield
      exact htells
  | lexical error =>
      cases he
      obtain rfl := Rule.Content.yield_eq_error_iff.1 hyield
      refine ⟨halone, fun quoted hquoted => ?_⟩
      rcases hquoted with hquoted | hquoted
      · rw [hquoted] at htells
        exact htells
      · rw [hquoted] at htells
        exact htells

/-- **Every error of reading points at the text that it complains about.** If the input ends too
early, the diagnostic covers the empty span behind the source. Any other error has the span of an
item of the source, which marks a text that is not empty, lies inside and begins and ends with a
character; the error is about this text, and the diagnostic covers it. -/
theorem errors_point_at_their_text {source : List Char} {lisp : Interpreter} {h : Heap}
    {r : Reader} {e : ParseError} (hr : r.On source) (hcall : Reader.Call lisp h r (.error e)) :
    (∀ expected, e = .unexpectedEnd expected →
      (Diagnostic.ofParseError source e).span =
        ⟨Text.byteLength source, Text.byteLength source⟩) ∧
    ((∀ expected, e ≠ .unexpectedEnd expected) →
      ∃ item ∈ items source, e.span? = some item.span ∧
        (item.span.start < item.span.stop ∧ item.span.stop ≤ Text.byteLength source ∧
          Text.IsBoundary source item.span.start ∧ Text.IsBoundary source item.span.stop) ∧
        (∃ text, item.span.Marks source text ∧ e.IsAbout text) ∧
        (Diagnostic.ofParseError source e).span = item.span) := by
  constructor
  · rintro expected rfl
    rfl
  · intro hend
    obtain ⟨item, hitem⟩ : ∃ item, e.item? = some item := by
      rw [← Option.ne_none_iff_exists', ne_eq, ParseError.item?_eq_none_iff]
      exact fun ⟨expected, he⟩ => hend expected he
    have hmem : item ∈ items source := hr.pending_suffix.mem (hcall.mem_of_item? hitem)
    obtain ⟨text, hne, hmarks, halone, content, hyield, htells⟩ := exists_part_of_mem_items hmem
    refine ⟨item, hmem, ?_, hmarks.bounds hne, ⟨text, hmarks, ?_⟩, ?_⟩
    · rw [ParseError.span?_eq_map, hitem]
      rfl
    · exact ParseError.isAbout_of_item? hitem halone hyield htells
    · exact Diagnostic.span_ofParseError hitem source

/-- Behind the error at `λ`, which is two bytes long, the list `(b . )` is read and its last
parenthesis does not fit. -/
theorem errors_point_at_their_text_behind_another :
    let lisp := (Interpreter.fresh Heap.empty).1
    let h := (Interpreter.fresh Heap.empty).2
    let source := "λ (b . )".toList
    let first := (Reader.ofSource source).read lisp h
    let e := ParseError.unexpectedToken ⟨⟨8, 9⟩, .rightParen⟩ .expression
    first.result = .error (.lexical ⟨⟨0, 2⟩, .invalidSymbol "λ"⟩) ∧ first.reader.On source ∧
      Reader.Call lisp first.heap first.reader (.error e) ∧
      ∃ item ∈ items source, e.span? = some item.span ∧
        (item.span.start < item.span.stop ∧ item.span.stop ≤ Text.byteLength source ∧
          Text.IsBoundary source item.span.start ∧ Text.IsBoundary source item.span.stop) ∧
        (∃ text, item.span.Marks source text ∧ e.IsAbout text) ∧
        (Diagnostic.ofParseError source e).span = item.span := by
  intro lisp h source first e
  have hfirst : first.result = .error (.lexical ⟨⟨0, 2⟩, .invalidSymbol "λ"⟩) := by decide +kernel
  have hon : first.reader.On source := .next .start (next?_eq_some_iff.2 ⟨by decide +kernel, rfl⟩)
  have hresult : (first.reader.read lisp first.heap).result = .error e := by decide +kernel
  have hcall : Reader.Call lisp first.heap first.reader (.error e) := hresult ▸ .read _
  exact ⟨hfirst, hon, hcall, (errors_point_at_their_text hon hcall).2 nofun⟩

end SmallLisp
