import SmallLisp.Proofs.Form.Blame

set_option autoImplicit false

/-! # Where a report points

A span counts bytes, and the place that a report shows is looked up as if it counted characters.
The two agree as long as every character before the span takes one byte, and then the place shown
is the one where the span starts (`Report.ofDiagnostic_eq_of_oneByte`). Each further byte of a
character in front moves the place one character further on, and possibly out of the source
(`Report.ofFailure_parse_behind_lambda`).

What the place of an offset is can be said without walking along the text (`Location.Behind`): in
front of it are some whole lines and the beginning of one more.
-/

namespace SmallLisp

/-! ## The place behind a text -/

namespace Location

/-- No line ends inside `text` where `rest` follows. -/
def Unbroken (text rest : List Char) : Prop :=
  ∀ front c back, text = front ++ c :: back → breaksAfter c (back ++ rest) = false

/-- **Whole lines** of a text that goes on with `rest`: each has its one line end behind its last
character. -/
inductive AreLines (rest : List Char) : List (List Char) → Prop
  | nil : AreLines rest []
  | cons {body : List Char} {c : Char} {lines : List (List Char)}
      (hbody : Unbroken body (c :: (lines.flatten ++ rest)))
      (hend : breaksAfter c (lines.flatten ++ rest) = true) (hlines : AreLines rest lines) :
      AreLines rest ((body ++ [c]) :: lines)

/-- **The place behind `before`**, where `after` follows: on the line after the whole lines of
`before`, behind what it has of this line. -/
def Behind (before after : List Char) (place : Location) : Prop :=
  ∃ lines current, before = lines.flatten ++ current ∧ AreLines (current ++ after) lines ∧
    Unbroken current after ∧ place = ⟨lines.length + 1, current.length + 1⟩

theorem unbroken_nil (rest : List Char) : Unbroken [] rest := by
  intro front c back htext
  exact absurd htext.symm (List.append_ne_nil_of_right_ne_nil _ (List.cons_ne_nil _ _))

theorem unbroken_cons_iff {c : Char} {text rest : List Char} :
    Unbroken (c :: text) rest ↔ breaksAfter c (text ++ rest) = false ∧ Unbroken text rest := by
  constructor
  · intro h
    exact ⟨h [] c text rfl, fun front c' back htext => h (c :: front) c' back (by rw [htext]; rfl)⟩
  · rintro ⟨hfirst, htext⟩ front c' back heq
    cases front with
    | nil =>
        cases heq
        exact hfirst
    | cons _ front =>
        exact htext front c' back (List.cons.inj heq).2

/-- There is a place behind every text. -/
theorem exists_behind (before after : List Char) : ∃ place, Behind before after place := by
  induction before with
  | nil => exact ⟨_, [], [], rfl, .nil, unbroken_nil after, rfl⟩
  | cons c before ih =>
      obtain ⟨_, lines, current, rfl, hlines, hcurrent, _⟩ := ih
      cases hc : breaksAfter c (lines.flatten ++ (current ++ after)) with
      | true =>
          exact ⟨_, [c] :: lines, current, rfl, .cons (unbroken_nil _) hc hlines, hcurrent, rfl⟩
      | false =>
          -- the character is the first of the line that begins here
          cases hlines with
          | nil =>
              exact ⟨_, [], c :: current, rfl, .nil, unbroken_cons_iff.2 ⟨hc, hcurrent⟩, rfl⟩
          | @cons body c' lines hbody hend hlines =>
              refine ⟨_, (c :: body ++ [c']) :: lines, current, rfl, ?_, hcurrent, rfl⟩
              refine .cons (unbroken_cons_iff.2 ⟨?_, hbody⟩) hend hlines
              rwa [List.flatten_cons, List.append_assoc, List.append_assoc] at hc

/-! ## The place of an offset -/

theorem advance_of_unbroken {text rest : List Char} (htext : Unbroken text rest) (here : Location)
    (n : Nat) :
    here.advance (text.length + n) (text ++ rest) =
      advance ⟨here.line, here.column + text.length⟩ n rest := by
  induction text generalizing here with
  | nil => rw [List.length_nil, Nat.zero_add, List.nil_append, Nat.add_zero]
  | cons c text ih =>
      obtain ⟨hc, htext⟩ := unbroken_cons_iff.1 htext
      rw [List.length_cons, Nat.add_right_comm, List.cons_append, advance,
        if_neg (by rw [hc]; exact Bool.false_ne_true), ih htext]
      simp only [Nat.add_assoc, Nat.add_comm 1]

theorem advance_of_areLines {lines : List (List Char)} {rest : List Char}
    (hlines : AreLines rest lines) (line n : Nat) :
    advance ⟨line, 1⟩ (lines.flatten.length + n) (lines.flatten ++ rest) =
      advance ⟨line + lines.length, 1⟩ n rest := by
  induction hlines generalizing line with
  | nil => rw [List.flatten_nil, List.length_nil, Nat.zero_add, List.nil_append, List.length_nil,
      Nat.add_zero]
  | @cons body c lines hbody hend _ ih =>
      have hlength : ((body ++ [c]) :: lines).flatten.length + n =
          body.length + (lines.flatten.length + n + 1) := by
        simp only [List.flatten_cons, List.length_append, List.length_singleton]
        omega
      have htext : ((body ++ [c]) :: lines).flatten ++ rest =
          body ++ c :: (lines.flatten ++ rest) := by simp
      rw [hlength, htext, advance_of_unbroken hbody, advance, if_pos hend, ih, List.length_cons,
        Nat.add_right_comm, Nat.add_assoc]

theorem Behind.of?_eq {before after : List Char} {place : Location}
    (hplace : Behind before after place) : of? (before ++ after) before.length = some place := by
  obtain ⟨lines, current, rfl, hlines, hcurrent, rfl⟩ := hplace
  rw [of?, List.append_assoc, List.length_append, advance_of_areLines hlines]
  have hwalk := advance_of_unbroken hcurrent ⟨1 + lines.length, 1⟩ 0
  rw [Nat.add_zero] at hwalk
  rw [hwalk, advance, Nat.add_comm 1, Nat.add_comm 1]

theorem length_le_of_advance {here place : Location} {offset : Nat} {text : List Char}
    (hplace : here.advance offset text = some place) : offset ≤ text.length := by
  induction text generalizing here offset with
  | nil =>
      cases offset with
      | zero => exact Nat.le_refl _
      | succ offset => cases hplace
  | cons c text ih =>
      cases offset with
      | zero => exact Nat.zero_le _
      | succ offset =>
          rw [advance] at hplace
          split at hplace <;> exact Nat.succ_le_succ (ih hplace)

/-- **The place of an offset is the one behind the characters that it counts.** -/
theorem of?_eq_some_iff {source : List Char} {offset : Nat} {place : Location} :
    of? source offset = some place ↔
      ∃ before after, source = before ++ after ∧ before.length = offset ∧
        Behind before after place := by
  constructor
  · intro hplace
    obtain ⟨place', hbehind⟩ := exists_behind (source.take offset) (source.drop offset)
    have hlength : (source.take offset).length = offset :=
      List.length_take_of_le (length_le_of_advance hplace)
    have hplace' := hbehind.of?_eq
    rw [List.take_append_drop, hlength, hplace] at hplace'
    cases hplace'
    exact ⟨_, _, (List.take_append_drop offset source).symm, hlength, hbehind⟩
  · rintro ⟨before, after, rfl, rfl, hbehind⟩
    exact hbehind.of?_eq

end Location

/-! ## Characters of one byte -/

/-- Every character of the text takes one byte. -/
def Text.OneByte (text : List Char) : Prop := ∀ c ∈ text, c.utf8Size = 1

theorem Text.OneByte.byteLength_eq {text : List Char} (htext : OneByte text) :
    byteLength text = text.length := by
  induction text with
  | nil => rfl
  | cons c text ih =>
      rw [byteLength_cons, List.length_cons, htext c List.mem_cons_self,
        ih fun c' hc' => htext c' (List.mem_cons_of_mem c hc'), Nat.add_comm]

/-! ## What is shown -/

namespace Report

section

variable {before text after : List Char} {d : Diagnostic} {place : Location}

/-- **The place that is shown is behind as many characters as there are bytes before the span.** -/
theorem exists_behind_of_location {name shown : String} {source : List Char}
    (hshown : (ofDiagnostic name source d).location = some shown) :
    ∃ before after place, source = before ++ after ∧ before.length = d.span.start ∧
      Location.Behind before after place ∧ shown = place.text name := by
  unfold ofDiagnostic at hshown
  split at hshown
  · rename_i label place _ hplace
    split at hshown
    · cases hshown
    · obtain ⟨before, after, hsource, hlength, hbehind⟩ := Location.of?_eq_some_iff.1 hplace
      exact ⟨before, after, place, hsource, hlength, hbehind, (Option.some.inj hshown).symm⟩
  · cases hshown

/-- **A diagnostic is shown at the place where its span starts, if every character before it takes
one byte.** It is not shown at all when its own text takes so many bytes that its end, counted in
characters, is behind the source. -/
theorem ofDiagnostic_eq_of_oneByte {label : String}
    (hspan : d.span = ⟨Text.byteLength before, Text.byteLength (before ++ text)⟩)
    (hlabel : d.label = some label) (hone : Text.OneByte before)
    (hplace : Location.Behind before (text ++ after) place) (name : String) :
    ofDiagnostic name (before ++ (text ++ after)) d =
      if text.length + after.length + 1 < Text.byteLength text then bare d.message
      else ⟨d.message, some label, d.help, some (place.text name)⟩ := by
  have hstart : d.span.start = before.length := by rw [hspan, hone.byteLength_eq]
  have hstop : d.span.stop = before.length + Text.byteLength text := by
    rw [hspan, Text.byteLength_append, hone.byteLength_eq]
  have hbeyond : (d.span.start < d.span.stop ∧
      (before ++ (text ++ after)).length < d.span.stop - 1) ↔
        text.length + after.length + 1 < Text.byteLength text := by
    rw [hstart, hstop, List.length_append, List.length_append]
    omega
  rw [ofDiagnostic, hlabel, hstart, hplace.of?_eq]
  simp only
  rw [← hstart, if_congr hbeyond rfl rfl]

/-- A diagnostic whose text has one-byte characters only, like what is before it, is shown. -/
theorem ofDiagnostic_eq_of_oneByte_append {label : String}
    (hspan : d.span = ⟨Text.byteLength before, Text.byteLength (before ++ text)⟩)
    (hlabel : d.label = some label) (hone : Text.OneByte (before ++ text))
    (hplace : Location.Behind before (text ++ after) place) (name : String) :
    ofDiagnostic name (before ++ (text ++ after)) d =
      ⟨d.message, some label, d.help, some (place.text name)⟩ := by
  have hbefore : Text.OneByte before := fun c hc => hone c (List.mem_append_left text hc)
  have htext : Text.OneByte text := fun c hc => hone c (List.mem_append_right before hc)
  rw [ofDiagnostic_eq_of_oneByte hspan hlabel hbefore hplace,
    if_neg (by rw [htext.byteLength_eq]; omega)]

end

end Report

/-- Every error of reading has a label. -/
theorem Diagnostic.exists_label_ofParseError (source : List Char) (e : ParseError) :
    ∃ label, (ofParseError source e).label = some label := by
  cases e <;> exact ⟨_, rfl⟩

section

variable {source : List Char} {lisp : Interpreter} {h : Heap} {r : Reader} {e : ParseError}

/-- The diagnostic of an error that a reader finds covers a part of its source. -/
theorem Diagnostic.exists_marks_ofParseError (hr : r.On source)
    (hcall : Reader.Call lisp h r (.error e)) :
    ∃ text, (ofParseError source e).span.Marks source text := by
  cases hitem : e.item? with
  | none =>
      obtain ⟨expected, rfl⟩ := ParseError.item?_eq_none_iff.1 hitem
      exact ⟨[], source, [], by simp, rfl, by rw [List.append_nil]; rfl⟩
  | some item =>
      have hmem : item ∈ items source := hr.pending_suffix.mem (hcall.mem_of_item? hitem)
      obtain ⟨text, _, hmarks, _⟩ := exists_part_of_mem_items hmem
      exact ⟨text, span_ofParseError hitem source ▸ hmarks⟩

/-- **Every error of reading is about a part of the source, and is shown where this part starts** if
all characters up to its end take one byte. -/
theorem Report.ofFailure_parse_of_oneByte (hr : r.On source)
    (hcall : Reader.Call lisp h r (.error e)) (name : String) :
    let d := Diagnostic.ofParseError source e
    ∃ before text after place, source = before ++ (text ++ after) ∧
      d.span = ⟨Text.byteLength before, Text.byteLength (before ++ text)⟩ ∧
      Location.Behind before (text ++ after) place ∧
      (Text.OneByte (before ++ text) →
        ofFailure name source (.parse e) =
          ⟨d.message, d.label, d.help, some (place.text name)⟩) := by
  intro d
  obtain ⟨text, before, after, rfl, hstart, hstop⟩ := Diagnostic.exists_marks_ofParseError hr hcall
  obtain ⟨label, hlabel⟩ := Diagnostic.exists_label_ofParseError (before ++ (text ++ after)) e
  obtain ⟨place, hplace⟩ := Location.exists_behind before (text ++ after)
  have hspan : d.span = ⟨Text.byteLength before, Text.byteLength (before ++ text)⟩ :=
    congrArg₂ Span.mk hstart hstop
  refine ⟨before, text, after, place, rfl, hspan, hplace, fun hone => ?_⟩
  rw [hlabel]
  exact ofDiagnostic_eq_of_oneByte_append hspan hlabel hone hplace name

end

/-- Behind a character of two bytes a report points one character too far to the right: the
parenthesis that does not fit is at column 5. Behind three of them the place would be outside the
source, and nothing is said about where the error is. -/
theorem Report.ofFailure_parse_behind_lambda :
    let lisp := (Interpreter.fresh Heap.empty).1
    let h := (Interpreter.fresh Heap.empty).2
    let e (start : Nat) := ParseError.unexpectedToken ⟨⟨start, start + 1⟩, .rightParen⟩ .endOfInput
    (readText lisp "\"λ\" )".toList h).1 = .error (e 5) ∧
      Location.of? "\"λ\" )".toList 4 = some ⟨1, 5⟩ ∧
      (ofFailure "source" "\"λ\" )".toList (.parse (e 5))).location = some "source:1:6" ∧
      (readText lisp "\"λλλ\" )".toList h).1 = .error (e 9) ∧
      ofFailure "source" "\"λλλ\" )".toList (.parse (e 9)) =
        bare (Diagnostic.ofParseError "\"λλλ\" )".toList (e 9)).message := by
  decide +kernel

end SmallLisp
