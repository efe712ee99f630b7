import SmallLisp.Prompt.Conversation
import SmallLisp.Proofs.Token.Contents

set_option autoImplicit false

/-! # Units of input cut a text between its tokens

Lines are joined to units while they are incomplete, so a cut is made where nothing is open: not
inside of a string, and with the counter of parentheses back at its start. This makes every cut
harmless. The contents of the units, one after the other, are the contents of the whole text
(`flatMap_contents_units`), as long as the text is not left unfinished at its end.

Whether a text is incomplete depends on its contents alone (`remains_eq_false_iff`).
-/

namespace SmallLisp

/-! ## The counter and the contents -/

namespace Pending

/-- Takes one more token or error into account. -/
def after (p : Pending) : Except LexicalError Token → Pending
  | .ok t => p.next t
  | .error _ => ⟨p.depth, false⟩

/-- Nothing remains open if no string does and the counter is back at its start. -/
theorem remains_eq_false_iff (p : Pending) (its : List Item) :
    p.remains its = false ↔
      .error .unterminatedString ∉ its.map Located.content ∧
        (its.map Located.content).foldl after p = .start := by
  induction its generalizing p with
  | nil =>
      obtain ⟨depth, dangling⟩ := p
      simp [remains, start]
  | cons item its ih =>
      obtain ⟨span, content⟩ := item
      rw [List.map_cons, List.foldl_cons, List.mem_cons, not_or]
      cases content with
      | ok t =>
          rw [remains, ih]
          exact ⟨fun hrest => ⟨⟨nofun, hrest.1⟩, hrest.2⟩, fun hall => ⟨hall.1.2, hall.2⟩⟩
      | error e =>
          cases e with
          | unterminatedString => exact ⟨nofun, fun hall => absurd rfl hall.1.1⟩
          | _ =>
              rw [remains, ih]
              exact ⟨fun hrest => ⟨⟨nofun, hrest.1⟩, hrest.2⟩, fun hall => ⟨hall.1.2, hall.2⟩⟩

end Pending

theorem isIncomplete_eq_false_iff (source : List Char) :
    isIncomplete source = false ↔
      .error .unterminatedString ∉ contents source ∧
        (contents source).foldl Pending.after .start = .start :=
  Pending.remains_eq_false_iff .start (items source)

namespace Prompt

/-! ## Lines -/

/-- A line with its ending put back. -/
def InputLine.whole (line : InputLine) : List Char := line.text ++ line.ending

theorem InputLine.whole_ended (line : List Char) :
    (InputLine.ended line).whole = line ++ ['\n'] := by
  unfold InputLine.ended InputLine.whole
  split
  · rename_i hlast
    obtain ⟨front, rfl⟩ : ∃ front, line = front ++ ['\r'] := List.getLast?_eq_some_iff.1 hlast
    simp
  · rfl

/-- **Nothing is lost** when the input is cut into lines. -/
theorem flatMap_whole_inputLines (line cs : List Char) :
    (inputLines line cs).flatMap InputLine.whole = line.reverse ++ cs := by
  induction cs generalizing line with
  | nil =>
      rw [inputLines]
      cases line with
      | nil => rfl
      | cons c line => simp [InputLine.whole]
  | cons c cs ih =>
      rw [inputLines]
      split
      · rename_i hc
        rw [List.flatMap_cons, InputLine.whole_ended, ih, hc]
        simp
      · rw [ih]
        simp

/-- Every line has a line end, but for the last, which may go without. -/
def Ended : List InputLine → Prop
  | [] => True
  | line :: lines =>
      (line.ending = ['\n'] ∨ line.ending = ['\r', '\n'] ∨ line.ending = [] ∧ lines = []) ∧
        Ended lines

theorem ended_inputLines (line cs : List Char) : Ended (inputLines line cs) := by
  induction cs generalizing line with
  | nil =>
      rw [inputLines]
      split
      · trivial
      · exact ⟨.inr (.inr ⟨rfl, rfl⟩), trivial⟩
  | cons c cs ih =>
      rw [inputLines]
      split
      · refine ⟨?_, ih []⟩
        unfold InputLine.ended
        split
        · exact .inr (.inl rfl)
        · exact .inl rfl
      · exact ih (c :: line)

/-- What follows the text of a line begins with a line end, which adds nothing. -/
theorem Ended.head {line : InputLine} {lines : List InputLine} (hends : Ended (line :: lines)) :
    StartsLine (line.ending ++ lines.flatMap InputLine.whole) ∧
      contents (line.ending ++ lines.flatMap InputLine.whole) =
        contents (lines.flatMap InputLine.whole) := by
  have hfeed : Text.isSkipped '\n' = true := by decide
  have hreturn : Text.isSkipped '\r' = true := by decide
  rcases hends.1 with hn | hrn | ⟨hnil, rfl⟩
  · rw [hn]
    exact ⟨.inr (.inl ⟨_, rfl⟩), contents_blank hfeed _⟩
  · rw [hrn]
    exact ⟨.inr (.inr ⟨_, rfl⟩), (contents_blank hreturn _).trans (contents_blank hfeed _)⟩
  · rw [hnil]
    exact ⟨.inl rfl, rfl⟩

/-! ## Units -/

/-- A text is as incomplete with a line end as it is without. -/
theorem isIncomplete_append_ending {line : InputLine} {lines : List InputLine}
    (hends : Ended (line :: lines)) {text : List Char} (htext : isIncomplete text = true) :
    isIncomplete (text ++ line.ending) = true := by
  have hstarts : StartsLine line.ending ∧ '"' ∉ line.ending ∧ contents line.ending = [] := by
    have hlast : Ended [line] := ⟨hends.1.imp_right (.imp_right fun hnil => ⟨hnil.1, rfl⟩), trivial⟩
    have hhead := hlast.head
    rw [List.flatMap_nil, List.append_nil, contents_nil] at hhead
    refine ⟨hhead.1, ?_, hhead.2⟩
    rcases hends.1 with hn | hrn | ⟨hnil, _⟩
    · rw [hn]
      decide
    · rw [hrn]
      decide
    · rw [hnil]
      exact List.not_mem_nil
  obtain ⟨hline, hquote, hnone⟩ := hstarts
  -- what is open is a string, which a line end does not close, or the line end adds nothing
  by_contra hfalse
  rw [Bool.not_eq_true, isIncomplete_eq_false_iff] at hfalse
  have hclosed : .error .unterminatedString ∉ contents text := fun hopen =>
    hfalse.1 (unterminated_append_startsLine hline hquote hopen)
  rw [contents_append_startsLine hline hclosed, hnone, List.append_nil,
    ← isIncomplete_eq_false_iff, htext] at hfalse
  cases hfalse

/-- **Units end where nothing is open.** -/
theorem isIncomplete_of_mem_joinLines {pending : List Char} {lines : List InputLine}
    {unit : List Char} (hunit : unit ∈ joinLines pending lines) : isIncomplete unit = false := by
  induction lines generalizing pending with
  | nil => cases hunit
  | cons line lines ih =>
      simp only [joinLines] at hunit
      split at hunit
      · exact ih hunit
      · rename_i hcomplete
        rcases List.mem_cons.1 hunit with rfl | hunit
        · exact Bool.not_eq_true _ ▸ hcomplete
        · exact ih hunit

/-- What follows a complete text is complete if the whole is. -/
theorem isIncomplete_of_contents_append {a b source : List Char}
    (hsource : contents source = contents a ++ contents b) (ha : isIncomplete a = false)
    (hs : isIncomplete source = false) : isIncomplete b = false := by
  rw [isIncomplete_eq_false_iff] at ha hs ⊢
  rw [hsource, List.foldl_append, ha.2, List.mem_append, not_or] at hs
  exact ⟨hs.1.2, hs.2⟩

/-- **Joining lines loses no contents**, if the text is complete as a whole. What is pending is
either nothing or incomplete. -/
theorem flatMap_contents_joinLines {lines : List InputLine} (hends : Ended lines)
    {pending : List Char} (hpending : pending = [] ∨ isIncomplete pending = true)
    (hcomplete : isIncomplete (pending ++ lines.flatMap InputLine.whole) = false) :
    (joinLines pending lines).flatMap contents =
      contents (pending ++ lines.flatMap InputLine.whole) := by
  induction lines generalizing pending with
  | nil =>
      rw [List.flatMap_nil, List.append_nil] at hcomplete
      -- unfinished text would be dropped here, but then the whole would be incomplete
      rcases hpending with rfl | hopen
      · exact contents_nil.symm
      · rw [hopen] at hcomplete
        cases hcomplete
  | cons line lines ih =>
      have hsplit : pending ++ (line :: lines).flatMap InputLine.whole =
          (pending ++ line.text) ++ (line.ending ++ lines.flatMap InputLine.whole) := by
        simp [InputLine.whole]
      rw [hsplit] at hcomplete ⊢
      simp only [joinLines]
      split
      · rename_i hopen
        rw [← List.append_assoc] at hcomplete ⊢
        exact ih hends.2 (.inr (isIncomplete_append_ending hends hopen)) hcomplete
      · rename_i hclosed
        rw [Bool.not_eq_true] at hclosed
        obtain ⟨hstarts, hending⟩ := hends.head
        -- the unit ends here, and what follows is read as if nothing stood before it
        have hcut := contents_append_startsLine hstarts
          ((isIncomplete_eq_false_iff _).1 hclosed).1
        rw [hending] at hcut
        have hrest := isIncomplete_of_contents_append hcut hclosed hcomplete
        rw [List.flatMap_cons, hcut, ih hends.2 (.inl rfl) hrest]
        rfl

theorem flatMap_contents_units {source : List Char} (hcomplete : isIncomplete source = false) :
    (units source).flatMap contents = contents source := by
  have hwhole : (inputLines [] source).flatMap InputLine.whole = source :=
    flatMap_whole_inputLines [] source
  have hjoin := flatMap_contents_joinLines (ended_inputLines [] source) (.inl rfl)
    (by rwa [List.nil_append, hwhole])
  rwa [List.nil_append, hwhole] at hjoin

/-! ## Blank units -/

theorem isWhitespace_of_trim_eq_nil {cs : List Char} (htrim : Text.trim cs = []) :
    ∀ c ∈ cs, Text.isWhitespace c = true := by
  have hend : ∀ c ∈ Text.trimStart cs, Text.isWhitespace c = true := by
    unfold Text.trim Text.trimEnd at htrim
    rw [List.reverse_eq_nil_iff, List.dropWhile_eq_nil_iff] at htrim
    exact fun c hc => htrim c (List.mem_reverse.2 hc)
  intro c hc
  have hparts : c ∈ cs.takeWhile Text.isWhitespace ++ cs.dropWhile Text.isWhitespace := by
    rwa [List.takeWhile_append_dropWhile]
  exact (List.mem_append.1 hparts).elim List.mem_takeWhile_imp (hend c)

/-- A blank text has no tokens, though it may have errors. -/
theorem contents_of_isWhitespace {cs : List Char} (hcs : ∀ c ∈ cs, Text.isWhitespace c = true)
    (t : Token) : .ok t ∉ contents cs := by
  induction cs with
  | nil => simp
  | cons c cs ih =>
      obtain ⟨hc, hcs⟩ := List.forall_mem_cons.1 hcs
      by_cases hskip : Text.isSkipped c = true
      · rw [contents_blank hskip]
        exact ih hcs
      · rw [contents_stray hc (Bool.not_eq_true _ ▸ hskip), List.mem_cons, not_or]
        exact ⟨nofun, ih hcs⟩

theorem trim_of_ofUnit {unit : List Char} (h : Request.ofUnit unit = .nothing) :
    Text.trim unit = [] := by
  unfold Request.ofUnit at h
  split at h
  · assumption
  · split at h <;> cases h

end Prompt

end SmallLisp
