import SmallLisp.Proofs.Form.Shifting
import SmallLisp.Proofs.Program.Runs
import SmallLisp.Proofs.Prompt.Units

set_option autoImplicit false

/-! # Loading one text behind another

Loading reads a form only after everything before it has been evaluated, so to load two texts with
a line end between them is to load the first and to go on with the second
(`loadFrom_append`). Two things tell this from loading the second text on its own: spans lie
further to the right, and the last value of the first text is still held while the first form of
the second is evaluated. Spans only show in errors, and reading commutes with moving them
(`run_shift`). What is held can only be seen in a heap with other packages.
-/

namespace SmallLisp

open Heap Reader

/-! ## Moving what has been loaded -/

/-- A failure with the spans in it moved. Only errors of reading have any. -/
def Failure.shift (n : Nat) : Failure → Failure
  | .parse e => .parse (e.shift n)
  | failure => failure

/-- An outcome with the spans in it moved. -/
def Outcome.shift (n : Nat) (out : Outcome) : Outcome := (out.1.mapError (Failure.shift n), out.2)

/-- Whether there is a value, and which, does not depend on places. -/
theorem toOption_mapError {α β γ : Type} (f : α → β) (x : Except α γ) :
    (x.mapError f).toOption = x.toOption := by
  cases x <;> rfl

/-! ## Loading from a reader -/

section

variable {lisp : Interpreter} {depth : Nat} {held : Anchors} {last v : Value}
  {r r' : Reader} {h h' : Heap} {form : Value}

/-- Spans do not show in errors of evaluation. -/
theorem shift_eval (n : Nat) (form : Value) :
    Outcome.shift n (lisp.eval depth held form h) = lisp.eval depth held form h := by
  simp only [Interpreter.eval, Interpreter.runIn]
  split
  · rfl
  · rename_i e s _
    cases e <;> rfl

/-- **Loading commutes with moving.** -/
theorem loadFrom_shift {n : Nat} (hp : r'.pending = r.pending.map (Located.shift n)) :
    lisp.loadFrom depth held last r' h = Outcome.shift n (lisp.loadFrom depth held last r h) := by
  induction hlen : r.pending.length using Nat.strongRecOn generalizing last r r' h with
  | _ size ih =>
      by_cases hne : r.pending = []
      · have hne' : r'.pending = [] := by rw [hp, hne, List.map_nil]
        rw [loadFrom_of_pending_nil hne, loadFrom_of_pending_nil hne']
        rfl
      · have hne' : r'.pending ≠ [] := by rwa [hp, ne_eq, List.map_eq_nil_iff]
        have hmoved : (r.read lisp h).Moved n (r'.read lisp h) := by
          have hrun := run_shift lisp n r.length r'.length (.form []) r.pending h
          rwa [← hp] at hrun
        cases hread : (r.read lisp h).result with
        | error e =>
            have hread' : (r'.read lisp h).result = .error (e.shift n) := by
              rw [hmoved.result, hread]
              rfl
            rw [loadFrom_of_read_error hne hread, loadFrom_of_read_error hne' hread', hmoved.heap]
            rfl
        | ok form =>
            have hread' : (r'.read lisp h).result = .ok form := by
              rw [hmoved.result, hread]
              rfl
            rw [loadFrom_eq_of_read hne hread, loadFrom_eq_of_read hne' hread', hmoved.heap]
            have heval := @shift_eval lisp depth (held.hold [last]) (r.read lisp h).heap n form
            revert heval
            rcases lisp.eval depth (held.hold [last]) form (r.read lisp h).heap with
              ⟨_ | v, h₁⟩
            · exact Eq.symm
            · have hshort := pending_next?_length
                (next?_eq_some_iff.2 ⟨hne, rfl⟩ : r.next? lisp h = some (r.read lisp h))
              exact fun _ => ih _ (hlen ▸ hshort) hmoved.pending rfl

/-- **To load what lies behind a run is to go on from its last value.** -/
theorem Runs.loadFrom_append {steps : List Evaluation} {back : Reader} {n : Nat}
    (hrun : Runs lisp depth (fun last => held.hold [last]) last r h steps h')
    (hp : r'.pending = r.pending ++ back.pending.map (Located.shift n))
    (hlen : r'.length = r.length) :
    lisp.loadFrom depth held last r' h =
      Outcome.shift n (lisp.loadFrom depth held ((steps.map Evaluation.value).getLastD last)
        back h') := by
  induction hrun generalizing r' with
  | @done last r h hnext =>
      rw [next?_eq_none_iff.1 hnext, List.nil_append] at hp
      exact loadFrom_shift hp
  | @step last r h h₁ h₂ out form v steps hnext hform heval _ ih =>
      obtain ⟨hne, rfl⟩ := next?_eq_some_iff.1 hnext
      -- the form is complete before the items behind it are looked at
      have hread : r'.read lisp h = ⟨(r.read lisp h).result,
          ⟨(r.read lisp h).reader.pending ++ back.pending.map (Located.shift n),
            (r.read lisp h).reader.position, (r.read lisp h).reader.length⟩,
          (r.read lisp h).heap⟩ := by
        rcases (runsTo_run lisp r.length (.form []) r.pending h).append
          (back.pending.map (Located.shift n)) with ⟨tokens, last', h₃, htokens, hf⟩ | happ
        · have herr := run_of_feeds hf r.length []
          rw [List.append_nil, ← htokens] at herr
          rw [Reader.read, herr] at hform
          cases hform
        · rwa [Reader.read, hp, hlen]
      have hne' : r'.pending ≠ [] := by
        rw [hp]
        exact fun hnil => hne (List.append_eq_nil_iff.1 hnil).1
      rw [loadFrom_eq_of_read hne' (by rw [hread]; exact hform), hread]
      simp only [heval]
      rw [List.map_cons, List.getLastD_cons]
      exact ih rfl rfl

/-- Where an interpreter is alone it does not matter from which value loading goes on, unless
there is nothing to load. -/
theorem loadFrom_indifferent (halone : lisp.Alone h) (hne : r.pending ≠ []) (last last' : Value) :
    lisp.loadFrom depth held last r h = lisp.loadFrom depth held last' r h := by
  cases hread : (r.read lisp h).result with
  | error e => rw [loadFrom_of_read_error hne hread, loadFrom_of_read_error hne hread]
  | ok form =>
      have halone' := halone.of_changes (r.changes_read lisp h)
      rw [loadFrom_eq_of_read hne hread, loadFrom_eq_of_read hne hread,
        Interpreter.eval_indifferent halone' depth (held.hold [last]) (held.hold [last']) form]

/-! ## Texts of one form -/

/-- **A text that consists of exactly one form.** -/
def IsForm (source : List Char) : Prop :=
  ∃ tokens d, tokenize source = .ok tokens ∧ Derives (tokens.map Located.content) d

theorem IsForm.yields {source : List Char} (hb : IsForm source) (hs : lisp.Sound h) :
    ∃ form, (Reader.ofSource source).Yields lisp h (items source).length form := by
  obtain ⟨tokens, d, htokens, hd⟩ := hb
  have hitems := items_of_tokenize htokens
  have hlen : (items source).length = tokens.length := by rw [hitems, List.length_map]
  rw [← List.take_length (l := tokens)] at hd
  obtain ⟨form, hy, _⟩ := yields_of_derives hs (r := .ofSource source) hitems (Nat.le_refl _) hd
  exact ⟨form, hlen ▸ hy⟩

/-- **To load a single form is to evaluate it** while the value before it is held. -/
theorem IsForm.exists_eval {source : List Char} (hb : IsForm source) (hs : lisp.Sound h) :
    ∃ form h₁, (∀ a, lisp.evalText depth a source h = lisp.eval depth a form h₁) ∧
      lisp.loadFrom depth held last (Reader.ofSource source) h =
        lisp.eval depth (held.hold [last]) form h₁ := by
  obtain ⟨form, hy⟩ := hb.yields hs
  have hrest : ((Reader.ofSource source).read lisp h).reader.pending = [] := by
    rw [hy.2.2]
    exact List.drop_length
  have hne : (Reader.ofSource source).pending ≠ [] := by
    obtain ⟨tokens, d, htokens, hd⟩ := hb
    intro hnil
    have hempty : tokens = [] :=
      List.map_eq_nil_iff.1 ((items_of_tokenize htokens).symm.trans hnil)
    rw [hempty] at hd
    cases hd
  have hread : readText lisp source h =
      (.ok form, ((Reader.ofSource source).read lisp h).heap) := by
    simp only [readText, hy.1, hrest]
  refine ⟨form, ((Reader.ofSource source).read lisp h).heap, fun a => ?_, ?_⟩
  · rw [Interpreter.evalText, hread]
  · rw [loadFrom_eq_of_read hne hy.1]
    rcases lisp.eval depth (held.hold [last]) form _ with ⟨_ | v, h₁⟩
    · rfl
    · exact loadFrom_of_pending_nil hrest

theorem evalText_indifferent (halone : lisp.Alone h) (a b : Anchors) (source : List Char) :
    lisp.evalText depth a source h = lisp.evalText depth b source h := by
  have hread := changes_readText lisp source h
  unfold Interpreter.evalText
  split
  · rfl
  · rename_i form h₁ heq
    rw [heq] at hread
    exact Interpreter.eval_indifferent (halone.of_changes hread) depth a b form

end

/-! ## Loading a concatenation -/

/-- What has been loaded leaves no string open. -/
theorem not_unterminated_of_loadText {lisp : Interpreter} {depth : Nat} {held : Anchors}
    {source : List Char} {h h' : Heap} {v : Value}
    (hload : lisp.loadText depth held source h = (.ok v, h')) :
    .error .unterminatedString ∉ contents source := by
  obtain ⟨steps, hrun, _⟩ := loadFrom_eq_ok_iff.1 hload
  have hclosed : Pending.start.remains (items source) = false := hrun.remains
  exact ((Pending.remains_eq_false_iff _ _).1 hclosed).1

/-- Loading goes on behind a text that has been loaded. -/
theorem loadText_append_line {lisp : Interpreter} {depth : Nat} {held : Anchors}
    {a : List Char} {h h' : Heap} {v : Value}
    (hload : lisp.loadText depth held a h = (.ok v, h')) (b : List Char) :
    lisp.loadText depth held (a ++ '\n' :: b) h =
      Outcome.shift (Text.byteLength a + 1)
        (lisp.loadFrom depth held v (Reader.ofSource b) h') := by
  have hitems := items_append_line (not_unterminated_of_loadText hload) b
  obtain ⟨steps, hrun, rfl⟩ := loadFrom_eq_ok_iff.1 hload
  -- the same run, on a reader that knows of the longer text
  have hlong : Runs lisp depth (fun last => held.hold [last]) lisp.nilValue
      ⟨items a, 0, Text.byteLength (a ++ '\n' :: b)⟩ h steps h' := hrun.alike rfl
  exact hlong.loadFrom_append hitems rfl

/-- **Loading composes over concatenation.** If a text `a` can be loaded, then to load `a`, a line
end and `b` is to load `a` and to go on with `b` from the state and the value that it leaves, with
every span in an error of reading moved by the length of `a` and the line end. That value is the
result if there is no form in `b`; if `b` is one form, the outcome is that of evaluating it while
the value is held. Where no other package has been made, nothing can be seen of what is held, and
the outcome is that of loading `b`, or of evaluating it, on its own. -/
theorem loadText_concatenation {lisp : Interpreter} {depth : Nat} {held : Anchors} {h h' : Heap}
    {a b : List Char} {v : Value} (hr : lisp.Reachable h)
    (hload : lisp.loadText depth held a h = (.ok v, h')) :
    lisp.loadText depth held (a ++ '\n' :: b) h =
        Outcome.shift (Text.byteLength a + 1)
          (lisp.loadFrom depth held v (Reader.ofSource b) h') ∧
      (items b = [] → lisp.loadText depth held (a ++ '\n' :: b) h = (.ok v, h')) ∧
      (IsForm b → lisp.loadText depth held (a ++ '\n' :: b) h =
        lisp.evalText depth (held.hold [v]) b h') ∧
      (lisp.Alone h →
        (items b ≠ [] → lisp.loadText depth held (a ++ '\n' :: b) h =
          Outcome.shift (Text.byteLength a + 1) (lisp.loadText depth held b h')) ∧
        (IsForm b → lisp.loadText depth held (a ++ '\n' :: b) h =
          lisp.evalText depth held b h')) := by
  have hgoes := loadText_append_line hload b
  have hchanges : Changes h h' := by
    have hc := changes_loadFrom lisp depth held lisp.nilValue (Reader.ofSource a) h
    rwa [show lisp.loadFrom depth held lisp.nilValue (Reader.ofSource a) h = (.ok v, h')
      from hload] at hc
  have hsound : lisp.Sound h' := hr.sound.of_changes hchanges
  have hform : IsForm b → lisp.loadText depth held (a ++ '\n' :: b) h =
      lisp.evalText depth (held.hold [v]) b h' := by
    intro hb
    obtain ⟨form, h₁, heval, hfrom⟩ := hb.exists_eval hsound
    rw [hgoes, hfrom, shift_eval, heval]
  refine ⟨hgoes, fun hnone => ?_, hform, fun halone => ⟨fun hsome => ?_, fun hb => ?_⟩⟩
  · rw [hgoes, loadFrom_of_pending_nil hnone]
    rfl
  · rw [hgoes, loadFrom_indifferent (halone.of_changes hchanges) hsome v lisp.nilValue]
    rfl
  · rw [hform hb, evalText_indifferent (halone.of_changes hchanges) _ held]

/-- The theorem on a text that ends in a comment and one that ends inside of a list, whose opening
parenthesis is reported where it stands in the whole. -/
theorem loadText_concatenation_unclosed :
    let made := Interpreter.fresh Heap.empty
    let a := "'x ; no form".toList
    let first := made.1.loadText 3 .none a made.2
    (∃ v, first.1 = .ok v) ∧
      made.1.loadText 3 .none (a ++ '\n' :: "(car ".toList) made.2 =
        Outcome.shift 13 (made.1.loadText 3 .none "(car ".toList first.2) := by
  intro made a first
  have hfound : first.1.toOption.isSome = true := by decide +kernel
  obtain ⟨v, hv⟩ : ∃ v, first.1 = .ok v := by
    cases hfirst : first.1 with
    | ok v => exact ⟨v, rfl⟩
    | error e =>
        rw [hfirst] at hfound
        cases hfound
  have hb : items "(car ".toList ≠ [] := by decide +kernel
  have halone : made.1.Alone made.2 := Interpreter.Solitary.alone ⟨rfl, .refl⟩
  exact ⟨⟨v, hv⟩, ((loadText_concatenation (.fresh Heap.empty rfl) (Prod.ext hv rfl)).2.2.2
    halone).1 hb⟩

/-! ## Where a held value shows -/

/-- A state in which the value of `y` is a symbol of another package, and nothing but the variable
`p` keeps that package alive. -/
def lendingState : Interpreter × Heap :=
  let made := Interpreter.fresh Heap.empty
  let package := made.2.makePackage "OTHER"
  let symbol := package.2.intern package.1.id "y"
  let named := made.1.define symbol.2 "y" (.symbol symbol.1)
  (made.1, made.1.define named "p" package.1)

/-- Takes the package out of `p` and has it as its value. -/
def takingPackage : List Char := "(let ((q p)) (setq p nil) q)".toList

/-- Asks twice for the package of the symbol. -/
def askingTwice : List Char :=
  "(setq r (null (symbol-package y))) (list r (null (symbol-package y)))".toList

theorem reachable_lendingState : lendingState.1.Reachable lendingState.2 := by
  have hmade : (Interpreter.fresh Heap.empty).1.Reachable (Interpreter.fresh Heap.empty).2 :=
    .fresh Heap.empty rfl
  have hsymbol := (hmade.package "OTHER").change
    (.intern _ ((Interpreter.fresh Heap.empty).2.makePackage "OTHER").1.id "y")
  exact (hsymbol.of_changes (Interpreter.changes_define _ _ _ _)).of_changes
    (Interpreter.changes_define _ _ _ _)

/-- **A text does not always load as it does on its own behind another one**, whether its caller
still has the last value of the first text or not. This value is held until the next one is there
and not any longer, so a package that it keeps alive is there at the first question and gone at
the second. -/
theorem loadText_shows_last_value :
    ¬ ∀ (lisp : Interpreter) (depth : Nat) (held : Anchors) (h h' : Heap) (a b : List Char)
      (v : Value), lisp.Reachable h → items b ≠ [] →
      lisp.loadText depth held a h = (.ok v, h') →
      lisp.loadText depth held (a ++ '\n' :: b) h =
          Outcome.shift (Text.byteLength a + 1) (lisp.loadText depth held b h') ∨
        lisp.loadText depth held (a ++ '\n' :: b) h =
          Outcome.shift (Text.byteLength a + 1) (lisp.loadText depth (held.hold [v]) b h') := by
  intro hall
  have hfirst : (lendingState.1.loadText 9 .none takingPackage lendingState.2).1 =
      .ok (.package (Interpreter.fresh Heap.empty).2.next "OTHER") := by decide +kernel
  have htexts :
      let h' := (lendingState.1.loadText 9 .none takingPackage lendingState.2).2
      let v := Value.package (Interpreter.fresh Heap.empty).2.next "OTHER"
      (lendingState.1.loadText 9 .none (takingPackage ++ '\n' :: askingTwice)
        lendingState.2).1.toOption.map Value.text = some "(nil t)" ∧
      (lendingState.1.loadText 9 .none askingTwice h').1.toOption.map Value.text =
        some "(t t)" ∧
      (lendingState.1.loadText 9 (.hold .none [v]) askingTwice h').1.toOption.map Value.text =
        some "(nil nil)" := by decide +kernel
  obtain ⟨hwhole, halone, hheld⟩ := htexts
  have hb : items askingTwice ≠ [] := by decide +kernel
  rcases hall _ 9 .none _ _ takingPackage askingTwice _ reachable_lendingState hb
    (Prod.ext hfirst rfl) with heq | heq
  · rw [heq, Outcome.shift, toOption_mapError, halone] at hwhole
    exact absurd hwhole (by decide)
  · rw [heq, Outcome.shift, toOption_mapError, hheld] at hwhole
    exact absurd hwhole (by decide)

end SmallLisp
