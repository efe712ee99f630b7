import SmallLisp.Proofs.Form.Acceptance
import SmallLisp.Proofs.Form.Incomplete
import SmallLisp.Proofs.Form.Steps

set_option autoImplicit false

/-! # Lists that are never closed

When the input ends inside of lists, the error names one of them. This file says which one, in
terms of the tokens alone: the list is the innermost one, so behind its parenthesis all others are
balanced (`Balanced`). The stack of the reader holds the places where the open lists begin, and
the tokens taken so far lead into these lists one after the other (`Leads`): between two of the
parentheses that are still open there are balanced tokens only.
-/

namespace SmallLisp

open Reader

/-! ## Balanced tokens -/

/-- Whether a token is a parenthesis. -/
def Token.isParen : Token → Bool
  | .leftParen => true
  | .rightParen => true
  | _ => false

theorem Token.left_ne_right : Token.leftParen ≠ .rightParen := nofun

theorem Token.ne_of_not_isParen {t : Token} (ht : t.isParen = false) :
    t ≠ .leftParen ∧ t ≠ .rightParen := by
  constructor <;>
  · rintro rfl
    cases ht

theorem Token.not_isParen_of_isAtom {t : Token} (ht : t.isAtom = true) : t.isParen = false := by
  cases t <;> first | rfl | cases ht

/-- **Tokens with balanced parentheses**: each one that closes has its partner before it, and
none stays open. -/
inductive Balanced : List Token → Prop
  | nil : Balanced []
  | other {t : Token} {ts : List Token} (ht : t.isParen = false) (hts : Balanced ts) :
      Balanced (t :: ts)
  | group {inner later : List Token} (hinner : Balanced inner) (hlater : Balanced later) :
      Balanced (.leftParen :: (inner ++ .rightParen :: later))

namespace Balanced

open Token

variable {ts us front after inner later : List Token}

theorem append (hts : Balanced ts) (hus : Balanced us) : Balanced (ts ++ us) := by
  induction hts with
  | nil => exact hus
  | other ht _ ih => exact .other ht ih
  | group hinner _ _ ih =>
      rw [List.cons_append, List.append_assoc, List.cons_append]
      exact .group hinner ih

/-- As many parentheses close as open. -/
theorem count_eq (hts : Balanced ts) : ts.count .rightParen = ts.count .leftParen := by
  induction hts with
  | nil => rfl
  | other ht _ ih =>
      obtain ⟨hleft, hright⟩ := ne_of_not_isParen ht
      rw [List.count_cons_of_ne hright, List.count_cons_of_ne hleft, ih]
  | group _ _ ihinner ihlater =>
      simp only [List.count_append, List.count_cons_self, List.count_cons_of_ne left_ne_right,
        List.count_cons_of_ne left_ne_right.symm]
      omega

/-- At no point have more parentheses been closed than opened. -/
theorem count_le (hts : Balanced ts) (hsplit : ts = front ++ after) :
    front.count .rightParen ≤ front.count .leftParen := by
  induction hts generalizing front after with
  | nil =>
      rw [(List.append_eq_nil_iff.1 hsplit.symm).1]
      exact Nat.le_refl _
  | other ht _ ih =>
      cases front with
      | nil => exact Nat.le_refl _
      | cons t' front =>
          obtain ⟨rfl, hrest⟩ := List.cons.inj hsplit
          obtain ⟨hleft, hright⟩ := ne_of_not_isParen ht
          rw [List.count_cons_of_ne hright, List.count_cons_of_ne hleft]
          exact ih hrest
  | group hinner _ ihinner ihlater =>
      cases front with
      | nil => exact Nat.le_refl _
      | cons t front =>
          obtain ⟨rfl, hrest⟩ := List.cons.inj hsplit
          have hequal := hinner.count_eq
          rw [List.count_cons_of_ne left_ne_right, List.count_cons_self]
          -- the front ends before the group does, just before its last parenthesis, or behind it
          rcases List.append_eq_append_iff.1 hrest with ⟨m, rfl, hm⟩ | ⟨m, rfl, _⟩
          · rw [List.count_append, List.count_append]
            cases m with
            | nil =>
                rw [List.count_nil, List.count_nil]
                omega
            | cons t m =>
                obtain ⟨rfl, hlater⟩ := List.cons.inj hm
                have hle := ihlater hlater
                rw [List.count_cons_self, List.count_cons_of_ne left_ne_right.symm]
                omega
          · have hle := ihinner rfl
            omega

/-- Balanced tokens do not go on to be balanced with a parenthesis that closes a list around
them. -/
theorem not_closed (hinner : Balanced inner) : ¬ Balanced (inner ++ .rightParen :: later) := by
  intro hall
  have hsplit : inner ++ .rightParen :: later = (inner ++ [.rightParen]) ++ later := by simp
  have hle := hall.count_le hsplit
  have hequal := hinner.count_eq
  rw [List.count_append, List.count_append, List.count_cons_self,
    List.count_cons_of_ne left_ne_right.symm, List.count_nil, List.count_nil] at hle
  omega

/-- Whatever opens in balanced tokens is closed in them. -/
theorem exists_close (hts : Balanced ts) (hsplit : ts = front ++ .leftParen :: after) :
    ∃ inner later, after = inner ++ .rightParen :: later ∧ Balanced inner := by
  induction hts generalizing front after with
  | nil => simp at hsplit
  | @other t ts ht _ ih =>
      cases front with
      | nil =>
          obtain ⟨rfl, _⟩ := List.cons.inj hsplit
          cases ht
      | cons t' front => exact ih (List.cons.inj hsplit).2
  | @group inner later hinner _ ihinner ihlater =>
      cases front with
      | nil => exact ⟨inner, later, (List.cons.inj hsplit).2.symm, hinner⟩
      | cons t front =>
          rcases List.append_eq_append_iff.1 (List.cons.inj hsplit).2 with
            ⟨m, rfl, hm⟩ | ⟨m, hm, hrest⟩
          · cases m with
            | nil => cases hm
            | cons t m => exact ihlater (List.cons.inj hm).2
          · cases m with
            | nil => cases hrest
            | cons t m =>
                obtain ⟨rfl, rfl⟩ := List.cons.inj hrest
                obtain ⟨inner', later', rfl, hinner'⟩ := ihinner hm
                exact ⟨inner', later' ++ .rightParen :: later, by simp, hinner'⟩

end Balanced

/-! ## Tokens that lead into lists -/

/-- **Tokens lead into lists** that are still open, given by the places where they were opened,
innermost first. -/
inductive Leads : List (Located Token) → List Span → Prop
  | top {ts : List (Located Token)} (hts : Balanced (ts.map Located.content)) : Leads ts []
  | list {front ts : List (Located Token)} {span : Span} {spans : List Span}
      (hfront : Leads front spans) (hts : Balanced (ts.map Located.content)) :
      Leads (front ++ ⟨span, .leftParen⟩ :: ts) (span :: spans)

/-- The innermost list that tokens leave open was opened at a span: behind its parenthesis all
others are balanced. -/
def OpenedAt (span : Span) (tokens : List (Located Token)) : Prop :=
  ∃ front after, tokens = front ++ ⟨span, .leftParen⟩ :: after ∧
    Balanced (after.map Located.content)

/-- Tokens that end inside of a list: one of their parentheses is never closed. -/
def EndsInList (tokens : List (Located Token)) : Prop :=
  ∃ front opening after, tokens = front ++ opening :: after ∧ opening.content = .leftParen ∧
    ¬ ∃ inner later, after.map Located.content = inner ++ .rightParen :: later ∧ Balanced inner

namespace Leads

variable {ts us : List (Located Token)} {span : Span} {spans : List Span}

theorem append (hts : Leads ts spans) (hus : Balanced (us.map Located.content)) :
    Leads (ts ++ us) spans := by
  cases hts with
  | top hts =>
      refine .top ?_
      rw [List.map_append]
      exact hts.append hus
  | list hfront hts =>
      rw [List.append_assoc, List.cons_append]
      refine .list hfront ?_
      rw [List.map_append]
      exact hts.append hus

theorem closed {token : Located Token} (hts : Leads ts (span :: spans))
    (htoken : token.content = .rightParen) : Leads (ts ++ [token]) spans := by
  cases hts with
  | list hfront hts =>
      rw [List.append_assoc]
      refine hfront.append ?_
      rw [List.cons_append, List.map_cons, List.map_append, List.map_singleton, htoken]
      exact .group hts .nil

theorem mem (hts : Leads ts spans) (hspan : span ∈ spans) : ⟨span, .leftParen⟩ ∈ ts := by
  induction hts with
  | top _ => cases hspan
  | list _ _ ih =>
      rcases List.mem_cons.1 hspan with rfl | hspan
      · simp
      · exact List.mem_append_left _ (ih hspan)

theorem openedAt (hts : Leads ts (span :: spans)) : OpenedAt span ts := by
  cases hts with
  | list _ hts => exact ⟨_, _, rfl, hts⟩

theorem balanced (hts : Leads ts []) : Balanced (ts.map Located.content) := by
  cases hts with
  | top hts => exact hts

/-- Tokens that end inside of a list lead into one. -/
theorem ne_nil (hts : Leads ts spans) (hends : EndsInList ts) : spans ≠ [] := by
  rintro rfl
  obtain ⟨front, opening, after, rfl, hopening, hopen⟩ := hends
  have hbalanced := hts.balanced
  rw [List.map_append, List.map_cons, hopening] at hbalanced
  exact hopen (hbalanced.exists_close rfl)

/-- There is only one innermost list. -/
theorem head?_eq (hts : Leads ts spans) (hopened : OpenedAt span ts) :
    spans.head? = some span := by
  obtain ⟨front, after, hsplit, hafter⟩ := hopened
  -- a parenthesis that opens in front of balanced tokens, and is itself among balanced ones
  have habsurd : ∀ {us vs ws : List (Located Token)} {s : Span}, us = vs ++ ⟨s, .leftParen⟩ :: ws →
      Balanced (us.map Located.content) → ¬ Balanced (ws.map Located.content) := by
    rintro _ vs ws s rfl hus hws
    rw [List.map_append, List.map_cons] at hus
    obtain ⟨inner, later, hclose, hinner⟩ := hus.exists_close rfl
    rw [hclose] at hws
    exact hinner.not_closed hws
  cases hts with
  | top hts => exact absurd hafter (habsurd hsplit hts)
  | @list front' ts' span' spans' _ hts =>
      rcases List.append_eq_append_iff.1 hsplit with ⟨m, _, hm⟩ | ⟨m, _, hm⟩
      · cases m with
        | nil =>
            cases hm
            rfl
        | cons t m => exact absurd hafter (habsurd (List.cons.inj hm).2 hts)
      · cases m with
        | nil =>
            cases hm
            rfl
        | cons t m => exact absurd hts (habsurd (List.cons.inj hm).2 hafter)

end Leads

/-! ## The stack of the reader -/

/-- Where a construct was opened, if it is a list. -/
def Context.opened? : Context → Option Span
  | .list opened _ => some opened
  | .tail opened _ => some opened
  | .quote => none

/-- Where the lists that a stage is inside of were opened, innermost first. -/
def Stage.opened : Stage → List Span
  | .form stack => stack.filterMap Context.opened?
  | .closing opened _ _ stack => opened :: stack.filterMap Context.opened?

/-- The input ends at a stage with an unclosed list unless a form is missing behind a quote. -/
theorem Stage.atEnd_eq_unclosedList_iff {stage : Stage} {span : Span} :
    stage.atEnd = .unclosedList span ↔
      stage.pending.dangling = false ∧ stage.opened.head? = some span := by
  cases stage with
  | closing opened items tail stack => simp [Stage.atEnd, Stage.pending, Stage.opened]
  | form stack =>
      cases stack with
      | nil => simp [Stage.atEnd, Stage.opened]
      | cons context stack =>
          cases context <;> simp [Stage.atEnd, Stage.pending, Stage.opened, Context.opened?]

/-- What the tokens taken so far have to do with the result of the last one. -/
def Progress.Leads (ts : List (Located Token)) : Progress → Prop
  | .more stage => SmallLisp.Leads ts stage.opened
  | _ => True

theorem deliver_leads {ts : List (Located Token)} {stack : List Context}
    (hts : Leads ts (stack.filterMap Context.opened?)) (lisp : Interpreter) (form : Value)
    (h : Heap) : (deliver lisp form stack h).1.Leads ts := by
  induction stack generalizing form h with
  | nil => exact trivial
  | cons context stack ih =>
      cases context with
      | quote => exact ih hts _ _
      | list opened items => exact hts
      | tail opened items => exact hts

theorem Stage.Opens.leads {ts : List (Located Token)} {stage next : Stage} {token : Located Token}
    (hopens : stage.Opens token next) (hts : Leads ts stage.opened) :
    Leads (ts ++ [token]) next.opened := by
  cases hopens with
  | list span stack => exact .list hts .nil
  | quote span stack => exact hts.append (.other rfl .nil)
  | dot span opened x xs stack => exact hts.append (.other rfl .nil)

theorem Stage.Finishes.leads {ts : List (Located Token)} {stage : Stage} {token : Located Token}
    {stack : List Context} (hfinishes : stage.Finishes token stack) (hts : Leads ts stage.opened) :
    Leads (ts ++ [token]) (stack.filterMap Context.opened?) := by
  cases hfinishes with
  | atom htoken => exact hts.append (.other (Token.not_isParen_of_isAtom htoken) .nil)
  | list span opened items stack => exact hts.closed rfl
  | tail span opened items tail stack => exact hts.closed rfl

theorem take_leads {ts : List (Located Token)} {stage : Stage} (hts : Leads ts stage.opened)
    (lisp : Interpreter) (token : Located Token) (h : Heap) :
    (stage.take lisp token h).1.Leads (ts ++ [token]) := by
  rcases stage.take_cases lisp token h with
    ⟨next, hopens, htake⟩ | ⟨form, stack, h', hfinishes, htake⟩ | ⟨e, _, htake⟩
  · rw [htake]
    exact hopens.leads hts
  · rw [htake]
    exact deliver_leads (hfinishes.leads hts) lisp form h'
  · rw [htake]
    exact trivial

section

variable {lisp : Interpreter} {h h' : Heap} {stage last : Stage} {tokens : List (Located Token)}

/-- **The tokens that the reader has been fed lead into the lists on its stack.** -/
theorem Reader.Feeds.leads (hf : Feeds lisp stage tokens h last h') {ts : List (Located Token)}
    (hts : Leads ts stage.opened) : Leads (ts ++ tokens) last.opened := by
  induction hf generalizing ts with
  | nil => rwa [List.append_nil]
  | @cons stage next last token tokens h h' h'' htake _ ih =>
      have hstep := take_leads hts lisp token h
      rw [htake] at hstep
      have hrest := ih hstep
      rwa [List.append_assoc] at hrest

theorem Reader.Feeds.leads_start (hf : Feeds lisp (.form []) tokens h last h') :
    Leads tokens last.opened := by
  have hstart : Leads [] (Stage.form []).opened := .top .nil
  exact hf.leads hstart

theorem Pending.dangling_next (p : Pending) (t : Token) :
    (p.next t).dangling = true ↔ t = .quote := by
  cases t <;> simp [Pending.next]

/-- A quote dangles if it is the last token. -/
theorem Reader.Feeds.dangling_iff (hf : Feeds lisp stage tokens h last h') (hne : tokens ≠ []) :
    last.pending.dangling = true ↔ (tokens.getLast hne).content = .quote := by
  induction hf with
  | nil => exact absurd rfl hne
  | @cons stage next last token tokens h h' h'' htake hrest ih =>
      cases tokens with
      | nil =>
          cases hrest
          have hstep := take_follows lisp token h stage
          rw [htake] at hstep
          rw [hstep.1, Pending.dangling_next]
          rfl
      | cons token' tokens => exact ih (List.cons_ne_nil _ _)

end

/-! ## Calls that reach the end -/

/-- How a run ends is all there is to it. -/
theorem Reader.RunsTo.run_eq {lisp : Interpreter} {length : Nat} {stage : Stage} {h : Heap}
    {its : List Item} {out : Reading} (hrun : RunsTo lisp length stage h its out) :
    run lisp length stage its h = out := by
  cases hrun with
  | done hf htake =>
      rw [run_of_feeds hf, run_item, htake]
      rfl
  | ended hf =>
      have hall := run_of_feeds hf length []
      rw [List.append_nil] at hall
      exact hall
  | failed hf htake =>
      rw [run_of_feeds hf, run_item, htake]
      rfl
  | lexical hf =>
      rw [run_of_feeds hf]
      rfl

/-- **A reading reaches the end of the input** if it would take one more item, whichever stood
there. -/
def Reader.ReachesEnd (r : Reader) (lisp : Interpreter) (h : Heap) : Prop :=
  ∀ item, (Reader.read ⟨r.pending ++ [item], r.position, r.length⟩ lisp h).reader.pending = []

theorem Reader.reachesEnd_iff {r : Reader} {lisp : Interpreter} {h : Heap} :
    r.ReachesEnd lisp h ↔ ∃ tokens last h', r.pending = tokens.map Located.item ∧
      Feeds lisp (.form []) tokens h last h' := by
  constructor
  · intro hend
    have hmore := hend ⟨⟨0, 0⟩, .ok .dot⟩
    have hrun := runsTo_run lisp r.length (.form []) r.pending h
    -- a run that ends earlier leaves the item that stands behind
    have hleft : ∀ (rest : List Item) {its : List Item} {result : Except ParseError Value}
        {stop : Nat} {h' : Heap}, r.pending ++ [⟨⟨0, 0⟩, .ok .dot⟩] = its →
        ¬ RunsTo lisp r.length (.form []) h its
          ⟨result, ⟨rest ++ [⟨⟨0, 0⟩, .ok .dot⟩], stop, r.length⟩, h'⟩ := by
      rintro rest _ result stop h' rfl hearly
      rw [Reader.read, hearly.run_eq] at hmore
      simp at hmore
    generalize run lisp r.length (.form []) r.pending h = out at hrun
    generalize hits : r.pending = its at hrun
    cases hrun with
    | @done tokens token rest last h₁ h₂ form hf htake =>
        exact absurd (.done hf htake) (hleft rest (by simp [hits]))
    | ended hf => exact ⟨_, _, _, rfl, hf⟩
    | @failed tokens token rest last h₁ h₂ e hf htake =>
        exact absurd (.failed hf htake) (hleft rest (by simp [hits]))
    | @lexical tokens span e rest last h₁ hf =>
        exact absurd (@RunsTo.lexical _ _ _ _ _ span e _ _ _ hf) (hleft rest (by simp [hits]))
  · rintro ⟨tokens, last, h', hits, hf⟩ item
    have hlen := pending_run_length lisp r.length last [item] h'
    rw [Reader.read, hits, run_of_feeds hf]
    exact List.eq_nil_of_length_eq_zero (Nat.le_zero.1 hlen)

/-- **One form is not read because of a list that is never closed.** -/
theorem Reader.read_eq_unclosedList_iff {r : Reader} {lisp : Interpreter} {h : Heap} {span : Span} :
    (r.read lisp h).result = .error (.unclosedList span) ↔
      r.ReachesEnd lisp h ∧ ∃ tokens, r.pending = tokens.map Located.item ∧ OpenedAt span tokens ∧
        ∀ hne, (tokens.getLast hne).content ≠ .quote := by
  rw [reachesEnd_iff]
  constructor
  · intro herr
    have hrun := runsTo_run lisp r.length (.form []) r.pending h
    rw [Reader.read] at herr
    generalize run lisp r.length (.form []) r.pending h = out at hrun herr
    generalize r.pending = its at hrun
    cases hrun with
    | done hf htake => cases herr
    | @ended tokens last h₁ hf =>
        obtain ⟨hquote, hhead⟩ := Stage.atEnd_eq_unclosedList_iff.1 (Except.error.inj herr)
        obtain ⟨spans, hopened⟩ := List.head?_eq_some_iff.1 hhead
        have hleads := hf.leads_start
        rw [hopened] at hleads
        refine ⟨⟨tokens, last, h₁, rfl, hf⟩, tokens, rfl, hleads.openedAt, fun hne hlast => ?_⟩
        rw [(hf.dangling_iff hne).2 hlast] at hquote
        cases hquote
    | @failed tokens token rest last h₁ h₂ e hf htake =>
        cases herr
        -- a token that does not fit is never reported as a list
        have hstep := take_follows lisp token h₁ last
        rw [htake] at hstep
        cases hstep
    | lexical hf => cases herr
  · rintro ⟨⟨tokens, last, h', hits, hf⟩, tokens', hits', hopened, hlast⟩
    obtain rfl : tokens = tokens' :=
      List.map_injective_iff.2 Located.item_injective (hits.symm.trans hits')
    have hne : tokens ≠ [] := by
      obtain ⟨front, after, rfl, _⟩ := hopened
      simp
    have hquote : last.pending.dangling = false := by
      rw [← Bool.not_eq_true, hf.dangling_iff hne]
      exact hlast hne
    have hend := Stage.atEnd_eq_unclosedList_iff.2 ⟨hquote, hf.leads_start.head?_eq hopened⟩
    rw [Reader.read, hits, (RunsTo.ended hf).run_eq, hend]

/-- **A call that reads**, with the reader as it is before and what comes out: the next form of an
iteration, one form, or a text as a whole. -/
inductive Reader.Call (lisp : Interpreter) (h : Heap) : Reader → Except ParseError Value → Prop
  | next {r : Reader} {out : Reading} (hnext : r.next? lisp h = some out) :
      Call lisp h r out.result
  | read (r : Reader) : Call lisp h r (r.read lisp h).result
  | text (source : List Char) : Call lisp h (.ofSource source) (readText lisp source h).1

/-- A text as a whole fails with an unclosed list where its first form does. -/
theorem readText_eq_unclosedList_iff {lisp : Interpreter} {source : List Char} {h : Heap}
    {span : Span} :
    (readText lisp source h).1 = .error (.unclosedList span) ↔
      ((Reader.ofSource source).read lisp h).result = .error (.unclosedList span) := by
  unfold readText
  simp only
  cases hresult : ((Reader.ofSource source).read lisp h).result with
  | error e => simp
  | ok form =>
      simp only [reduceCtorEq, iff_false]
      split
      · simp
      · split <;> simp

theorem Reader.Call.eq_unclosedList_iff {lisp : Interpreter} {h : Heap} {r : Reader}
    {result : Except ParseError Value} (hcall : Call lisp h r result) {span : Span} :
    result = .error (.unclosedList span) ↔
      (r.read lisp h).result = .error (.unclosedList span) := by
  cases hcall with
  | next hnext =>
      obtain ⟨_, rfl⟩ := next?_eq_some_iff.1 hnext
      exact Iff.rfl
  | read => exact Iff.rfl
  | text source => exact readText_eq_unclosedList_iff

/-- **An unclosed list is the innermost one that is open.** A call fails with an unclosed list if
and only if it reaches the end of the input, all that was left were tokens, the list is the
innermost one that they leave open, and the last of them is no quote. And whenever a call reaches
the end inside of a list, with a last token that is no quote, it fails in this way. -/
theorem unclosed_list_is_innermost {lisp : Interpreter} {h : Heap} {r : Reader}
    {result : Except ParseError Value} (hcall : Reader.Call lisp h r result) :
    (∀ span, result = .error (.unclosedList span) ↔
      r.ReachesEnd lisp h ∧ ∃ tokens, r.pending = tokens.map Located.item ∧ OpenedAt span tokens ∧
        ∀ hne, (tokens.getLast hne).content ≠ .quote) ∧
    ∀ tokens, r.ReachesEnd lisp h → r.pending = tokens.map Located.item → EndsInList tokens →
      (∀ hne, (tokens.getLast hne).content ≠ .quote) →
      ∃ span, result = .error (.unclosedList span) := by
  refine ⟨fun span => hcall.eq_unclosedList_iff.trans Reader.read_eq_unclosedList_iff, ?_⟩
  intro tokens hend hits hlist hlast
  obtain ⟨tokens', last, h', hits', hf⟩ := Reader.reachesEnd_iff.1 hend
  obtain rfl : tokens = tokens' :=
    List.map_injective_iff.2 Located.item_injective (hits.symm.trans hits')
  -- the innermost of the lists that are open is the one that is named
  obtain ⟨span, spans, hopened⟩ := List.exists_cons_of_ne_nil (hf.leads_start.ne_nil hlist)
  have hleads := hf.leads_start
  rw [hopened] at hleads
  refine ⟨span, hcall.eq_unclosedList_iff.2 (Reader.read_eq_unclosedList_iff.2 ?_)⟩
  exact ⟨hend, tokens, hits, hleads.openedAt, hlast⟩

/-- In `(b '(c) (d . 'e` the list that is named is the one opened before `d`, since the one before
it is closed. -/
theorem unclosed_list_is_innermost_dotted :
    let lisp := (Interpreter.fresh Heap.empty).1
    let h := (Interpreter.fresh Heap.empty).2
    let source := "(b '(c) (d . 'e".toList
    Reader.Call lisp h (.ofSource source) (readText lisp source h).1 ∧
      (readText lisp source h).1 = .error (.unclosedList ⟨8, 9⟩) ∧
      (Reader.ofSource source).ReachesEnd lisp h ∧
      ∃ tokens, (Reader.ofSource source).pending = tokens.map Located.item ∧
        OpenedAt ⟨8, 9⟩ tokens ∧ ∀ hne, (tokens.getLast hne).content ≠ .quote := by
  intro lisp h source
  have hcall : Reader.Call lisp h (.ofSource source) (readText lisp source h).1 := .text source
  have hresult : (readText lisp source h).1 = .error (.unclosedList ⟨8, 9⟩) := by decide +kernel
  exact ⟨hcall, hresult, ((unclosed_list_is_innermost hcall).1 _).1 hresult⟩

end SmallLisp
