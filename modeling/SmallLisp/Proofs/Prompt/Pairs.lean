import Mathlib.Data.List.Induction
import SmallLisp.Prompt.Parens
import SmallLisp.Proofs.Form.Unclosed
import SmallLisp.Proofs.Token.Tiling

set_option autoImplicit false

/-! # Pairs of parentheses

The search for a partner goes through the parentheses of a line with a stack of those that are
open. What it finds can be said without a stack: two tokens are a pair if one opens, a later one
closes, and between them all is balanced (`IsPair`). The stack holds the places of the lists that
the tokens seen so far lead into (`Leads`), and balanced tokens come and go without a trace in it
(`partner?_balanced`), so the parenthesis on its top is the one that the next one closes.

A parenthesis is found by its place. This is enough to tell it from all others, because the items
of a line start one behind the other (`items_pairwise_start`).
-/

namespace SmallLisp

/-! ## Tokens among items -/

/-- The token that an item is; an error is none. -/
def Located.token? (item : Item) : Option (Located Token) :=
  match item.content with
  | .ok t => some ⟨item.span, t⟩
  | .error _ => none

/-- The tokens among items. Errors are passed over. -/
def tokensIn (its : List Item) : List (Located Token) := its.filterMap Located.token?

theorem Located.token?_eq_some_iff {item : Item} {t : Located Token} :
    item.token? = some t ↔ item = t.item := by
  obtain ⟨span, content⟩ := item
  obtain ⟨span', content'⟩ := t
  cases content <;> simp [Located.token?, Located.item]

theorem tokensIn_pairwise_start (source : List Char) :
    (tokensIn (items source)).Pairwise fun a b => a.span.start < b.span.start := by
  refine List.Pairwise.filterMap _ (fun a b hlt t ht u hu => ?_) (items_pairwise_start source)
  rw [Located.token?_eq_some_iff.1 ht, Located.token?_eq_some_iff.1 hu] at hlt
  exact hlt

namespace Prompt

/-! ## Pairs -/

/-- **Every parenthesis that closes has its partner** among the tokens before it. -/
def AllPaired (ts : List (Located Token)) : Prop :=
  ∀ before closing after, ts = before ++ closing :: after → closing.content = .rightParen →
    ∃ outer opening inner, before = outer ++ opening :: inner ∧
      opening.content = .leftParen ∧ Balanced (inner.map Located.content)

/-- **A pair of parentheses** among tokens: the one opens, a later one closes, the tokens between
them are balanced, and no parenthesis before them closes what was never opened. -/
def IsPair (ts : List (Located Token)) (opening closing : Located Token) : Prop :=
  ∃ front inner later, ts = front ++ opening :: (inner ++ closing :: later) ∧
    opening.content = .leftParen ∧ closing.content = .rightParen ∧
    Balanced (inner.map Located.content) ∧ AllPaired front

section

variable {ts us : List (Located Token)} {t : Located Token}

theorem allPaired_nil : AllPaired [] := by
  intro before closing after hsplit
  simp at hsplit

theorem AllPaired.of_append (hts : AllPaired (ts ++ us)) : AllPaired ts := by
  rintro before closing after rfl hclosing
  exact hts before closing (after ++ us) (by simp) hclosing

/-- One more token has to have a partner only if it closes. -/
theorem AllPaired.concat (hts : AllPaired ts)
    (ht : t.content = .rightParen → ∃ span, OpenedAt span ts) : AllPaired (ts ++ [t]) := by
  intro before closing after hsplit hclosing
  rcases List.eq_nil_or_concat after with rfl | ⟨after, u, rfl⟩
  · obtain ⟨rfl, hlast⟩ := List.append_inj' hsplit rfl
    obtain rfl : t = closing := List.singleton_inj.1 hlast
    obtain ⟨span, outer, inner, rfl, hinner⟩ := ht hclosing
    exact ⟨outer, _, inner, rfl, rfl, hinner⟩
  · have hfront : ts ++ [t] = (before ++ closing :: after) ++ [u] := by simpa using hsplit
    obtain ⟨rfl, _⟩ := List.append_inj' hfront rfl
    exact hts before closing after rfl hclosing

/-- **Tokens in which every parenthesis that closes has its partner lead into lists.** -/
theorem AllPaired.exists_leads (hts : AllPaired ts) : ∃ spans, Leads ts spans := by
  induction ts using List.reverseRecOn with
  | nil => exact ⟨[], .top .nil⟩
  | append_singleton ts t ih =>
      obtain ⟨spans, hleads⟩ := ih hts.of_append
      obtain ⟨span, content⟩ := t
      cases hparen : content.isParen with
      | false => exact ⟨spans, hleads.append (.other hparen .nil)⟩
      | true =>
          cases content with
          | leftParen => exact ⟨span :: spans, .list hleads .nil⟩
          | rightParen =>
              obtain ⟨outer, ⟨opened, _⟩, inner, rfl, rfl, hinner⟩ := hts ts _ [] rfl rfl
              -- the partner is the innermost list that is open, and it is closed now
              have hhead := hleads.head?_eq ⟨outer, inner, rfl, hinner⟩
              obtain ⟨later, rfl⟩ := List.head?_eq_some_iff.1 hhead
              exact ⟨later, hleads.closed rfl⟩
          | _ => cases hparen

end

/-! ## The search -/

/-- The parentheses among tokens. -/
def parensOf (ts : List (Located Token)) : List Paren :=
  ts.filterMap fun t => Paren.ofItem? t.item

theorem parens_eq (line : List Char) : parens line = parensOf (tokensIn (items line)) := by
  rw [parens, parensOf, tokensIn, List.filterMap_filterMap]
  refine List.filterMap_congr fun item _ => ?_
  obtain ⟨span, content⟩ := item
  cases content <;> rfl

section

variable {p q : Nat} {stack : List Nat} {span : Span} {spans : List Span}
  {ts rest : List (Located Token)} {t : Located Token}

theorem partner?_other (ht : t.content.isParen = false) :
    partner? p stack (parensOf (t :: ts)) = partner? p stack (parensOf ts) := by
  obtain ⟨span, content⟩ := t
  cases content with
  | leftParen => cases ht
  | rightParen => cases ht
  | _ => rfl

theorem partner?_left (ht : t.content = .leftParen) :
    partner? p stack (parensOf (t :: ts)) =
      partner? p (t.span.start :: stack) (parensOf ts) := by
  obtain ⟨span, content⟩ := t
  cases ht
  simp [parensOf, Paren.ofItem?, partner?]

theorem partner?_right (ht : t.content = .rightParen) (opened : Nat) :
    partner? p (opened :: stack) (parensOf (t :: ts)) =
      if opened = p then some t.span.start
      else if t.span.start = p then some opened else partner? p stack (parensOf ts) := by
  obtain ⟨span, content⟩ := t
  cases ht
  simp [parensOf, Paren.ofItem?, partner?]

theorem partner?_stray (ht : t.content = .rightParen) :
    partner? p [] (parensOf (t :: ts)) = none := by
  obtain ⟨span, content⟩ := t
  cases ht
  simp [parensOf, Paren.ofItem?, partner?]

/-- **Balanced tokens leave the stack as it is**, unless what is looked for is among them. -/
theorem partner?_balanced (hts : Balanced (ts.map Located.content))
    (hp : ∀ t ∈ ts, t.span.start ≠ p) :
    partner? p stack (parensOf (ts ++ rest)) = partner? p stack (parensOf rest) := by
  generalize hcontents : ts.map Located.content = contents at hts
  induction hts generalizing ts stack rest with
  | nil =>
      rw [List.map_eq_nil_iff.1 hcontents]
      rfl
  | other ht _ ih =>
      obtain ⟨t, ts, rfl, rfl, rfl⟩ := List.map_eq_cons_iff.1 hcontents
      rw [List.cons_append, partner?_other ht]
      exact ih (fun u hu => hp u (List.mem_cons_of_mem _ hu)) rfl
  | group _ _ ihinner ihlater =>
      obtain ⟨opening, ts, rfl, hopening, hrest⟩ := List.map_eq_cons_iff.1 hcontents
      obtain ⟨inner, closed, rfl, rfl, hclosed⟩ := List.map_eq_append_iff.1 hrest
      obtain ⟨closing, later, rfl, hclosing, rfl⟩ := List.map_eq_cons_iff.1 hclosed
      have hinner : ∀ u ∈ inner, u.span.start ≠ p := fun u hu => hp u (by simp [hu])
      have hlater : ∀ u ∈ later, u.span.start ≠ p := fun u hu => hp u (by simp [hu])
      have hends : opening.span.start ≠ p ∧ closing.span.start ≠ p :=
        ⟨hp _ (by simp), hp _ (by simp)⟩
      rw [List.cons_append, List.append_assoc, List.cons_append, partner?_left hopening,
        ihinner hinner rfl, partner?_right hclosing, if_neg hends.1, if_neg hends.2]
      exact ihlater hlater rfl

/-- **The stack holds the places of the lists that the tokens lead into.** -/
theorem partner?_leads (hts : Leads ts spans) (hp : ∀ t ∈ ts, t.span.start ≠ p) :
    partner? p [] (parensOf (ts ++ rest)) = partner? p (spans.map Span.start) (parensOf rest) := by
  induction hts generalizing rest with
  | top hts => exact partner?_balanced hts hp
  | @list front ts span spans _ hts ih =>
      have hfront : ∀ u ∈ front, u.span.start ≠ p := fun u hu => hp u (by simp [hu])
      have hlater : ∀ u ∈ ts, u.span.start ≠ p := fun u hu => hp u (by simp [hu])
      rw [List.append_assoc, ih hfront, List.cons_append, partner?_left rfl,
        partner?_balanced hts hlater]
      rfl

/-- **The partners of a pair find each other.** -/
theorem IsPair.partner?_eq {opening closing : Located Token} (hpair : IsPair ts opening closing)
    (hplaces : ts.Pairwise fun a b => a.span.start < b.span.start) :
    partner? opening.span.start [] (parensOf ts) = some closing.span.start ∧
      partner? closing.span.start [] (parensOf ts) = some opening.span.start := by
  obtain ⟨front, inner, later, rfl, hopening, hclosing, hinner, hfront⟩ := hpair
  obtain ⟨spans, hleads⟩ := hfront.exists_leads
  obtain ⟨_, hbehind, hbefore⟩ := List.pairwise_append.1 hplaces
  obtain ⟨hafter, hbehind⟩ := List.pairwise_cons.1 hbehind
  obtain ⟨_, _, hinside⟩ := List.pairwise_append.1 hbehind
  -- the tokens before the pair and inside of it start elsewhere
  have hlt : opening.span.start < closing.span.start := hafter closing (by simp)
  have hfront₁ : ∀ t ∈ front, t.span.start ≠ opening.span.start := fun t ht =>
    Nat.ne_of_lt (hbefore t ht opening (by simp))
  have hfront₂ : ∀ t ∈ front, t.span.start ≠ closing.span.start := fun t ht =>
    Nat.ne_of_lt (hbefore t ht closing (by simp))
  have hinner₁ : ∀ t ∈ inner, t.span.start ≠ opening.span.start := fun t ht =>
    Nat.ne_of_gt (hafter t (by simp [ht]))
  have hinner₂ : ∀ t ∈ inner, t.span.start ≠ closing.span.start := fun t ht =>
    Nat.ne_of_lt (hinside t ht closing (by simp))
  constructor
  · rw [partner?_leads hleads hfront₁, partner?_left hopening, partner?_balanced hinner hinner₁,
      partner?_right hclosing, if_pos rfl]
  · rw [partner?_leads hleads hfront₂, partner?_left hopening, partner?_balanced hinner hinner₂,
      partner?_right hclosing, if_neg (Nat.ne_of_lt hlt), if_pos rfl]

/-- What the top of the stack and the next parenthesis are to each other. -/
theorem isPair_of_leads {done : List (Located Token)} (hleads : Leads done (span :: spans))
    (hdone : AllPaired done) (ht : t.content = .rightParen) :
    IsPair (done ++ t :: ts) ⟨span, .leftParen⟩ t := by
  obtain ⟨front, inner, rfl, hinner⟩ := hleads.openedAt
  exact ⟨front, inner, ts, by simp, rfl, ht, hinner, hdone.of_append⟩

/-- **What the search finds is a pair.** The induction is along the tokens that are still to be
looked at; those that are done lead into the lists on the stack. -/
theorem isPair_of_partner? {done : List (Located Token)} (hleads : Leads done spans)
    (hdone : AllPaired done)
    (hfound : partner? p (spans.map Span.start) (parensOf ts) = some q) :
    ∃ opening closing, IsPair (done ++ ts) opening closing ∧
      (p = opening.span.start ∧ q = closing.span.start ∨
        p = closing.span.start ∧ q = opening.span.start) := by
  induction ts generalizing done spans with
  | nil => cases hfound
  | cons t ts ih =>
      rw [List.append_cons]
      cases hparen : t.content.isParen with
      | false =>
          rw [partner?_other hparen] at hfound
          have hno : t.content ≠ .rightParen := (Token.ne_of_not_isParen hparen).2
          exact ih (hleads.append (.other hparen .nil)) (hdone.concat fun h => absurd h hno) hfound
      | true =>
          obtain ⟨place, content⟩ := t
          cases content with
          | leftParen =>
              have hopen : Leads (done ++ [⟨place, .leftParen⟩]) (place :: spans) :=
                .list hleads .nil
              rw [partner?_left rfl] at hfound
              exact ih hopen (hdone.concat nofun) hfound
          | rightParen =>
              cases spans with
              | nil =>
                  rw [List.map_nil, partner?_stray rfl] at hfound
                  cases hfound
              | cons span spans =>
                  have hpair : IsPair (done ++ [⟨place, .rightParen⟩] ++ ts) ⟨span, .leftParen⟩
                      ⟨place, .rightParen⟩ := by
                    rw [← List.append_cons]
                    exact isPair_of_leads hleads hdone rfl
                  rw [List.map_cons, partner?_right rfl] at hfound
                  split at hfound
                  · rename_i heq
                    exact ⟨_, _, hpair, .inl ⟨heq.symm, (Option.some.inj hfound).symm⟩⟩
                  · split at hfound
                    · rename_i heq
                      exact ⟨_, _, hpair, .inr ⟨heq.symm, (Option.some.inj hfound).symm⟩⟩
                    · exact ih (hleads.closed rfl)
                        (hdone.concat fun _ => ⟨span, hleads.openedAt⟩) hfound
          | _ => cases hparen

end

/-- A parenthesis matches another if the two are a pair, whichever of them is asked for. -/
theorem matchingParen?_eq_some_iff {line : List Char} {p q : Nat} :
    matchingParen? line p = some q ↔
      ∃ opening closing, IsPair (tokensIn (items line)) opening closing ∧
        (p = opening.span.start ∧ q = closing.span.start ∨
          p = closing.span.start ∧ q = opening.span.start) := by
  rw [matchingParen?, parens_eq]
  constructor
  · have hstart : Leads [] [] := .top .nil
    exact isPair_of_partner? hstart allPaired_nil
  · rintro ⟨opening, closing, hpair, hends⟩
    obtain ⟨hleft, hright⟩ := hpair.partner?_eq (tokensIn_pairwise_start line)
    rcases hends with ⟨rfl, rfl⟩ | ⟨rfl, rfl⟩
    · exact hleft
    · exact hright

/-- The one that opens starts before the one that closes. -/
theorem IsPair.start_lt {line : List Char} {opening closing : Located Token}
    (hpair : IsPair (tokensIn (items line)) opening closing) :
    opening.span.start < closing.span.start := by
  obtain ⟨front, inner, later, hsplit, _⟩ := hpair
  have hplaces := tokensIn_pairwise_start line
  rw [hsplit] at hplaces
  obtain ⟨_, hbehind, _⟩ := List.pairwise_append.1 hplaces
  exact (List.pairwise_cons.1 hbehind).1 closing (by simp)

/-- **The matching parenthesis is the partner of a pair.** One offset matches another if and only
if two parenthesis tokens of the line that are a pair start there. So the match of a match is where
one came from, and it is never in the same place. -/
theorem matchingParen?_finds_partner (line : List Char) :
    (∀ p q, matchingParen? line p = some q ↔
      ∃ opening closing, IsPair (tokensIn (items line)) opening closing ∧
        (p = opening.span.start ∧ q = closing.span.start ∨
          p = closing.span.start ∧ q = opening.span.start)) ∧
    ∀ p q, matchingParen? line p = some q → matchingParen? line q = some p ∧ p ≠ q := by
  refine ⟨fun p q => matchingParen?_eq_some_iff, fun p q hmatch => ?_⟩
  obtain ⟨opening, closing, hpair, hends⟩ := matchingParen?_eq_some_iff.1 hmatch
  have hlt := hpair.start_lt
  constructor
  · exact matchingParen?_eq_some_iff.2 ⟨opening, closing, hpair, hends.symm.imp And.symm And.symm⟩
  · omega

/-- In `(λ ")" (a))) (b)` the string and the error do not count, and behind the parenthesis that
closes nothing there are no matches. -/
example : let line := "(λ \")\" (a))) (b)".toList
    matchingParen? line 0 = some 11 ∧ matchingParen? line 11 = some 0 ∧
      matchingParen? line 8 = some 10 ∧ matchingParen? line 12 = none ∧
      matchingParen? line 14 = none := by
  decide +kernel

end Prompt

end SmallLisp
