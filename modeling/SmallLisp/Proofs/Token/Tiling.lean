import Mathlib.Data.List.Nodup
import SmallLisp.Proofs.Token.Places

set_option autoImplicit false

/-! # The items tile the text

Nothing of a text is lost between its items and nothing is in two of them, whatever the text is and
however many errors are in it. A text is a sequence of gaps and item texts in turn (`Tiles`): the
texts of items are not empty, and in a gap there are only blanks and comments (`IsGap`). That the
items of a text tile it is an induction along its pieces, and all that can be said about spans and
single bytes follows from the tiling alone.
-/

namespace SmallLisp

open Rule

/-! ## Gaps -/

/-- The characters that may stand between items. -/
def blanks : List Char := [' ', '\t', '\n', '\x0b', '\x0c', '\r']

/-- **A gap** in front of `rest`: blanks and comments. A comment goes on until a line ends or the
text does. -/
inductive IsGap : List Char → List Char → Prop
  | nil (rest : List Char) : IsGap [] rest
  | blank {c : Char} {gap rest : List Char} (hc : c ∈ blanks) (hgap : IsGap gap rest) :
      IsGap (c :: gap) rest
  | comment {line gap rest : List Char} (hline : '\n' ∉ line)
      (hend : ∀ c, (gap ++ rest).head? = some c → c = '\n') (hgap : IsGap gap rest) :
      IsGap (';' :: line ++ gap) rest

theorem mem_blanks_of_isSkipped {c : Char} (hc : Text.isSkipped c = true) : c ∈ blanks := by
  simp only [Text.isSkipped, Bool.or_eq_true, Bool.and_eq_true, beq_iff_eq,
    decide_eq_true_eq] at hc
  rcases hc with rfl | ⟨hlow, hhigh⟩
  · decide
  · have hcases : c.toNat = 9 ∨ c.toNat = 10 ∨ c.toNat = 11 ∨ c.toNat = 12 ∨ c.toNat = 13 := by
      omega
    have hchar : ∀ d : Char, c.toNat = d.toNat → c = d := fun d hd =>
      Char.ext (UInt32.toNat_inj.1 hd)
    rcases hcases with h | h | h | h | h
    · rw [hchar '\t' h]; decide
    · rw [hchar '\n' h]; decide
    · rw [hchar '\x0b' h]; decide
    · rw [hchar '\x0c' h]; decide
    · rw [hchar '\r' h]; decide

/-! ## Tilings -/

/-- **Items tile a text** that begins at a byte offset: each item covers a text of its own, which
is not empty, and before, between and behind them there are gaps. -/
inductive Tiles : Nat → List Char → List Item → Prop
  | done {start : Nat} {gap : List Char} (hgap : IsGap gap []) : Tiles start gap []
  | item {start : Nat} {gap text rest : List Char} {item : Item} {later : List Item}
      (hgap : IsGap gap (text ++ rest)) (htext : text ≠ [])
      (hstart : item.span.start = start + Text.byteLength gap)
      (hstop : item.span.stop = item.span.start + Text.byteLength text)
      (hrest : Tiles item.span.stop rest later) :
      Tiles start (gap ++ (text ++ rest)) (item :: later)

/-- A gap may be made longer at its front. -/
theorem Tiles.extend {start : Nat} {text : List Char} {its : List Item} (lead : List Char)
    (hlead : ∀ gap rest, text = gap ++ rest → IsGap gap rest → IsGap (lead ++ gap) rest)
    (htiles : Tiles (start + Text.byteLength lead) text its) : Tiles start (lead ++ text) its := by
  cases htiles with
  | done hgap => exact .done (hlead text [] (List.append_nil text).symm hgap)
  | @item _ gap text rest item later hgap htext hstart hstop hrest =>
      rw [← List.append_assoc]
      refine .item (hlead gap _ rfl hgap) htext ?_ hstop hrest
      rw [hstart, Text.byteLength_append, Nat.add_assoc]

/-- An item at the very start. -/
theorem Tiles.first {start : Nat} {rest : List Char} {later : List Item} (text : List Char)
    (content : Except LexicalError Token) (htext : text ≠ [])
    (hrest : Tiles (start + Text.byteLength text) rest later) :
    Tiles start (text ++ rest) (⟨⟨start, start + Text.byteLength text⟩, content⟩ :: later) :=
  .item (.nil (text ++ rest)) htext rfl rfl hrest

/-- What is neither blank nor a comment makes an item. -/
theorem exists_placed {r : Rule} (hblank : r ≠ .blank) (hcomment : r ≠ .comment)
    (text : List Char) (span : Span) :
    ∃ content, (r.read text).placed span = [⟨span, content⟩] := by
  cases hread : r.read text with
  | token t => exact ⟨.ok t, rfl⟩
  | error e => exact ⟨.error e, rfl⟩
  | skipped =>
      cases r with
      | blank => exact absurd rfl hblank
      | comment => exact absurd rfl hcomment
      | integer =>
          simp only [Rule.read] at hread
          split at hread <;> cases hread
      | string =>
          simp only [Rule.read] at hread
          split at hread <;> cases hread
      | _ => cases hread

/-- **One step of the tiling**: the piece that comes first is an item. -/
theorem tiles_of_choose {c : Char} {cs : List Char} {r : Rule} {n : Nat}
    (h : choose c cs = some ⟨r, n⟩) (hblank : r ≠ .blank) (hcomment : r ≠ .comment)
    (hrest : ∀ start, Tiles start (cs.drop n) (itemsFrom start (cs.drop n))) (start : Nat) :
    Tiles start (c :: cs) (itemsFrom start (c :: cs)) := by
  obtain ⟨content, hplaced⟩ := exists_placed hblank hcomment (c :: cs.take n)
    ⟨start, start + Text.byteLength (c :: cs.take n)⟩
  have hsplit : c :: cs = (c :: cs.take n) ++ cs.drop n := by
    rw [List.cons_append, List.take_append_drop]
  rw [itemsFrom_cons_of_choose h, hplaced]
  nth_rewrite 1 [hsplit]
  exact .first _ content (List.cons_ne_nil _ _) (hrest _)

/-- **The items of a text tile it**, wherever it begins. -/
theorem tiles_itemsFrom (text : List Char) :
    ∀ start, Tiles start text (itemsFrom start text) := by
  induction text using scanInduction with
  | nil =>
      intro start
      rw [itemsFrom_nil]
      exact .done (.nil [])
  | blank c cs hc ih =>
      intro start
      rw [itemsFrom_blank hc]
      exact Tiles.extend [c] (fun _ _ _ hgap => .blank (mem_blanks_of_isSkipped hc) hgap)
        (ih _)
  | comment cs ih =>
      intro start
      -- the comment is as long as there is no line end
      have hline : '\n' ∉ cs.takeWhile (· != '\n') := fun hmem => by
        simpa using List.mem_takeWhile_imp hmem
      have hend : ∀ c, (cs.dropWhile (· != '\n')).head? = some c → c = '\n' := by
        intro c hc
        have hnot := List.head?_dropWhile_not (· != '\n') cs
        rw [hc] at hnot
        simpa using hnot
      have htake : cs.take (cs.takeWhile (· != '\n')).length = cs.takeWhile (· != '\n') :=
        (List.prefix_iff_eq_take.1 (List.takeWhile_prefix _)).symm
      rw [itemsFrom_cons_of_choose (choose_comment cs), drop_length_takeWhile, htake]
      nth_rewrite 1 [← List.takeWhile_append_dropWhile (p := (· != '\n')) (l := cs)]
      refine Tiles.extend (';' :: cs.takeWhile (· != '\n')) (fun gap rest hsplit hgap => ?_)
        (ih _)
      exact .comment hline (fun c hc => hend c (hsplit ▸ hc)) hgap
  | leftParen cs ih => exact tiles_of_choose (choose_leftParen cs) nofun nofun ih
  | rightParen cs ih => exact tiles_of_choose (choose_rightParen cs) nofun nofun ih
  | quote cs ih => exact tiles_of_choose (choose_quote cs) nofun nofun ih
  | string cs ih => exact tiles_of_choose (choose_string cs) nofun nofun ih
  | stray c cs hw hs ih =>
      intro start
      rw [itemsFrom_stray hw hs]
      exact Tiles.first [c] _ (List.cons_ne_nil _ _) (ih _)
  | atom c cs hc ih =>
      have hrule : ∀ text : List Char, ofAtom text ≠ .blank ∧ ofAtom text ≠ .comment := by
        intro text
        unfold ofAtom
        split_ifs <;> exact ⟨nofun, nofun⟩
      exact tiles_of_choose (choose_atom hc cs) (hrule _).1 (hrule _).2 ih

/-! ## What a tiling says about spans -/

/-- An offset that falls between two characters of a text, or at one of its ends. -/
def Text.IsBoundary (text : List Char) (n : Nat) : Prop :=
  ∃ front rest, text = front ++ rest ∧ n = Text.byteLength front

/-- Whether a byte is in a span. -/
def Span.covers (s : Span) (n : Nat) : Bool := decide (s.start ≤ n) && decide (n < s.stop)

section

variable {start : Nat} {text : List Char} {its : List Item}

/-- Each item stands for a part of the text. -/
theorem Tiles.exists_text (htiles : Tiles start text its) {item : Item} (hitem : item ∈ its) :
    ∃ front body rest, text = front ++ (body ++ rest) ∧ body ≠ [] ∧
      item.span.start = start + Text.byteLength front ∧
      item.span.stop = item.span.start + Text.byteLength body := by
  induction htiles with
  | done _ => exact absurd hitem List.not_mem_nil
  | @item start gap body rest first later _ hbody hstart hstop _ ih =>
      rcases List.mem_cons.1 hitem with rfl | hlater
      · exact ⟨gap, body, rest, rfl, hbody, hstart, hstop⟩
      · obtain ⟨front, body', rest', rfl, hne, hstart', hstop'⟩ := ih hlater
        refine ⟨gap ++ (body ++ front), body', rest', ?_, hne, ?_, hstop'⟩
        · simp only [List.append_assoc]
        · rw [hstart', hstop, hstart]
          simp only [Text.byteLength_append]
          omega

theorem Tiles.start_le (htiles : Tiles start text its) {item : Item} (hitem : item ∈ its) :
    start ≤ item.span.start := by
  obtain ⟨front, _, _, _, _, hstart, _⟩ := htiles.exists_text hitem
  omega

/-- Each item begins where the one before it has ended, or later. -/
theorem Tiles.pairwise (htiles : Tiles start text its) :
    its.Pairwise fun a b => a.span.stop ≤ b.span.start := by
  induction htiles with
  | done _ => exact .nil
  | item _ _ _ _ hrest ih => exact .cons (fun _ hlater => hrest.start_le hlater) ih

theorem Tiles.length_le (htiles : Tiles start text its) : its.length ≤ text.length := by
  induction htiles with
  | done _ => exact Nat.zero_le _
  | item _ hbody _ _ _ ih =>
      have := List.length_pos_iff.2 hbody
      simp only [List.length_cons, List.length_append]
      omega

/-- A byte in front of all items is in none of them. -/
theorem Tiles.countP_eq_zero (htiles : Tiles start text its) {n : Nat} (hn : n < start) :
    its.countP (·.span.covers n) = 0 := by
  rw [List.countP_eq_zero]
  intro item hitem
  have := htiles.start_le hitem
  simp only [Span.covers, Bool.and_eq_true, decide_eq_true_eq, not_and]
  omega

/-- **A byte in a gap**: the gap is a part of the text that no item reaches into. -/
def InGap (start : Nat) (text : List Char) (its : List Item) (n : Nat) : Prop :=
  ∃ front gap rest, text = front ++ (gap ++ rest) ∧ IsGap gap rest ∧
    start + Text.byteLength front ≤ n ∧ n < start + Text.byteLength (front ++ gap) ∧
    ∀ item ∈ its, item.span.stop ≤ start + Text.byteLength front ∨
      start + Text.byteLength (front ++ gap) ≤ item.span.start

/-- **Each byte is in one item, or in a gap and in no item.** -/
theorem Tiles.covered (htiles : Tiles start text its) {n : Nat} (hlow : start ≤ n)
    (hhigh : n < start + Text.byteLength text) :
    its.countP (·.span.covers n) = 1 ∨
      its.countP (·.span.covers n) = 0 ∧ InGap start text its n := by
  induction htiles with
  | @done start gap hgap =>
      refine .inr ⟨rfl, [], gap, [], (List.append_nil gap).symm, hgap, hlow, hhigh, ?_⟩
      exact fun _ hitem => absurd hitem List.not_mem_nil
  | @item start gap body rest first later hgap hbody hstart hstop hrest ih =>
      have hpos := Text.byteLength_pos hbody
      simp only [Text.byteLength_append] at hhigh
      rw [List.countP_cons]
      rcases Nat.lt_or_ge n first.span.start with hbefore | hafter
      · -- in the gap in front of the first item
        have hfirst : first.span.covers n = false := by
          simp only [Span.covers, Bool.and_eq_false_iff, decide_eq_false_iff_not]
          omega
        have hlater := hrest.countP_eq_zero (n := n) (by omega)
        refine .inr ⟨by simp [hlater, hfirst], [], gap, body ++ rest, rfl, hgap, hlow, ?_, ?_⟩
        · rw [List.nil_append]
          omega
        · intro item hitem
          right
          rw [List.nil_append, ← hstart]
          rcases List.mem_cons.1 hitem with rfl | hmem
          · exact Nat.le_refl _
          · have := hrest.start_le hmem
            omega
      · rcases Nat.lt_or_ge n first.span.stop with hinside | hbehind
        · have hfirst : first.span.covers n = true := by
            simp only [Span.covers, Bool.and_eq_true, decide_eq_true_eq]
            exact ⟨hafter, hinside⟩
          have hlater := hrest.countP_eq_zero hinside
          exact .inl (by simp [hlater, hfirst])
        · -- behind the first item, where the rest is tiled
          have hfirst : first.span.covers n = false := by
            simp only [Span.covers, Bool.and_eq_false_iff, decide_eq_false_iff_not]
            omega
          rw [hfirst]
          rcases ih hbehind (by omega) with hone | ⟨hnone, front, gap', rest', rfl, hgap', hgapLow,
            hgapHigh, hclear⟩
          · exact .inl hone
          · have hoffset : start + Text.byteLength (gap ++ (body ++ front)) =
                first.span.stop + Text.byteLength front := by
              rw [hstop, hstart]
              simp only [Text.byteLength_append]
              omega
            have hend : start + Text.byteLength (gap ++ (body ++ front) ++ gap') =
                first.span.stop + Text.byteLength (front ++ gap') := by
              rw [Text.byteLength_append _ gap', Text.byteLength_append front]
              omega
            refine .inr ⟨hnone, gap ++ (body ++ front), gap', rest', ?_, hgap', ?_, ?_, ?_⟩
            · simp only [List.append_assoc]
            · rwa [hoffset]
            · rwa [hend]
            · rw [hoffset, hend]
              intro item hitem
              rcases List.mem_cons.1 hitem with rfl | hmem
              · exact .inl (Nat.le_add_right _ _)
              · exact hclear item hmem

end

/-- Items start one behind the other. -/
theorem items_pairwise_start (source : List Char) :
    (items source).Pairwise fun a b => a.span.start < b.span.start := by
  have htiles : Tiles 0 source (items source) := tiles_itemsFrom source 0
  refine htiles.pairwise.imp_of_mem fun {a b} ha _ hle => ?_
  obtain ⟨_, body, _, _, hbody, _, hstop⟩ := htiles.exists_text ha
  have hpos := Text.byteLength_pos hbody
  omega

/-- No item is there twice. -/
theorem nodup_items (source : List Char) : (items source).Nodup := by
  refine (items_pairwise_start source).imp fun {a b} hlt => ?_
  rintro rfl
  exact Nat.lt_irrefl _ hlt

/-- An item is known by the place where it starts. -/
theorem eq_of_start_eq {source : List Char} {a b : Item} (ha : a ∈ items source)
    (hb : b ∈ items source) (hstart : a.span.start = b.span.start) : a = b := by
  have hdistinct : ((items source).map fun item => item.span.start).Nodup :=
    List.pairwise_map.2 ((items_pairwise_start source).imp Nat.ne_of_lt)
  exact List.inj_on_of_nodup_map hdistinct ha hb hstart

/-- **The lexer tiles its input.** The spans of items are not empty, lie inside of the text and
between its characters, and follow one another without overlapping. Each byte of the text is in
exactly one item, or in no item and in a gap of blanks and comments. There are at most as many
items as characters. -/
theorem items_tile_source (source : List Char) :
    (∀ item ∈ items source, item.span.start < item.span.stop ∧
      item.span.stop ≤ Text.byteLength source ∧ Text.IsBoundary source item.span.start ∧
      Text.IsBoundary source item.span.stop) ∧
    (items source).Pairwise (fun a b => a.span.stop ≤ b.span.start) ∧
    (∀ n < Text.byteLength source, (items source).countP (·.span.covers n) = 1 ∨
      (items source).countP (·.span.covers n) = 0 ∧ InGap 0 source (items source) n) ∧
    (items source).length ≤ source.length := by
  have htiles : Tiles 0 source (items source) := tiles_itemsFrom source 0
  refine ⟨fun item hitem => ?_, htiles.pairwise, fun n hn => ?_, htiles.length_le⟩
  · obtain ⟨front, body, rest, hsource, hbody, hstart, hstop⟩ := htiles.exists_text hitem
    have hpos := Text.byteLength_pos hbody
    rw [Nat.zero_add] at hstart
    refine ⟨by omega, ?_, ⟨front, body ++ rest, hsource, hstart⟩, front ++ body, rest, ?_, ?_⟩
    · rw [hsource, Text.byteLength_append, Text.byteLength_append]
      omega
    · rw [hsource, List.append_assoc]
    · rw [hstop, hstart, Text.byteLength_append]
  · exact htiles.covered (Nat.zero_le n) (by rwa [Nat.zero_add])

/-- A stray blank and a broken string: the backslash that the string leaves over is an item of its
own. -/
example : (items "\u00a0 \"ab\\".toList).map Located.span = [⟨0, 2⟩, ⟨3, 6⟩, ⟨6, 7⟩] := by
  decide +kernel

end SmallLisp
