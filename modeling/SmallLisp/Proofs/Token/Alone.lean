import Mathlib.Data.List.Basic
import SmallLisp.Proofs.Token.Runs
import SmallLisp.Proofs.Token.Tiling

set_option autoImplicit false

/-! # Pieces that stand alone

Which piece comes first in a text is found by letting all rules match as much of it as they can.
The winner is at least as long as every other match, so nothing behind it has a say in the choice
(`choose_take`). A piece that is cut out of its text is therefore found again as it was
(`pieces_alone`), and so is an item (`exists_part_of_mem_items`): tokens and errors depend on the
text that they cover and on nothing else.
-/

namespace SmallLisp

open Pattern Rule

namespace Rule

/-! ## Cutting behind the winner -/

theorem eq_nil_of_winner {l : List Candidate} (h : winner l = none) : l = [] := by
  cases l with
  | nil => rfl
  | cons a l =>
      simp only [winner] at h
      split at h
      · cases h
      · split at h <;> cases h

/-- The winner is at least as long as every other match. -/
theorem extra_le_of_winner {l : List Candidate} {a b : Candidate} (h : winner l = some a)
    (hb : b ∈ l) : b.extra ≤ a.extra := by
  induction l generalizing a b with
  | nil => cases hb
  | cons d l ih =>
      simp only [winner] at h
      split at h
      · rename_i hnone
        cases h
        rw [eq_nil_of_winner hnone, List.mem_singleton] at hb
        rw [hb]
      · rename_i w hw
        split at h
        · rename_i hbeats
          cases h
          rcases List.mem_cons.1 hb with rfl | hb
          · simp only [Candidate.beats, Bool.or_eq_true, Bool.and_eq_true,
              decide_eq_true_eq] at hbeats
            omega
          · exact ih hw hb
        · rename_i hbeats
          cases h
          rcases List.mem_cons.1 hb with rfl | hb
          · exact Nat.le_refl _
          · have hle := ih hw hb
            simp only [Candidate.beats, Bool.or_eq_true, Bool.and_eq_true, decide_eq_true_eq,
              not_or] at hbeats
            omega

/-- A match is not affected by a cut behind it. -/
theorem candidate?_take {c : Char} {cs : List Char} {r : Rule} {n : Nat}
    (hn : ∀ a, candidate? c cs r = some a → a.extra ≤ n) :
    candidate? c (cs.take n) r = candidate? c cs r := by
  have htake : ∀ m, m ≤ (cs.take n).length → (cs.take n).take m = cs.take m := by
    intro m hm
    rw [List.length_take] at hm
    rw [List.take_take, Nat.min_eq_left (by omega)]
  cases ha : candidate? c cs r with
  | none =>
      -- what matches in a part of the text matches in the text
      rw [candidate?, Option.map_eq_none_iff, longest?_eq_none_iff] at ha ⊢
      intro m hm
      rw [htake m hm]
      exact ha m (hm.trans (List.take_sublist n cs).length_le)
  | some a =>
      have hle := hn a ha
      obtain ⟨hrule, hlen, hmatch, hmax⟩ := candidate?_eq_some_iff.1 ha
      have hfits : a.extra ≤ (cs.take n).length := by
        rw [List.length_take]
        omega
      refine candidate?_eq_some_iff.2 ⟨hrule, hfits, by rwa [htake _ hfits], fun m hlt hm => ?_⟩
      rw [htake m hm]
      exact hmax m hlt (hm.trans (List.take_sublist n cs).length_le)

/-- **The choice of a rule does not look behind its match.** -/
theorem choose_take {c : Char} {cs : List Char} {n : Nat}
    (hn : ∀ m, choose c cs = some m → m.extra ≤ n) : choose c (cs.take n) = choose c cs := by
  have hsame : all.filterMap (candidate? c (cs.take n)) = all.filterMap (candidate? c cs) := by
    refine List.filterMap_congr fun r _ => candidate?_take fun a ha => ?_
    have hmem : a ∈ all.filterMap (candidate? c cs) :=
      List.mem_filterMap.2 ⟨r, mem_all r, ha⟩
    cases hwinner : winner (all.filterMap (candidate? c cs)) with
    | none =>
        rw [eq_nil_of_winner hwinner] at hmem
        cases hmem
    | some m => exact (extra_le_of_winner hwinner hmem).trans (hn m hwinner)
  rw [choose, choose, hsame]

/-! ## What the content of a piece says about its text -/

/-- What a token or an error tells about the text that it was read from. -/
def Content.Tells (text : List Char) : Content → Prop
  | .token .leftParen => text = ['(']
  | .token .dot => text = ['.']
  | .error (.invalidNumber shown) => shown = String.ofList text
  | .error (.invalidSymbol shown) => shown = String.ofList text
  | _ => True

theorem tells_read {r : Rule} {text : List Char} (h : Matches r.pattern text) :
    (r.read text).Tells text := by
  cases r with
  | leftParen => exact matches_char_iff.1 h
  | dot => exact matches_char_iff.1 h
  | integer =>
      simp only [Rule.read]
      split
      · exact trivial
      · exact rfl
  | string =>
      simp only [Rule.read]
      split <;> exact trivial
  | malformed =>
      simp only [Rule.read, malformedAtom]
      split <;> exact rfl
  | _ => exact trivial

end Rule

/-! ## Pieces and items -/

theorem Rule.Content.placed_of_yield {content : Rule.Content}
    {found : Except LexicalError Token} (h : content.yield = [found]) (span : Span) :
    content.placed span = [⟨span, found⟩] := by
  cases content with
  | skipped => cases h
  | token t =>
      cases h
      rfl
  | error e =>
      cases h
      rfl

/-- **A piece that stands alone is found as it was.** -/
theorem pieces_alone {text : List Char} {p : Piece} {after : List Piece}
    (hps : pieces text = p :: after) : pieces p.text = [p] := by
  cases text with
  | nil =>
      rw [pieces] at hps
      cases hps
  | cons c cs =>
      rw [pieces] at hps
      split at hps
      · rename_i m hm
        obtain ⟨rfl, _⟩ := List.cons.inj hps
        have hchoose : choose c (cs.take m.extra) = some m := by
          rw [choose_take (by rw [hm]; rintro _ ⟨⟩; exact Nat.le_refl _), hm]
        rw [pieces, hchoose]
        simp [pieces, List.take_take]
      · rename_i hnone
        obtain ⟨rfl, _⟩ := List.cons.inj hps
        have hchoose : choose c [] = none := by
          rw [← List.take_zero (l := cs), choose_take (by rw [hnone]; rintro _ ⟨⟩), hnone]
        rw [pieces, hchoose]
        simp [pieces]

theorem tells_of_pieces {text : List Char} {p : Piece} {after : List Piece}
    (hps : pieces text = p :: after) : p.content.Tells p.text := by
  cases text with
  | nil =>
      rw [pieces] at hps
      cases hps
  | cons c cs =>
      rw [pieces] at hps
      split at hps
      · rename_i m hm
        obtain ⟨rfl, _⟩ := List.cons.inj hps
        obtain ⟨r, _, hr⟩ := List.mem_filterMap.1 (mem_of_winner hm)
        obtain ⟨rfl, _, hmatch, _⟩ := candidate?_eq_some_iff.1 hr
        exact tells_read hmatch
      · obtain ⟨rfl, _⟩ := List.cons.inj hps
        exact trivial

/-- **A span marks a part of a text.** -/
def Span.Marks (s : Span) (source body : List Char) : Prop :=
  ∃ front rest, source = front ++ (body ++ rest) ∧ s.start = Text.byteLength front ∧
    s.stop = Text.byteLength (front ++ body)

theorem Span.Marks.bounds {s : Span} {source body : List Char} (hs : s.Marks source body)
    (hbody : body ≠ []) :
    s.start < s.stop ∧ s.stop ≤ Text.byteLength source ∧ Text.IsBoundary source s.start ∧
      Text.IsBoundary source s.stop := by
  obtain ⟨front, rest, rfl, hstart, hstop⟩ := hs
  have hpos := Text.byteLength_pos hbody
  refine ⟨?_, ?_, ⟨front, body ++ rest, rfl, hstart⟩, front ++ body, rest, ?_, hstop⟩
  · rw [hstart, hstop, Text.byteLength_append]
    omega
  · rw [hstop, Text.byteLength_append, Text.byteLength_append, Text.byteLength_append]
    omega
  · rw [List.append_assoc]

/-- **An item marks a part of the text that is the same item if it stands alone.** -/
theorem exists_part_of_mem_items {source : List Char} {item : Item} (hitem : item ∈ items source) :
    ∃ body, body ≠ [] ∧ item.span.Marks source body ∧
      items body = [⟨⟨0, Text.byteLength body⟩, item.content⟩] ∧
      ∃ content : Rule.Content, content.yield = [item.content] ∧ content.Tells body := by
  obtain ⟨front, rest, p, after, hsource, hps, hp, hstart, hstop⟩ := exists_piece_of_mem_items hitem
  have halone := pieces_alone hps
  have hsplit : ∃ later, rest = p.text ++ later := by
    have hflat := flatten_pieces rest
    rw [hps, List.map_cons, List.flatten_cons] at hflat
    exact ⟨_, hflat.symm⟩
  obtain ⟨later, rfl⟩ := hsplit
  refine ⟨p.text, fun hnil => ?_, ⟨front, later, hsource, hstart, ?_⟩, ?_, p.content, hp,
    tells_of_pieces hps⟩
  · rw [hnil, pieces] at halone
    cases halone
  · rw [hstop, hstart, Text.byteLength_append]
  · rw [items, halone, locate_cons, Rule.Content.placed_of_yield hp, Nat.zero_add]
    rfl

end SmallLisp
