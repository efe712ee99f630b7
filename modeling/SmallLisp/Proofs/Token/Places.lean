import SmallLisp.Proofs.Token.Contents

set_option autoImplicit false

/-! # The places of items

`contents` forgets where the items of a text stand. This file keeps the places and says how they
move: a text that begins `n` bytes later has the same items with their spans shifted by `n`, and
behind a line end the items start afresh (`items_append_line`), unless a string is open there.
-/

namespace SmallLisp

open Rule

/-- The same thing `n` bytes further to the right. -/
def Located.shift {α : Type} (n : Nat) (x : Located α) : Located α := ⟨x.span.shift n, x.content⟩

@[simp]
theorem Located.content_shift {α : Type} (n : Nat) (x : Located α) :
    (x.shift n).content = x.content := rfl

@[simp]
theorem Located.span_shift {α : Type} (n : Nat) (x : Located α) :
    (x.shift n).span = x.span.shift n := rfl

/-! ## Items from an offset on -/

/-- The items of a text that begins at a byte offset. -/
def itemsFrom (start : Nat) (text : List Char) : List Item := locate start (pieces text)

/-- The item that a piece makes, if it makes one. -/
def Rule.Content.placed (span : Span) : Rule.Content → List Item
  | .skipped => []
  | .token t => [⟨span, .ok t⟩]
  | .error e => [⟨span, .error e⟩]

theorem locate_cons (start : Nat) (p : Piece) (ps : List Piece) :
    locate start (p :: ps) =
      p.content.placed ⟨start, start + Text.byteLength p.text⟩ ++
        locate (start + Text.byteLength p.text) ps := by
  simp only [locate]
  cases p.content <;> rfl

/-- **A text that begins later has the same items, further to the right.** -/
theorem locate_shift (n start : Nat) (ps : List Piece) :
    locate (start + n) ps = (locate start ps).map (Located.shift n) := by
  induction ps generalizing start with
  | nil => rfl
  | cons p ps ih =>
      have hstop : start + n + Text.byteLength p.text = start + Text.byteLength p.text + n := by
        omega
      rw [locate_cons, locate_cons, List.map_append, hstop, ih]
      cases p.content <;> rfl

theorem itemsFrom_eq_map (n : Nat) (text : List Char) :
    itemsFrom n text = (items text).map (Located.shift n) := by
  have hshift := locate_shift n 0 (pieces text)
  rwa [Nat.zero_add] at hshift

@[simp]
theorem itemsFrom_nil (start : Nat) : itemsFrom start [] = [] := by
  simp [itemsFrom, pieces, locate]

theorem itemsFrom_cons_of_choose {c : Char} {cs : List Char} {r : Rule} {n : Nat}
    (h : choose c cs = some ⟨r, n⟩) (start : Nat) :
    itemsFrom start (c :: cs) =
      (r.read (c :: cs.take n)).placed ⟨start, start + Text.byteLength (c :: cs.take n)⟩ ++
        itemsFrom (start + Text.byteLength (c :: cs.take n)) (cs.drop n) := by
  rw [itemsFrom, pieces, h]
  exact locate_cons _ _ _

theorem itemsFrom_stray {c : Char} (hw : Text.isWhitespace c = true)
    (hs : Text.isSkipped c = false) (cs : List Char) (start : Nat) :
    itemsFrom start (c :: cs) =
      ⟨⟨start, start + Text.byteLength [c]⟩, .error .invalidToken⟩ ::
        itemsFrom (start + Text.byteLength [c]) cs := by
  rw [itemsFrom, pieces, choose_stray hw hs]
  exact locate_cons _ _ _

/-- A run of blanks makes no item, however it is cut. -/
theorem itemsFrom_dropWhile_isSkipped (cs : List Char) (start : Nat) :
    itemsFrom (start + Text.byteLength (cs.takeWhile Text.isSkipped))
      (cs.dropWhile Text.isSkipped) = itemsFrom start cs := by
  cases cs with
  | nil => rfl
  | cons c cs =>
      by_cases hc : Text.isSkipped c = true
      · rw [itemsFrom_cons_of_choose (choose_blank hc cs), drop_length_takeWhile,
          ← List.prefix_iff_eq_take.1 (List.takeWhile_prefix _), List.takeWhile_cons, if_pos hc,
          List.dropWhile_cons, if_pos hc]
        rfl
      · rw [List.takeWhile_cons, if_neg hc, List.dropWhile_cons, if_neg hc]
        rfl

theorem itemsFrom_blank {c : Char} (hc : Text.isSkipped c = true) (cs : List Char)
    (start : Nat) : itemsFrom start (c :: cs) = itemsFrom (start + c.utf8Size) cs := by
  rw [itemsFrom_cons_of_choose (choose_blank hc cs), drop_length_takeWhile,
    ← List.prefix_iff_eq_take.1 (List.takeWhile_prefix _), Text.byteLength_cons,
    ← Nat.add_assoc, itemsFrom_dropWhile_isSkipped]
  rfl

/-! ## Joining texts -/

/-- **Two texts join** if no item of the first reaches into the second. -/
def Joins (a b : List Char) : Prop :=
  ∀ start, itemsFrom start (a ++ b) =
    itemsFrom start a ++ itemsFrom (start + Text.byteLength a) b

/-- A first piece that does not look beyond its text does not matter for joining. -/
theorem Joins.of_choose {c : Char} {cs b : List Char} {r : Rule} {n : Nat}
    (hn : n ≤ cs.length) (h : choose c cs = some ⟨r, n⟩)
    (happ : choose c (cs ++ b) = some ⟨r, n⟩) (hrest : Joins (cs.drop n) b) :
    Joins (c :: cs) b := by
  intro start
  have hbytes : Text.byteLength (c :: cs.take n) + Text.byteLength (cs.drop n) =
      Text.byteLength (c :: cs) := by
    rw [← Text.byteLength_append, List.cons_append, List.take_append_drop]
  rw [List.cons_append, itemsFrom_cons_of_choose happ, itemsFrom_cons_of_choose h,
    List.take_append_of_le_length hn, List.drop_append_of_le_length hn, hrest,
    List.append_assoc, ← hbytes, Nat.add_assoc]

theorem Joins.blank {c : Char} {cs b : List Char} (hc : Text.isSkipped c = true)
    (hrest : Joins cs b) : Joins (c :: cs) b := by
  intro start
  rw [List.cons_append, itemsFrom_blank hc, itemsFrom_blank hc, hrest, Text.byteLength_cons,
    Nat.add_assoc]

theorem Joins.stray {c : Char} {cs b : List Char} (hw : Text.isWhitespace c = true)
    (hs : Text.isSkipped c = false) (hrest : Joins cs b) : Joins (c :: cs) b := by
  intro start
  rw [List.cons_append, itemsFrom_stray hw hs, itemsFrom_stray hw hs, hrest, List.cons_append,
    Nat.add_assoc, ← Text.byteLength_append]
  rfl

theorem takeWhile_append_line (a b : List Char) :
    (a ++ '\n' :: b).takeWhile (· != '\n') = a.takeWhile (· != '\n') := by
  rw [List.takeWhile_append, List.takeWhile_cons_of_neg (by decide), List.append_nil]
  split
  · rename_i hall
    exact ((List.takeWhile_prefix _).eq_of_length hall).symm
  · rfl

/-- **A text joins what follows its line end**, unless it leaves a string open. -/
theorem joins_line {a : List Char} (ha : .error .unterminatedString ∉ contents a)
    (b : List Char) : Joins a ('\n' :: b) := by
  have hline : StartsLine ('\n' :: b) := .inr (.inl ⟨b, rfl⟩)
  induction a using scanInduction with
  | nil =>
      intro start
      rw [itemsFrom_nil]
      rfl
  | blank c cs hc ih => exact .blank hc (ih (contents_blank hc cs ▸ ha))
  | comment cs ih =>
      -- a comment that runs to the end of `a` stops at the line end, as it does without `b`
      have hlen : (cs.takeWhile (· != '\n')).length ≤ cs.length :=
        (List.takeWhile_prefix _).length_le
      have happ := choose_comment (cs ++ '\n' :: b)
      rw [takeWhile_append_line] at happ
      rw [contents_comment] at ha
      rw [← drop_length_takeWhile] at ih ha
      exact .of_choose hlen (choose_comment cs) happ (ih ha)
  | leftParen cs ih =>
      rw [contents_leftParen] at ha
      exact .of_choose (Nat.zero_le _) (choose_leftParen cs) (choose_leftParen _)
        (ih fun h => ha (List.mem_cons_of_mem _ h))
  | rightParen cs ih =>
      rw [contents_rightParen] at ha
      exact .of_choose (Nat.zero_le _) (choose_rightParen cs) (choose_rightParen _)
        (ih fun h => ha (List.mem_cons_of_mem _ h))
  | quote cs ih =>
      rw [contents_quote] at ha
      exact .of_choose (Nat.zero_le _) (choose_quote cs) (choose_quote _)
        (ih fun h => ha (List.mem_cons_of_mem _ h))
  | stray c cs hw hs ih =>
      rw [contents_stray hw hs] at ha
      exact .stray hw hs (ih fun h => ha (List.mem_cons_of_mem _ h))
  | atom c cs hc ih =>
      have hlen : (atomRest cs).length ≤ cs.length := (List.takeWhile_prefix _).length_le
      have happ := choose_atom hc (cs ++ '\n' :: b)
      rw [atomRest_append hline.atomRest_eq_nil] at happ
      rw [contents_atom hc] at ha
      exact .of_choose hlen (choose_atom hc cs) happ
        (ih fun h => ha (List.mem_append_right _ h))
  | string cs ih =>
      rw [contents_string] at ha
      cases hs : Text.unescape cs with
      | none =>
          rw [stringContent, hs] at ha
          exact absurd List.mem_cons_self ha
      | some s =>
          have happ := choose_string (cs ++ '\n' :: b)
          rw [(unescape_append_of_some hs _).2] at happ
          exact .of_choose (stringExtra_le cs) (choose_string cs) happ
            (ih fun h => ha (List.mem_cons_of_mem _ h))

/-- **The items of two texts with a line end between them**: those of the first, and those of the
second behind it. -/
theorem items_append_line {a : List Char} (ha : .error .unterminatedString ∉ contents a)
    (b : List Char) :
    items (a ++ '\n' :: b) =
      items a ++ (items b).map (Located.shift (Text.byteLength a + 1)) := by
  have hjoin := joins_line ha b 0
  rw [Nat.zero_add, itemsFrom_blank (by decide : Text.isSkipped '\n' = true),
    itemsFrom_eq_map _ b] at hjoin
  exact hjoin

end SmallLisp
