import SmallLisp.Proofs.Form.Grammar
import SmallLisp.Proofs.Form.Reading

set_option autoImplicit false

/-! # The reader accepts the grammar

The reader is a machine with a stack of unfinished constructs; the grammar is a relation. The two
agree: a form is read exactly where one is derived, with the same tokens and the same datum.

* *Completeness* (`run_of_derives`): the tokens of a form, in front of anything and inside of any
  constructs, are taken as a whole, and a value of its datum is delivered.
* *Soundness* (`derives_of_run`): whatever has been taken so far is a derivation with its right end
  missing (`Awaits`), so that the token that completes a form completes a derivation.
-/

namespace SmallLisp

open Heap Reader

/-- Goes on from the result of taking a token. -/
def Reader.resume (lisp : Interpreter) (after : Reader) : Progress × Heap → Reading
  | (.done form, h) => ⟨.ok form, after, h⟩
  | (.failed e, h) => ⟨.error e, after, h⟩
  | (.more stage, h) => run lisp after.length stage after.pending h

theorem Reader.run_item (lisp : Interpreter) (length : Nat) (stage : Stage)
    (token : Located Token) (rest : List Item) (h : Heap) :
    run lisp length stage (token.item :: rest) h =
      resume lisp ⟨rest, token.span.stop, length⟩ (stage.take lisp token h) := by
  rw [run]
  simp only [Located.content_item, Located.span_item]
  generalize stage.take lisp ⟨token.span, token.content⟩ h = out
  rcases out with ⟨_ | _ | _, _⟩ <;> rfl

section

variable {lisp : Interpreter}

/-! ## Completeness -/

/-- A value of the datum is delivered to the constructs around it, in a heap that has grown, and
reading goes on behind the tokens. -/
def Delivers (lisp : Interpreter) (length : Nat) (stack : List Context) (rest : List Item)
    (h : Heap) (out : Reading) (d : Datum) : Prop :=
  ∃ (v : Value) (h' : Heap) (stop : Nat), Changes h h' ∧ v.Denotes lisp h' d ∧
    out = resume lisp ⟨rest, stop, length⟩ (deliver lisp v stack h')

/-- An atom is delivered as it is made. -/
theorem delivers_atom {length : Nat} {stack : List Context} {rest : List Item} {h h' : Heap}
    {token : Located Token} {v : Value} {d : Datum} (hc : Changes h h') (hv : v.Denotes lisp h' d)
    (htake : takeForm lisp token stack h = deliver lisp v stack h') :
    Delivers lisp length stack rest h (run lisp length (.form stack) (token.item :: rest) h) d := by
  refine ⟨v, h', token.span.stop, hc, hv, ?_⟩
  rw [run_item, ← htake]
  rfl

theorem ne_nil_of_derivesAll {ts : List Token} {ds : List Datum} (hs : DerivesAll ts ds) :
    ds ≠ [] := by
  cases hs with
  | one hd => exact List.cons_ne_nil _ _
  | more hs hd => exact List.append_ne_nil_of_right_ne_nil _ (List.cons_ne_nil _ _)

mutual

/-- **Completeness**: the tokens of a form are taken as a whole. -/
theorem run_of_derives {ts : List Token} {d : Datum} :
    Derives ts d → ∀ (tokens : List (Located Token)), tokens.map Located.content = ts →
      ∀ (length : Nat) (stack : List Context) (rest : List Item) (h : Heap), lisp.Sound h →
      Delivers lisp length stack rest h
        (run lisp length (.form stack) (tokens.map Located.item ++ rest) h) d
  | .integer i => by
      intro tokens hts length stack rest h _
      obtain ⟨⟨span, _⟩, rfl, rfl⟩ := List.map_eq_singleton_iff.1 hts
      exact delivers_atom (.single (.alloc h _)) (.number _ _) rfl
  | .float x => by
      intro tokens hts length stack rest h _
      obtain ⟨⟨span, _⟩, rfl, rfl⟩ := List.map_eq_singleton_iff.1 hts
      exact delivers_atom (.single (.alloc h _)) (.number _ _) rfl
  | .string s => by
      intro tokens hts length stack rest h _
      obtain ⟨⟨span, _⟩, rfl, rfl⟩ := List.map_eq_singleton_iff.1 hts
      exact delivers_atom (.single (.alloc h _)) (.string _ _) rfl
  | .symbol name => by
      intro tokens hts length stack rest h hs
      obtain ⟨⟨span, _⟩, rfl, rfl⟩ := List.map_eq_singleton_iff.1 hts
      exact delivers_atom (lisp.changes_intern h name) (denotes_intern hs name) rfl
  | .empty => by
      intro tokens hts length stack rest h hs
      obtain ⟨⟨span, _⟩, tokens, rfl, rfl, ht⟩ := List.map_eq_cons_iff.1 hts
      obtain ⟨⟨span', _⟩, rfl, rfl⟩ := List.map_eq_singleton_iff.1 ht
      refine ⟨lisp.nilValue, h, span'.stop, .refl, denotes_nil hs, ?_⟩
      rw [List.map_cons, List.cons_append, run_item]
      exact run_item lisp length (.form (.list span [] :: stack)) ⟨span', .rightParen⟩ rest h
  | .quoted hd => by
      intro tokens hts length stack rest h hs
      obtain ⟨⟨span, _⟩, tokens, rfl, rfl, ht⟩ := List.map_eq_cons_iff.1 hts
      obtain ⟨v, h', stop, hc, hv, hrun⟩ :=
        run_of_derives hd tokens ht length (.quote :: stack) rest h hs
      -- the delivered form meets the quote on the stack and is made a list with it
      refine ⟨_, _, stop, hc.trans (changes_quoted lisp h' _),
        denotes_quoted (hs.of_changes hc) hv, ?_⟩
      rw [List.map_cons, List.cons_append, run_item]
      exact hrun
  | .list hds => by
      intro tokens hts length stack rest h hs
      obtain ⟨⟨span, _⟩, tokens, rfl, rfl, ht⟩ := List.map_eq_cons_iff.1 hts
      obtain ⟨tokens, last, rfl, hds', hlast⟩ := List.map_eq_append_iff.1 ht
      obtain ⟨⟨span', _⟩, rfl, rfl⟩ := List.map_eq_singleton_iff.1 hlast
      obtain ⟨vs, h', hc, hv, hrun⟩ := run_of_derivesAll hds tokens hds' length span [] stack
        ((⟨span', .rightParen⟩ : Located Token).item :: rest) h hs
      refine ⟨_, _, span'.stop, hc.trans (lisp.changes_list h' vs),
        denotes_list (hs.of_changes hc) hv, ?_⟩
      rw [List.map_cons, List.cons_append, run_item, List.map_append, List.append_assoc]
      refine hrun.trans ?_
      rw [run_item, List.append_nil]
      simp only [Stage.take, takeForm, List.reverse_reverse]
  | .dotted hds htail => by
      intro tokens hts length stack rest h hs
      obtain ⟨⟨span, _⟩, tokens, rfl, rfl, ht⟩ := List.map_eq_cons_iff.1 hts
      obtain ⟨tokens, after, rfl, hds', hafter⟩ := List.map_eq_append_iff.1 ht
      obtain ⟨⟨dot, _⟩, after, rfl, rfl, hclose⟩ := List.map_eq_cons_iff.1 hafter
      obtain ⟨tailTokens, last, rfl, htt, hlast⟩ := List.map_eq_append_iff.1 hclose
      obtain ⟨⟨span', _⟩, rfl, rfl⟩ := List.map_eq_singleton_iff.1 hlast
      obtain ⟨vs, h₁, hc₁, hv, hrun₁⟩ := run_of_derivesAll hds tokens hds' length span [] stack
        ((⟨dot, .dot⟩ : Located Token).item ::
          (tailTokens.map Located.item ++ (⟨span', .rightParen⟩ : Located Token).item :: rest)) h hs
      -- a dot is only taken behind at least one element
      obtain ⟨x, xs, hx⟩ : ∃ x xs, vs.reverse = x :: xs := by
        refine List.exists_cons_of_ne_nil fun hnil => ne_nil_of_derivesAll hds ?_
        rw [List.reverse_eq_nil_iff] at hnil
        rw [hnil] at hv
        exact List.forall₂_nil_left_iff.1 hv
      obtain ⟨v, h₂, stop, hc₂, hvt, hrun₂⟩ := run_of_derives htail tailTokens htt length
        (.tail span (x :: xs) :: stack) ((⟨span', .rightParen⟩ : Located Token).item :: rest) h₁
        (hs.of_changes hc₁)
      have hvs := forall₂_denotes_mono (hc₂.grows lisp.package) hv
      rw [← List.reverse_reverse vs, hx] at hvs
      refine ⟨_, _, span'.stop, (hc₁.trans hc₂).trans (changes_listWithTail h₂ v _),
        denotes_listWithTail hvs hvt, ?_⟩
      rw [List.map_cons, List.cons_append, run_item, List.map_append, List.append_assoc,
        List.map_cons, List.cons_append, List.map_append, List.append_assoc]
      refine hrun₁.trans ?_
      rw [List.append_nil, hx, run_item]
      refine hrun₂.trans ?_
      exact run_item lisp length (.closing span (x :: xs) v stack) ⟨span', .rightParen⟩ rest h₂

theorem run_of_derivesAll {ts : List Token} {ds : List Datum} :
    DerivesAll ts ds → ∀ (tokens : List (Located Token)), tokens.map Located.content = ts →
      ∀ (length : Nat) (opened : Span) (items : List Value) (stack : List Context)
        (rest : List Item) (h : Heap), lisp.Sound h →
      ∃ (vs : List Value) (h' : Heap), Changes h h' ∧
        List.Forall₂ (Value.Denotes lisp h') vs ds ∧
        run lisp length (.form (.list opened items :: stack))
            (tokens.map Located.item ++ rest) h =
          run lisp length (.form (.list opened (vs.reverse ++ items) :: stack)) rest h'
  | .one hd => by
      intro tokens hts length opened items stack rest h hs
      obtain ⟨v, h', stop, hc, hv, hrun⟩ :=
        run_of_derives hd tokens hts length (.list opened items :: stack) rest h hs
      exact ⟨[v], h', hc, .cons hv .nil, hrun⟩
  | .more hds hd => by
      intro tokens hts length opened items stack rest h hs
      obtain ⟨tokens, later, rfl, ht, hlater⟩ := List.map_eq_append_iff.1 hts
      obtain ⟨vs, h₁, hc₁, hvs, hrun₁⟩ := run_of_derivesAll hds tokens ht length opened items stack
        (later.map Located.item ++ rest) h hs
      obtain ⟨v, h₂, stop, hc₂, hv, hrun₂⟩ := run_of_derives hd later hlater length
        (.list opened (vs.reverse ++ items) :: stack) rest h₁ (hs.of_changes hc₁)
      refine ⟨vs ++ [v], h₂, hc₁.trans hc₂,
        List.rel_append (forall₂_denotes_mono (hc₂.grows lisp.package) hvs) (.cons hv .nil), ?_⟩
      rw [List.map_append, List.append_assoc, hrun₁, hrun₂, List.reverse_append]
      rfl

end

/-! ## Soundness -/

/-- **Tokens that lead into constructs**: a derivation of each construct of the stack with its
right end missing, outermost first. -/
inductive Awaits (lisp : Interpreter) (h : Heap) : List Token → List Context → Prop
  | top : Awaits lisp h [] []
  | quote {ts : List Token} {stack : List Context} (ha : Awaits lisp h ts stack) :
      Awaits lisp h (ts ++ [.quote]) (.quote :: stack)
  | opened (span : Span) {ts : List Token} {stack : List Context} (ha : Awaits lisp h ts stack) :
      Awaits lisp h (ts ++ [.leftParen]) (.list span [] :: stack)
  | list (span : Span) {ts us : List Token} {stack : List Context} {items : List Value}
      {ds : List Datum} (ha : Awaits lisp h ts stack) (hs : DerivesAll us ds)
      (hv : List.Forall₂ (Value.Denotes lisp h) items.reverse ds) :
      Awaits lisp h (ts ++ .leftParen :: us) (.list span items :: stack)
  | tail (span : Span) {ts us : List Token} {stack : List Context} {items : List Value}
      {ds : List Datum} (ha : Awaits lisp h ts stack) (hs : DerivesAll us ds)
      (hv : List.Forall₂ (Value.Denotes lisp h) items.reverse ds) :
      Awaits lisp h (ts ++ .leftParen :: (us ++ [.dot])) (.tail span items :: stack)

theorem Awaits.mono {h h' : Heap} {ts : List Token} {stack : List Context}
    (hg : Grows lisp.package h h') (ha : Awaits lisp h ts stack) : Awaits lisp h' ts stack := by
  induction ha with
  | top => exact .top
  | quote _ ih => exact .quote ih
  | opened span _ ih => exact .opened span ih
  | list span _ hs hv ih => exact .list span ih hs (forall₂_denotes_mono hg hv)
  | tail span _ hs hv ih => exact .tail span ih hs (forall₂_denotes_mono hg hv)

/-- What the tokens taken so far have to do with the stage that the reader is at. -/
def Stage.Covers (lisp : Interpreter) (h : Heap) (ts : List Token) : Stage → Prop
  | .form stack => Awaits lisp h ts stack
  | .closing _ items tail stack =>
      ∃ (front us ws : List Token) (ds : List Datum) (d : Datum),
        Awaits lisp h front stack ∧ DerivesAll us ds ∧
          List.Forall₂ (Value.Denotes lisp h) items.reverse ds ∧ Derives ws d ∧
          tail.Denotes lisp h d ∧ ts = front ++ .leftParen :: (us ++ .dot :: ws)

/-- What the tokens taken so far have to do with the result of the last one. -/
def Progress.Covers (lisp : Interpreter) (h : Heap) (ts : List Token) : Progress → Prop
  | .done form => ∃ d : Datum, Derives ts d ∧ form.Denotes lisp h d
  | .more stage => stage.Covers lisp h ts
  | .failed _ => True

/-- A form that is complete completes the quotes around it and becomes a part of the innermost
list. -/
theorem deliver_covers {ts us : List Token} {stack : List Context} {v : Value} {d : Datum}
    {h : Heap} (hs : lisp.Sound h) (ha : Awaits lisp h ts stack) (hd : Derives us d)
    (hv : v.Denotes lisp h d) :
    (deliver lisp v stack h).1.Covers lisp (deliver lisp v stack h).2 (ts ++ us) := by
  induction stack generalizing ts us v d h with
  | nil =>
      cases ha
      exact ⟨d, hd, hv⟩
  | cons context stack ih =>
      cases ha with
      | quote ha =>
          -- the quoted form is itself complete, and is handed on outwards
          have hc := changes_quoted lisp h [.symbol (lisp.intern h "quote").1, v]
          rw [List.append_assoc]
          exact ih (hs.of_changes hc) (ha.mono (hc.grows lisp.package)) hd.quoted
            (denotes_quoted hs hv)
      | opened span ha =>
          rw [List.append_assoc]
          exact .list span ha (.one hd) (.cons hv .nil)
      | list span ha hds hvs =>
          rw [List.append_assoc, List.cons_append]
          refine .list span ha (.more hds hd) ?_
          rw [List.reverse_cons]
          exact List.rel_append hvs (.cons hv .nil)
      | tail span ha hds hvs =>
          refine ⟨_, _, us, _, d, ha, hds, hvs, hd, hv, ?_⟩
          simp

/-- An atom completes a form at once. -/
theorem deliver_atom_covers {ts : List Token} {stack : List Context} {token : Token} {v : Value}
    {d : Datum} {h h' : Heap} (hs : lisp.Sound h) (hc : Changes h h')
    (ha : Awaits lisp h ts stack) (hd : Derives [token] d) (hv : v.Denotes lisp h' d) :
    (deliver lisp v stack h').1.Covers lisp (deliver lisp v stack h').2 (ts ++ [token]) :=
  deliver_covers (hs.of_changes hc) (ha.mono (hc.grows lisp.package)) hd hv

theorem takeForm_covers {ts : List Token} {stack : List Context} {h : Heap} (hs : lisp.Sound h)
    (ha : Awaits lisp h ts stack) (token : Located Token) :
    (takeForm lisp token stack h).1.Covers lisp (takeForm lisp token stack h).2
      (ts ++ [token.content]) := by
  obtain ⟨span, token⟩ := token
  cases token with
  | leftParen => exact .opened span ha
  | quote => exact .quote ha
  | integer i => exact deliver_atom_covers hs (.single (.alloc h _)) ha (.integer i) (.number _ _)
  | float x => exact deliver_atom_covers hs (.single (.alloc h _)) ha (.float x) (.number _ _)
  | string s => exact deliver_atom_covers hs (.single (.alloc h _)) ha (.string s) (.string _ _)
  | symbol name =>
      exact deliver_atom_covers hs (lisp.changes_intern h name) ha (.symbol name)
        (denotes_intern hs name)
  | rightParen =>
      cases ha with
      | opened _ ha =>
          rw [List.append_assoc]
          exact deliver_covers hs ha .empty (denotes_nil hs)
      | @list _ _ _ _ items _ ha hds hvs =>
          have hc := lisp.changes_list h items.reverse
          rw [List.append_assoc]
          exact deliver_covers (hs.of_changes hc) (ha.mono (hc.grows lisp.package)) (.list hds)
            (denotes_list hs hvs)
      | top => exact trivial
      | quote _ => exact trivial
      | tail _ _ _ _ => exact trivial
  | dot =>
      cases ha with
      | @list _ ts us stack items ds ha hds hvs =>
          -- the list has an element, or else nothing would have been derived
          cases items with
          | nil => exact absurd (List.forall₂_nil_left_iff.1 hvs) (ne_nil_of_derivesAll hds)
          | cons x xs =>
              rw [List.append_assoc]
              exact .tail _ ha hds hvs
      | top => exact trivial
      | opened _ _ => exact trivial
      | quote _ => exact trivial
      | tail _ _ _ _ => exact trivial

theorem take_covers {ts : List Token} {stage : Stage} {h : Heap} (hs : lisp.Sound h)
    (hcov : stage.Covers lisp h ts) (token : Located Token) :
    (stage.take lisp token h).1.Covers lisp (stage.take lisp token h).2
      (ts ++ [token.content]) := by
  cases stage with
  | form stack => exact takeForm_covers hs hcov token
  | closing span items tail stack =>
      obtain ⟨front, us, ws, ds, d, ha, hds, hvs, hd, hv, rfl⟩ := hcov
      obtain ⟨span', token⟩ := token
      cases token with
      | rightParen =>
          have hc := changes_listWithTail h tail items.reverse
          have htokens : front ++ .leftParen :: (us ++ .dot :: ws) ++ [.rightParen] =
              front ++ .leftParen :: (us ++ .dot :: (ws ++ [.rightParen])) := by simp
          rw [htokens]
          exact deliver_covers (hs.of_changes hc) (ha.mono (hc.grows lisp.package))
            (.dotted hds hd) (denotes_listWithTail hvs hv)
      | _ => exact trivial

theorem Reader.Feeds.covers {ts : List Token} {stage last : Stage}
    {tokens : List (Located Token)} {h h' : Heap} (hf : Feeds lisp stage tokens h last h')
    (hs : lisp.Sound h) (hcov : stage.Covers lisp h ts) :
    last.Covers lisp h' (ts ++ tokens.map Located.content) := by
  induction hf generalizing ts with
  | nil => simpa using hcov
  | @cons stage next last token tokens h h' h'' htake _ ih =>
      have hstep := take_covers hs hcov token
      have hc := changes_take lisp token h stage
      rw [htake] at hstep hc
      have := ih (hs.of_changes hc) hstep
      rwa [List.append_assoc] at this

/-- **Soundness**: the tokens that were taken for a form derive it. -/
theorem derives_of_run {length : Nat} {its : List Item} {h : Heap} {v : Value}
    (hs : lisp.Sound h) (hok : (run lisp length (.form []) its h).result = .ok v) :
    ∃ (tokens : List (Located Token)) (d : Datum),
      its = tokens.map Located.item ++ (run lisp length (.form []) its h).reader.pending ∧
      Derives (tokens.map Located.content) d ∧
      v.Denotes lisp (run lisp length (.form []) its h).heap d := by
  have hrun := runsTo_run lisp length (.form []) its h
  generalize run lisp length (.form []) its h = out at hrun hok ⊢
  cases hrun with
  | @done tokens token rest last h₁ h₂ form hf htake =>
      cases hok
      -- nothing has been taken at the start, so what covers the end is a derivation of it all
      have hlast := take_covers (hs.of_changes hf.changes) (hf.covers hs Awaits.top) token
      rw [htake] at hlast
      obtain ⟨d, hd, hv⟩ := hlast
      exact ⟨tokens ++ [token], d, by simp, by simpa using hd, hv⟩
  | ended hf => cases hok
  | failed hf htake => cases hok
  | lexical hf => cases hok

/-! ## Forms at any point of a text -/

/-- **A form is read**: the reader yields the value and takes `k` items for it. -/
def Reader.Yields (r : Reader) (lisp : Interpreter) (h : Heap) (k : Nat) (v : Value) : Prop :=
  (r.read lisp h).result = .ok v ∧ k ≤ r.pending.length ∧
    (r.read lisp h).reader.pending = r.pending.drop k

theorem Located.item_injective : Function.Injective Located.item := by
  rintro ⟨span, token⟩ ⟨span', token'⟩ heq
  cases heq
  rfl

/-- The items of a text that lexes without error are its tokens. -/
theorem items_of_tokenize {source : List Char} {tokens : List (Located Token)}
    (ht : tokenize source = .ok tokens) : items source = tokens.map Located.item := by
  unfold tokenize at ht
  generalize items source = its at ht ⊢
  induction its generalizing tokens with
  | nil =>
      cases ht
      rfl
  | cons item its ih =>
      obtain ⟨span, content⟩ := item
      rw [List.mapM_cons] at ht
      cases content with
      | error e => cases ht
      | ok token =>
          simp only [bind, Except.bind] at ht
          split at ht
          · cases ht
          · rename_i later hlater
            cases ht
            rw [ih hlater]
            rfl

theorem yields_of_derives {h : Heap} (hs : lisp.Sound h) {r : Reader}
    {tokens : List (Located Token)} (hp : r.pending = tokens.map Located.item) {k : Nat}
    (hk : k ≤ tokens.length) {d : Datum} (hd : Derives ((tokens.take k).map Located.content) d) :
    ∃ v : Value, r.Yields lisp h k v ∧ v.Denotes lisp (r.read lisp h).heap d := by
  obtain ⟨v, h', stop, _, hv, hrun⟩ := run_of_derives hd (tokens.take k) rfl r.length []
    ((tokens.drop k).map Located.item) h hs
  rw [← List.map_append, List.take_append_drop, ← hp] at hrun
  have hread : r.read lisp h =
      ⟨.ok v, ⟨(tokens.drop k).map Located.item, stop, r.length⟩, h'⟩ := hrun
  refine ⟨v, ⟨?_, ?_, ?_⟩, ?_⟩
  · rw [hread]
  · rwa [hp, List.length_map]
  · rw [hread, hp, List.map_drop]
  · rwa [hread]

theorem derives_of_yields {h : Heap} (hs : lisp.Sound h) {r : Reader}
    {tokens : List (Located Token)} (hp : r.pending = tokens.map Located.item) {k : Nat}
    {v : Value} (hy : r.Yields lisp h k v) :
    ∃ d : Datum, Derives ((tokens.take k).map Located.content) d ∧
      v.Denotes lisp (r.read lisp h).heap d := by
  obtain ⟨hok, _, hrest⟩ := hy
  obtain ⟨taken, d, hits, hd, hv⟩ := derives_of_run hs hok
  refine ⟨d, ?_, hv⟩
  -- what was taken are the first `k` tokens, because the rest is what follows them
  have htaken : taken.map Located.item = (tokens.take k).map Located.item := by
    have hrest' : (run lisp r.length (.form []) r.pending h).reader.pending =
        r.pending.drop k := hrest
    rw [hrest', hp, ← List.map_drop] at hits
    have := congrArg (List.map Located.item) (List.take_append_drop k tokens)
    rw [List.map_append, hits] at this
    exact (List.append_cancel_right this).symm
  rwa [← List.map_injective_iff.2 Located.item_injective htaken]

theorem Reader.Yields.unique {h : Heap} {r : Reader} {k k' : Nat} {v v' : Value}
    (hy : r.Yields lisp h k v) (hy' : r.Yields lisp h k' v') : k = k' ∧ v = v' := by
  obtain ⟨hok, hk, hrest⟩ := hy
  obtain ⟨hok', hk', hrest'⟩ := hy'
  refine ⟨?_, Except.ok.inj (hok.symm.trans hok')⟩
  have hlen := congrArg List.length (hrest.symm.trans hrest')
  rw [List.length_drop, List.length_drop] at hlen
  omega

/-- A text is read as one form if a form is read at its start and takes all of it. -/
theorem readText_ok_iff (lisp : Interpreter) (source : List Char) (h : Heap) (v : Value) :
    (readText lisp source h).1 = .ok v ↔
      (Reader.ofSource source).Yields lisp h (items source).length v := by
  unfold readText Reader.Yields
  show _ ↔ _ ∧ (items source).length ≤ (items source).length ∧ _ = (items source).drop _
  rw [List.drop_length]
  generalize (Reader.ofSource source).read lisp h = out
  simp only
  cases hresult : out.result with
  | error e => exact ⟨nofun, fun hy => nomatch hy.1⟩
  | ok form =>
      cases hpending : out.reader.pending with
      | nil =>
          simp only [Except.ok.injEq, and_true]
          exact ⟨fun hv => ⟨hv, Nat.le_refl _⟩, And.left⟩
      | cons item rest =>
          refine ⟨fun hv => ?_, fun hy => nomatch hy.2.2⟩
          simp only at hv
          split at hv <;> cases hv

end

/-- **The reader accepts exactly the grammar.** At every point of a text that lexes without error,
a form is read from the next `k` tokens if and only if these derive it; there is at most one such
`k` and one such form, and every value that is read stands for one. A whole text is read if and
only if its tokens derive a form. -/
theorem read_iff_derives {lisp : Interpreter} {h : Heap} (hr : lisp.Reachable h)
    {source : List Char} {tokens : List (Located Token)} (ht : tokenize source = .ok tokens) :
    (∀ (r : Reader) (i : Nat), r.pending = (items source).drop i →
      (∀ k d, (∃ v : Value, r.Yields lisp h k v ∧ v.Denotes lisp (r.read lisp h).heap d) ↔
        k ≤ (tokens.drop i).length ∧ Derives (((tokens.drop i).take k).map Located.content) d) ∧
      (∀ v, (r.read lisp h).result = .ok v →
        ∃ k d, r.Yields lisp h k v ∧ v.Denotes lisp (r.read lisp h).heap d) ∧
      (∀ k k' d d', k ≤ (tokens.drop i).length → k' ≤ (tokens.drop i).length →
        Derives (((tokens.drop i).take k).map Located.content) d →
        Derives (((tokens.drop i).take k').map Located.content) d' → k = k' ∧ d = d')) ∧
    ((∃ v, (readText lisp source h).1 = .ok v) ↔ ∃ d, Derives (tokens.map Located.content) d) := by
  have hs := hr.sound
  have hitems := items_of_tokenize ht
  refine ⟨fun r i hri => ?_, ?_⟩
  · have hp : r.pending = (tokens.drop i).map Located.item := by
      rw [hri, hitems, List.map_drop]
    refine ⟨fun k d => ⟨?_, ?_⟩, fun v hok => ?_, fun k k' d d' hk hk' hd hd' => ?_⟩
    · rintro ⟨v, hy, hv⟩
      obtain ⟨d', hd', hv'⟩ := derives_of_yields hs hp hy
      have hs' := hs.of_changes (r.changes_read lisp h)
      rw [hv.unique hs' hv']
      exact ⟨by simpa [hp] using hy.2.1, hd'⟩
    · rintro ⟨hk, hd⟩
      exact yields_of_derives hs hp hk hd
    · obtain ⟨taken, d, hits, _, hv⟩ := derives_of_run hs hok
      refine ⟨taken.length, d, ⟨hok, ?_, ?_⟩, hv⟩
      · rw [hits]
        simp
      · conv_rhs => rw [hits]
        rw [List.drop_left' (by simp)]
        rfl
    · -- two derivations would both be read, but the reader is a function
      obtain ⟨v, hy, hv⟩ := yields_of_derives hs hp hk hd
      obtain ⟨v', hy', hv'⟩ := yields_of_derives hs hp hk' hd'
      obtain ⟨rfl, rfl⟩ := hy.unique hy'
      have hs' := hs.of_changes (r.changes_read lisp h)
      exact ⟨rfl, hv.unique hs' hv'⟩
  · have hp : (Reader.ofSource source).pending = tokens.map Located.item := hitems
    have hlen : (items source).length = tokens.length := by rw [hitems, List.length_map]
    simp only [readText_ok_iff, hlen]
    constructor
    · rintro ⟨v, hy⟩
      obtain ⟨d, hd, _⟩ := derives_of_yields hs hp hy
      rw [List.take_length] at hd
      exact ⟨d, hd⟩
    · rintro ⟨d, hd⟩
      rw [← List.take_length (l := tokens)] at hd
      obtain ⟨v, hy, _⟩ := yields_of_derives hs hp (Nat.le_refl _) hd
      exact ⟨v, hy⟩

/-- In a new interpreter a dotted pair with a quoted tail is read, since its tokens derive it. -/
theorem read_dotted_pair_of_derives :
    (Interpreter.fresh Heap.empty).1.Reachable (Interpreter.fresh Heap.empty).2 ∧
    tokenize ['(', 'a', ' ', '.', ' ', '\x27', 'b', ')'] =
      .ok [⟨⟨0, 1⟩, .leftParen⟩, ⟨⟨1, 2⟩, .symbol "a"⟩, ⟨⟨3, 4⟩, .dot⟩, ⟨⟨5, 6⟩, .quote⟩,
        ⟨⟨6, 7⟩, .symbol "b"⟩, ⟨⟨7, 8⟩, .rightParen⟩] ∧
    ∃ v, (readText (Interpreter.fresh Heap.empty).1 ['(', 'a', ' ', '.', ' ', '\x27', 'b', ')']
      (Interpreter.fresh Heap.empty).2).1 = .ok v := by
  have hr : (Interpreter.fresh Heap.empty).1.Reachable (Interpreter.fresh Heap.empty).2 :=
    .fresh Heap.empty rfl
  have ht : tokenize ['(', 'a', ' ', '.', ' ', '\x27', 'b', ')'] =
      .ok [⟨⟨0, 1⟩, .leftParen⟩, ⟨⟨1, 2⟩, .symbol "a"⟩, ⟨⟨3, 4⟩, .dot⟩, ⟨⟨5, 6⟩, .quote⟩,
        ⟨⟨6, 7⟩, .symbol "b"⟩, ⟨⟨7, 8⟩, .rightParen⟩] := by decide +kernel
  have hd : Derives [.leftParen, .symbol "a", .dot, .quote, .symbol "b", .rightParen]
      (.listWithTail (.quoted (.symbol "b")) [.symbol "a"]) :=
    .dotted (.one (.symbol "a")) (.quoted (.symbol "b"))
  exact ⟨hr, ht, (read_iff_derives hr ht).2.2 ⟨_, hd⟩⟩

end SmallLisp
