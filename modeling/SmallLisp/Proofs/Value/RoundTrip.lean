import SmallLisp.Proofs.Form.Acceptance
import SmallLisp.Proofs.Token.Written
import SmallLisp.Value.Printer

set_option autoImplicit false

/-! # Printing and reading back

The text of a value is read as a value of the same shape. The proof goes by way of the tokens of
a datum (`Datum.tokens`), which stand between the two sides:

* the tokens of a datum derive it (`derives_tokens`), so the reader, which accepts the grammar,
  makes a value of the datum from them;
* the text of a value consists of the tokens of its datum (`writes_of_isData`).

Both the printer and the tokens have two modes, a form on its own and the rest of a list. They
are proved together, by induction on the tree: the rest of a list is what completes the elements
in front of it, whichever they are.
-/

namespace SmallLisp

open Pattern Rule

/-! ## Data -/

/-- **Data**: trees of conses over integers, strings and those symbols of the interpreter's
package whose names are lexed as symbols. The empty list is one of them. -/
inductive Value.IsData (lisp : Interpreter) (h : Heap) : Value → Prop
  | integer (id : ObjectId) (i : Int64) : IsData lisp h (.number id (.integer i))
  | string (id : ObjectId) (s : String) : IsData lisp h (.string id s)
  | symbol {s : Symbol} (hs : lisp.findSymbol h s.name = some s)
      (hm : Matches symbolPattern s.name.toList) : IsData lisp h (.symbol s)
  | cons (id : ObjectId) {car cdr : Value} (ha : IsData lisp h car) (hd : IsData lisp h cdr) :
      IsData lisp h (.cons id car cdr)

/-- **Values that differ in identities only**: the same shape, equal numbers and strings, and the
very same symbols. -/
inductive Value.Similar : Value → Value → Prop
  | number (id id' : ObjectId) (n : Number) : Similar (.number id n) (.number id' n)
  | string (id id' : ObjectId) (s : String) : Similar (.string id s) (.string id' s)
  | symbol (s : Symbol) : Similar (.symbol s) (.symbol s)
  | cons (id id' : ObjectId) {car cdr car' cdr' : Value} (ha : Similar car car')
      (hd : Similar cdr cdr') : Similar (.cons id car cdr) (.cons id' car' cdr')

theorem Value.IsData.denotes {lisp : Interpreter} {h : Heap} {v : Value} (hv : v.IsData lisp h) :
    ∃ d, v.Denotes lisp h d := by
  induction hv with
  | integer id i => exact ⟨_, .number id _⟩
  | string id s => exact ⟨_, .string id s⟩
  | symbol hs hm => exact ⟨_, .symbol hs⟩
  | cons id _ _ iha ihd =>
      obtain ⟨a, ha⟩ := iha
      obtain ⟨d, hd⟩ := ihd
      exact ⟨_, .cons id ha hd⟩

/-- Values of one datum are similar. -/
theorem Value.Denotes.similar {lisp : Interpreter} {h : Heap} {v v' : Value} {d : Datum}
    (hv : v.Denotes lisp h d) (hv' : v'.Denotes lisp h d) : v.Similar v' := by
  induction hv generalizing v' with
  | number id n =>
      cases hv' with
      | number id' => exact .number id id' n
  | string id s =>
      cases hv' with
      | string id' => exact .string id id' s
  | @symbol s name hs =>
      cases hv' with
      | @symbol s' _ hs' =>
          obtain rfl : s = s' := Option.some.inj (hs.symm.trans hs')
          exact .symbol s
  | cons id _ _ iha ihd =>
      cases hv' with
      | cons id' ha hd => exact .cons id id' (iha ha) (ihd hd)

/-! ## The tokens of a datum -/

/-- The tokens of an atom, on its own or as a dotted tail with the end of the list. -/
def atomTokens (inTail : Bool) (t : Token) : List Token :=
  if inTail then [.dot, t, .rightParen] else [t]

/-- **The tokens of a datum**, either on its own or, with `inTail`, as what follows the elements
of a list. -/
def Datum.tokens (inTail : Bool) : Datum → List Token
  | .number (.integer i) => atomTokens inTail (.integer i)
  | .number (.float x) => atomTokens inTail (.float x)
  | .string s => atomTokens inTail (.string s)
  | .symbol name =>
      if inTail && name == "nil" then [.rightParen] else atomTokens inTail (.symbol name)
  | .cons a d => (if inTail then [] else [.leftParen]) ++ (a.tokens false ++ d.tokens true)

/-- Tokens that complete a list behind any elements, so that it ends in the datum. -/
def Completes (ts : List Token) (d : Datum) : Prop :=
  ∀ us ds, DerivesAll us ds → Derives (.leftParen :: (us ++ ts)) (.listWithTail d ds)

theorem derives_atomTokens {t : Token} {d : Datum} (hd : Derives [t] d) :
    Derives (atomTokens false t) d ∧ Completes (atomTokens true t) d :=
  ⟨hd, fun _ _ hs => .dotted hs hd⟩

/-- **The tokens of a datum derive it.** -/
theorem derives_tokens (d : Datum) :
    Derives (d.tokens false) d ∧ Completes (d.tokens true) d := by
  induction d with
  | number n =>
      cases n with
      | integer i => exact derives_atomTokens (.integer i)
      | float x => exact derives_atomTokens (.float x)
  | string s => exact derives_atomTokens (.string s)
  | symbol name =>
      refine ⟨(derives_atomTokens (.symbol name)).1, ?_⟩
      -- `nil` at the end of a list is not written, whatever else is there comes behind a dot
      by_cases hname : name = "nil"
      · subst hname
        exact fun _ _ hs => .list hs
      · have htokens : (Datum.symbol name).tokens true = atomTokens true (.symbol name) := by
          simp [Datum.tokens, hname]
        rw [htokens]
        exact (derives_atomTokens (.symbol name)).2
  | cons a d iha ihd =>
      refine ⟨ihd.2 _ _ (.one iha.1), fun us ds hs => ?_⟩
      -- the car is one more element in front of the rest
      have hmore := ihd.2 _ _ (.more hs iha.1)
      rw [List.append_assoc, Datum.listWithTail_append] at hmore
      exact hmore

/-! ## The tokens of a text -/

theorem atomRest_of_isDelimiter {c : Char} (hc : isDelimiter c = true) (cs : List Char) :
    atomRest (c :: cs) = [] :=
  List.takeWhile_cons_of_neg (by simp [hc])

/-- The text of a value, in either mode, consists of the tokens of the datum. On its own it may
end with an atom, so a delimiter or the end of the text has to follow. -/
def Value.Writes (v : Value) (d : Datum) : Prop :=
  (∀ rest, atomRest rest = [] →
    contents (v.render false ++ rest) = (d.tokens false).map .ok ++ contents rest) ∧
  ∀ rest, contents (v.render true ++ rest) = (d.tokens true).map .ok ++ contents rest

/-- An atom that is not the empty list is written as it is, or behind a dot. -/
theorem contents_render_atom {v : Value} {t : Token} (halone : v.render false = v.atomChars)
    (htail : v.render true = ' ' :: '.' :: ' ' :: (v.atomChars ++ [')']))
    (hatom : ∀ rest, atomRest rest = [] →
      contents (v.atomChars ++ rest) = .ok t :: contents rest) :
    (∀ rest, atomRest rest = [] →
      contents (v.render false ++ rest) = (atomTokens false t).map .ok ++ contents rest) ∧
    ∀ rest, contents (v.render true ++ rest) = (atomTokens true t).map .ok ++ contents rest := by
  refine ⟨fun rest hrest => ?_, fun rest => ?_⟩
  · rw [halone, hatom rest hrest]
    rfl
  · have hspace : Text.isSkipped ' ' = true := by decide
    rw [htail]
    simp only [List.cons_append, List.append_assoc, List.nil_append]
    rw [contents_blank hspace, contents_dot (atomRest_of_isDelimiter (by decide) _),
      contents_blank hspace, hatom _ (atomRest_of_isDelimiter (by decide) _),
      contents_rightParen]
    rfl

/-- Of the symbols of a package, `nil` and no other is the empty list. -/
theorem Interpreter.Sound.isNil_iff {lisp : Interpreter} {h : Heap} (hs : lisp.Sound h)
    {s : Symbol} (hf : lisp.findSymbol h s.name = some s) : s.isNil = true ↔ s.name = "nil" := by
  constructor
  · intro hnil
    rw [hs.eq_nil hf hnil, hs.name_eq hs.nil_found]
  · intro hname
    rw [hname, hs.nil_found] at hf
    rw [← Option.some.inj hf, hs.nil_isNil]

theorem writes_symbol {lisp : Interpreter} {h : Heap} (hs : lisp.Sound h) {s : Symbol}
    (hf : lisp.findSymbol h s.name = some s) (hm : Matches symbolPattern s.name.toList) :
    (Value.symbol s).Writes (.symbol s.name) := by
  have hatom : ∀ rest, atomRest rest = [] →
      contents ((Value.symbol s).atomChars ++ rest) = .ok (.symbol s.name) :: contents rest :=
    fun rest hrest => contents_symbol hm hrest
  by_cases hnil : s.isNil = true
  · have hname := (hs.isNil_iff hf).1 hnil
    refine ⟨hatom, fun rest => ?_⟩
    have hrender : (Value.symbol s).render true = [')'] := by
      simp [Value.render, Value.isNil, hnil]
    rw [hrender, hname]
    exact contents_rightParen rest
  · have hname : s.name ≠ "nil" := fun hname => hnil ((hs.isNil_iff hf).2 hname)
    have htokens : ∀ b, (Datum.symbol s.name).tokens b = atomTokens b (.symbol s.name) := by
      intro b
      simp [Datum.tokens, hname]
    rw [Value.Writes, htokens, htokens]
    exact contents_render_atom rfl (by simp [Value.render, Value.isNil, hnil]) hatom

theorem writes_cons (id : ObjectId) {car cdr : Value} {a d : Datum} (ha : car.Writes a)
    (hd : cdr.Writes d) (hstop : ∀ rest, atomRest (cdr.render true ++ rest) = []) :
    (Value.cons id car cdr).Writes (.cons a d) := by
  -- the car may end with an atom, which what follows it must stop
  have hrest : ∀ rest, contents (car.render false ++ (cdr.render true ++ rest)) =
      (a.tokens false ++ d.tokens true).map .ok ++ contents rest := by
    intro rest
    rw [ha.1 _ (hstop rest), hd.2, List.map_append, List.append_assoc]
  refine ⟨fun rest _ => ?_, fun rest => ?_⟩
  · show contents ('(' :: (car.render false ++ cdr.render true ++ rest)) = _
    rw [List.append_assoc, contents_leftParen, hrest]
    rfl
  · show contents (' ' :: (car.render false ++ cdr.render true ++ rest)) = _
    rw [List.append_assoc, contents_blank (by decide : Text.isSkipped ' ' = true), hrest]
    rfl

/-- What follows the elements of a list begins with a space or a parenthesis. -/
theorem atomRest_render_true (v : Value) (rest : List Char) :
    atomRest (v.render true ++ rest) = [] := by
  have hspace : ∀ cs, atomRest (' ' :: cs) = [] := atomRest_of_isDelimiter (by decide)
  cases v with
  | symbol s =>
      by_cases hnil : s.isNil = true
      · simp only [Value.render, Value.isNil, hnil, if_true]
        exact atomRest_of_isDelimiter (by decide) _
      · simp only [Value.render, Value.isNil, hnil, if_true]
        exact hspace _
  | _ => exact hspace _

/-- **The text of data consists of the tokens of its datum.** -/
theorem writes_of_isData {lisp : Interpreter} {h : Heap} (hs : lisp.Sound h) {v : Value}
    (hv : v.IsData lisp h) {d : Datum} (hd : v.Denotes lisp h d) : v.Writes d := by
  induction hv generalizing d with
  | integer id i =>
      cases hd
      exact contents_render_atom rfl rfl fun rest hrest => contents_integer i hrest
  | string id s =>
      cases hd
      exact contents_render_atom rfl rfl fun rest _ => contents_literal s rest
  | symbol hf hm =>
      cases hd with
      | symbol hf' =>
          rw [← hs.name_eq hf']
          exact writes_symbol hs hf hm
  | cons id _ _ iha ihd =>
      cases hd with
      | cons _ ha hd => exact writes_cons id (iha ha) (ihd hd) (atomRest_render_true _)

/-! ## The round trip -/

theorem items_of_contents {source : List Char} {ts : List Token}
    (hc : contents source = ts.map .ok) :
    ∃ tokens : List (Located Token), items source = tokens.map Located.item ∧
      tokens.map Located.content = ts := by
  unfold contents at hc
  generalize items source = its at hc
  induction its generalizing ts with
  | nil =>
      obtain rfl : ts = [] := List.map_eq_nil_iff.1 hc.symm
      exact ⟨[], rfl, rfl⟩
  | cons item its ih =>
      obtain ⟨span, content⟩ := item
      obtain ⟨t, ts', rfl, rfl, hrest⟩ := List.map_eq_cons_iff.1 hc.symm
      obtain ⟨tokens, hits, hts⟩ := ih hrest.symm
      exact ⟨⟨span, t⟩ :: tokens, by rw [hits]; rfl, by rw [← hts]; rfl⟩

/-- **Printing and then reading is the identity on data**, up to the identities of numbers,
strings and conses: the text of data is read, as a whole, as a similar value. -/
theorem readText_text_similar {lisp : Interpreter} {h : Heap} (hr : lisp.Reachable h) {v : Value}
    (hv : v.IsData lisp h) :
    ∃ (v' : Value) (h' : Heap), readText lisp v.text.toList h = (.ok v', h') ∧
      ((Reader.ofSource v.text.toList).read lisp h).reader.pending = [] ∧ v.Similar v' := by
  have hs := hr.sound
  obtain ⟨d, hd⟩ := hv.denotes
  have htext : v.text.toList = v.chars := String.toList_ofList
  have hcontents : contents v.text.toList = (d.tokens false).map .ok := by
    have hwrites := (writes_of_isData hs hv hd).1 [] rfl
    rwa [List.append_nil, contents_nil, List.append_nil, ← Value.chars, ← htext] at hwrites
  obtain ⟨tokens, hits, hts⟩ := items_of_contents hcontents
  have hderives : Derives ((tokens.take tokens.length).map Located.content) d := by
    rw [List.take_length, hts]
    exact (derives_tokens d).1
  obtain ⟨v', hy, hv'⟩ := @yields_of_derives lisp h hs (Reader.ofSource v.text.toList) tokens hits
    tokens.length (Nat.le_refl _) d hderives
  have hlen : (items v.text.toList).length = tokens.length := by rw [hits, List.length_map]
  have hread := (readText_ok_iff lisp v.text.toList h v').2 (by rw [hlen]; exact hy)
  have hpending : ((Reader.ofSource v.text.toList).read lisp h).reader.pending = [] := by
    rw [hy.2.2]
    show (items v.text.toList).drop tokens.length = []
    rw [← hlen, List.drop_length]
  -- reading has added symbols at most, so `v` still stands for the datum that was read
  have hgrows := ((Reader.ofSource v.text.toList).changes_read lisp h).grows lisp.package
  exact ⟨v', _, Prod.ext hread rfl, hpending, (hd.mono hgrows).similar hv'⟩

/-- A dotted list with a negative integer, a string full of escapes, `nil` and a symbol. -/
theorem readText_text_similar_dotted :
    let lisp := (Interpreter.fresh Heap.empty).1
    let made := lisp.intern (Interpreter.fresh Heap.empty).2 "x-1"
    let v : Value := .cons 0 (.number 1 (.integer (-7)))
      (.cons 2 (.string 3 "a\"\\\n") (.cons 4 lisp.nilValue (.symbol made.1)))
    lisp.Reachable made.2 ∧ v.IsData lisp made.2 ∧
      ∃ (v' : Value) (h' : Heap), readText lisp v.text.toList made.2 = (.ok v', h') ∧
        ((Reader.ofSource v.text.toList).read lisp made.2).reader.pending = [] ∧
        v.Similar v' := by
  intro lisp made v
  have hr : lisp.Reachable made.2 :=
    (Interpreter.Reachable.fresh Heap.empty rfl).of_changes (lisp.changes_intern _ "x-1")
  have hfound : lisp.findSymbol made.2 "x-1" = some made.1 :=
    Heap.findSymbol_intern _ lisp.package "x-1" (Interpreter.sound_fresh Heap.empty).package_mem
  have hname : made.1.name = "x-1" := hr.sound.name_eq hfound
  have hnil : lisp.nil.name = "nil" := hr.sound.name_eq hr.sound.nil_found
  have hv : v.IsData lisp made.2 := by
    refine .cons 0 (.integer 1 (-7)) (.cons 2 (.string 3 _) (.cons 4 ?_ ?_)) <;>
      refine .symbol ?_ ?_
    · rw [hnil, hr.sound.nil_found]
    · rw [hnil]
      decide
    · rw [hname, hfound]
    · rw [hname]
      decide
  exact ⟨hr, hv, readText_text_similar hr hv⟩

end SmallLisp
