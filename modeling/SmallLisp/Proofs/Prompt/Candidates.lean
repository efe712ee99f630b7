import SmallLisp.Prompt.Completion
import SmallLisp.Proofs.Form.Interning
import SmallLisp.Proofs.Text.ByteOrder

set_option autoImplicit false

/-! # What a completion offers

A line can be completed where the text before the cursor is free of errors and breaks off in a
symbol (`EndsInSymbol`). What is offered then are the names that go on from this symbol, less what
has been typed of them (`suffix?`). As the names are in increasing order and all have the same
beginning, what is left of them is in increasing order too, by characters and so by bytes. A list in
strictly increasing order is known by its members, and therefore it does not matter in which order
the names come, if only what is left of them is sorted in the end (`sortByBytes_eq`).
-/

namespace SmallLisp

/-! ## Strings in increasing order -/

namespace Text

/-- Strings in strictly increasing order of their bytes. -/
def Increasing (strings : List String) : Prop := strings.Pairwise fun a b => bytes a < bytes b

/-- Sorts strings by their bytes. -/
def sortByBytes (strings : List String) : List String :=
  strings.mergeSort fun a b => decide (bytes a ≤ bytes b)

theorem pairwise_sortByBytes (strings : List String) :
    (sortByBytes strings).Pairwise fun a b => bytes a ≤ bytes b := by
  have hsorted : (sortByBytes strings).Pairwise fun a b => decide (bytes a ≤ bytes b) = true := by
    refine List.pairwise_mergeSort ?_ ?_ strings
    · intro a b c hab hbc
      exact decide_eq_true (List.le_trans (of_decide_eq_true hab) (of_decide_eq_true hbc))
    · intro a b
      rw [Bool.or_eq_true, decide_eq_true_iff, decide_eq_true_iff]
      exact List.le_total (bytes a) (bytes b)
  exact hsorted.imp of_decide_eq_true

/-- **A list in increasing order is known by its members**: it is what becomes of any list of the
same strings when it is sorted. -/
theorem sortByBytes_eq {strings sorted : List String} (hnodup : strings.Nodup)
    (hsorted : Increasing sorted) (hmem : ∀ c, c ∈ strings ↔ c ∈ sorted) :
    sortByBytes strings = sorted := by
  have hdistinct : sorted.Nodup := hsorted.imp fun {a b} hlt heq => by
    subst heq
    exact List.lt_irrefl _ hlt
  have hperm : (sortByBytes strings).Perm sorted :=
    (List.mergeSort_perm _ _).trans ((List.perm_ext_iff_of_nodup hnodup hdistinct).2 hmem)
  refine List.Perm.eq_of_pairwise (fun a b _ _ hab hba => ?_) (pairwise_sortByBytes strings)
    (hsorted.imp List.le_of_lt) hperm
  exact eq_of_bytes_eq (List.le_antisymm hab hba)

theorem lt_of_append_lt_append (front : List Char) {as bs : List Char}
    (h : front ++ as < front ++ bs) : as < bs := by
  induction front with
  | nil => exact h
  | cons c front ih =>
      rcases List.cons_lt_cons_iff.1 h with hlt | ⟨-, hrest⟩
      · exact absurd hlt (Char.lt_irrefl c)
      · exact ih hrest

theorem pairwise_keys_lt {α : Type} (map : Std.TreeMap String α) : map.keys.Pairwise (· < ·) :=
  map.ordered_keys.imp compareOfLessAndEq_eq_lt.1

end Text

namespace Prompt

open Text

/-! ## The symbol before the cursor -/

/-- **A text ends in a symbol**: it lexes without error, and its last token is a symbol that reaches
the end of the text. -/
def EndsInSymbol (text : List Char) (name : String) : Prop :=
  ∃ earlier span, tokenize text = .ok (earlier ++ [⟨span, .symbol name⟩]) ∧
    span.stop = byteLength text

variable {before after : List Char} {typed : String}

theorem symbolBefore?_eq_some_iff :
    symbolBefore? (before ++ after) (byteLength before) = some typed.toList ↔
      EndsInSymbol before typed := by
  rw [symbolBefore?, takeBytes_byteLength_append]
  constructor
  · intro h
    split at h
    · cases h
    · next tokens ht =>
      split at h
      · next span name hlast =>
        split_ifs at h with hstop
        obtain rfl := String.toList_injective (Option.some.inj h)
        obtain ⟨earlier, rfl⟩ := List.getLast?_eq_some_iff.1 hlast
        exact ⟨earlier, span, ht, hstop⟩
      · cases h
  · rintro ⟨earlier, span, ht, hstop⟩
    simp [ht, hstop]

theorem symbolBefore?_eq_none_iff :
    symbolBefore? (before ++ after) (byteLength before) = none ↔
      ∀ name, ¬ EndsInSymbol before name := by
  rw [Option.eq_none_iff_forall_ne_some]
  constructor
  · intro h name hname
    exact h _ (symbolBefore?_eq_some_iff.2 hname)
  · intro h chars hchars
    rw [← String.toList_ofList (l := chars)] at hchars
    exact h _ (symbolBefore?_eq_some_iff.1 hchars)

/-! ## What is left of a name -/

/-- What is left of a name that goes on from what has been typed. -/
def suffix? (typed name : String) : Option String :=
  (remainder? typed.toList name.toList).map String.ofList

theorem remainder?_eq_some_iff {typed name rest : List Char} :
    remainder? typed name = some rest ↔ rest ≠ [] ∧ name = typed ++ rest := by
  simp only [remainder?, Bool.and_eq_true, List.isPrefixOf_iff_prefix, decide_eq_true_eq]
  constructor
  · intro h
    split_ifs at h with hlonger
    obtain ⟨⟨later, rfl⟩, hlength⟩ := hlonger
    rw [List.drop_left] at h
    cases h
    refine ⟨?_, rfl⟩
    rintro rfl
    simp at hlength
  · rintro ⟨hrest, rfl⟩
    have hlength : 0 < rest.length := List.length_pos_iff.2 hrest
    rw [if_pos ⟨List.prefix_append _ _, by simpa using hlength⟩, List.drop_left]

theorem suffix?_eq_some_iff {typed name c : String} :
    suffix? typed name = some c ↔ c ≠ "" ∧ name = typed ++ c := by
  rw [suffix?, Option.map_eq_some_iff]
  constructor
  · rintro ⟨rest, hrest, rfl⟩
    obtain ⟨hne, hname⟩ := remainder?_eq_some_iff.1 hrest
    refine ⟨by simpa using hne, String.toList_injective ?_⟩
    rw [hname, String.toList_append, String.toList_ofList]
  · rintro ⟨hne, rfl⟩
    refine ⟨c.toList, remainder?_eq_some_iff.2 ⟨by simpa using hne, ?_⟩, String.ofList_toList⟩
    rw [String.toList_append]

/-- What is left of two names keeps their order. -/
theorem bytes_lt_of_suffix? {typed a b c d : String} (hlt : a < b) (hc : suffix? typed a = some c)
    (hd : suffix? typed b = some d) : bytes c < bytes d := by
  obtain ⟨-, rfl⟩ := suffix?_eq_some_iff.1 hc
  obtain ⟨-, rfl⟩ := suffix?_eq_some_iff.1 hd
  rw [String.lt_iff, String.toList_append, String.toList_append] at hlt
  exact bytes_lt_bytes (String.lt_iff.2 (lt_of_append_lt_append _ hlt))

theorem mem_filterMap_suffix? {typed c : String} {names : List String} :
    c ∈ names.filterMap (suffix? typed) ↔ c ≠ "" ∧ typed ++ c ∈ names := by
  rw [List.mem_filterMap]
  constructor
  · rintro ⟨name, hname, hc⟩
    obtain ⟨hne, rfl⟩ := suffix?_eq_some_iff.1 hc
    exact ⟨hne, hname⟩
  · rintro ⟨hne, hname⟩
    exact ⟨typed ++ c, hname, suffix?_eq_some_iff.2 ⟨hne, rfl⟩⟩

theorem nodup_filterMap_suffix? (typed : String) {names : List String} (hnodup : names.Nodup) :
    (names.filterMap (suffix? typed)).Nodup := by
  refine hnodup.filterMap fun a b c ha hb => ?_
  rw [(suffix?_eq_some_iff.1 ha).2, (suffix?_eq_some_iff.1 hb).2]

/-! ## The offer -/

variable {lisp : Interpreter} {h : Heap}

theorem completions_of_endsInSymbol (hends : EndsInSymbol before typed) :
    completions lisp h (before ++ after) (byteLength before) =
      (h.symbolNames lisp.package).filterMap (suffix? typed) := by
  rw [completions, symbolBefore?_eq_some_iff.2 hends]
  rfl

theorem completions_eq_nil (hnone : ∀ name, ¬ EndsInSymbol before name) :
    completions lisp h (before ++ after) (byteLength before) = [] := by
  rw [completions, symbolBefore?_eq_none_iff.2 hnone]

theorem increasing_suffixes (h : Heap) (package : ObjectId) (typed : String) :
    Increasing ((h.symbolNames package).filterMap (suffix? typed)) :=
  (pairwise_keys_lt (h.symbolsOf package)).filterMap (suffix? typed)
    fun _ _ hlt _ hc _ hd => bytes_lt_of_suffix? hlt hc hd

theorem increasing_completions :
    Increasing (completions lisp h (before ++ after) (byteLength before)) := by
  by_cases hends : ∃ name, EndsInSymbol before name
  · obtain ⟨name, hname⟩ := hends
    rw [completions_of_endsInSymbol hname]
    exact increasing_suffixes h lisp.package name
  · rw [completions_eq_nil (not_exists.1 hends)]
    exact List.Pairwise.nil

/-- **A completion offers what is left of the names that go on from the symbol before the cursor**,
in increasing order. Whatever the order in which the names are visited, the offer is what is left of
them when it has been sorted. Where no symbol ends at the cursor nothing is offered. In either case
the offer is for the place of the cursor, and nothing is interned. -/
theorem completion_offers_suffixes (lisp : Interpreter) (h : Heap) (before after : List Char) :
    let cursor := byteLength before
    let out := complete lisp (before ++ after) cursor h
    out.1.start = cursor ∧ out.2 = h ∧ Increasing out.1.candidates ∧
      (∀ name, EndsInSymbol before name →
        (∀ c, c ∈ out.1.candidates ↔ c ≠ "" ∧ (lisp.findSymbol h (name ++ c)).isSome) ∧
        ∀ names : List String, names.Nodup → (∀ n, n ∈ names ↔ (lisp.findSymbol h n).isSome) →
          sortByBytes (names.filterMap (suffix? name)) = out.1.candidates) ∧
      ((∀ name, ¬ EndsInSymbol before name) → out.1.candidates = []) := by
  intro cursor out
  refine ⟨rfl, rfl, increasing_completions, fun name hends => ?_, completions_eq_nil⟩
  have hcandidates : out.1.candidates = (h.symbolNames lisp.package).filterMap (suffix? name) :=
    completions_of_endsInSymbol hends
  have hmem : ∀ c, c ∈ out.1.candidates ↔ c ≠ "" ∧ (lisp.findSymbol h (name ++ c)).isSome := by
    intro c
    rw [hcandidates, mem_filterMap_suffix?, Heap.mem_symbolNames, Interpreter.findSymbol]
  refine ⟨hmem, fun names hnodup hnames => ?_⟩
  refine sortByBytes_eq (nodup_filterMap_suffix? name hnodup) increasing_completions fun c => ?_
  rw [hmem, mem_filterMap_suffix?, hnames]

/-- With the cursor behind `(car (le`, three names go on from `le`, one of which has been interned
by the program. Visited from the last to the first, they make the same offer. In a string that is
still open there is none. -/
theorem completion_offers_suffixes_let :
    let s := Session.start.after 9 ⟨.evalText "(setq lets 1 le 2)", none⟩
    let out := complete s.lisp ("(car (le".toList ++ " x))".toList) 8 s.heap
    EndsInSymbol "(car (le".toList "le" ∧ out.1.candidates = ["t", "t*", "ts"] ∧
      (∀ c, c ∈ out.1.candidates ↔ c ≠ "" ∧ (s.lisp.findSymbol s.heap ("le" ++ c)).isSome) ∧
      sortByBytes ((s.heap.symbolNames s.lisp.package).reverse.filterMap (suffix? "le")) =
        out.1.candidates ∧
      (∀ name, ¬ EndsInSymbol "(car \"(le".toList name) ∧
      (complete s.lisp ("(car \"(le".toList ++ []) 9 s.heap).1.candidates = [] := by
  intro s out
  have hends : EndsInSymbol "(car (le".toList "le" :=
    symbolBefore?_eq_some_iff.1
      (by decide +kernel : symbolBefore? ("(car (le".toList ++ []) 8 = some "le".toList)
  have hnone : ∀ name, ¬ EndsInSymbol "(car \"(le".toList name :=
    symbolBefore?_eq_none_iff.1
      (by decide +kernel : symbolBefore? ("(car \"(le".toList ++ []) 9 = none)
  obtain ⟨-, -, -, hoffer, -⟩ := completion_offers_suffixes s.lisp s.heap "(car (le".toList
    " x))".toList
  obtain ⟨hmem, horder⟩ := hoffer "le" hends
  refine ⟨hends, by decide +kernel, hmem, ?_, hnone, ?_⟩
  · refine horder _ (by decide +kernel) fun n => ?_
    rw [List.mem_reverse, Heap.mem_symbolNames, Interpreter.findSymbol]
  · exact (completion_offers_suffixes s.lisp s.heap "(car \"(le".toList []).2.2.2.2 hnone

end Prompt

end SmallLisp
