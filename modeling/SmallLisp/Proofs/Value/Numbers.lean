import SmallLisp.Proofs.Token.Alone
import SmallLisp.Proofs.Number.Floats
import SmallLisp.Proofs.Value.RoundTrip

set_option autoImplicit false

/-! # What the text of a number is read as

An integer is read back as it was written. A float is not: its text has an exponent, which no
number of the reader has, so that the text of a finite float begins like a number and is none. The
texts of the infinities and of not-a-number do not even begin like numbers, and are symbols.
-/

namespace SmallLisp

open Pattern Rule

/-! ## Atoms on their own -/

/-- **An atom on its own is one item.** -/
theorem items_of_atom {text : List Char} (hm : Matches Rule.malformed.pattern text)
    {content : Except LexicalError Token} (hread : ((ofAtom text).read text).yield = [content]) :
    items text = [⟨⟨0, Text.byteLength text⟩, content⟩] := by
  cases text with
  | nil => exact absurd ((matches_nil_iff _).1 hm) (by decide)
  | cons c s =>
      obtain ⟨hc, hs⟩ := matches_malformed_cons_iff.1 hm
      have hall : atomRest s = s := List.takeWhile_eq_self_iff.2 hs
      rw [items, pieces_atom hc, hall, List.drop_length, pieces, locate_cons,
        Rule.Content.placed_of_yield hread, Nat.zero_add]
      rfl

theorem items_of_integer (i : Int64) :
    items (Number.integerChars i.toInt) =
      [⟨⟨0, Text.byteLength (Number.integerChars i.toInt)⟩, .ok (.integer i)⟩] := by
  have hint := matches_integerChars i.toInt
  refine items_of_atom (matches_malformed_of_matches (r := .integer) rfl (integerChars_ne_nil _)
    hint) ?_
  rw [ofAtom, if_pos hint, Rule.read, integerValue_integerChars, fit_toInt]
  rfl

theorem items_of_symbol {text : List Char} (hm : Matches symbolPattern text) :
    items text = [⟨⟨0, Text.byteLength text⟩, .ok (.symbol (String.ofList text))⟩] := by
  have hne : text ≠ [] := by
    rintro rfl
    exact absurd ((matches_nil_iff _).1 hm) (by decide)
  refine items_of_atom (matches_malformed_of_matches (r := .symbol) rfl hne hm) ?_
  rw [ofAtom_symbol hm]
  rfl

section

variable {lisp : Interpreter} {source : List Char} {span : Span} {h : Heap}

theorem readText_of_items_error {e : LexicalError} (hits : items source = [⟨span, .error e⟩]) :
    readText lisp source h = (.error (.lexical ⟨span, e⟩), h) := by
  rw [readText, Reader.read, Reader.ofSource, hits]
  rfl

theorem readText_of_items_integer {i : Int64}
    (hits : items source = [⟨span, .ok (.integer i)⟩]) :
    readText lisp source h =
      (.ok (.number h.next (.integer i)), (h.alloc (.number · (.integer i))).2) := by
  rw [readText, Reader.read, Reader.ofSource, hits]
  rfl

theorem readText_of_items_symbol {name : String}
    (hits : items source = [⟨span, .ok (.symbol name)⟩]) :
    readText lisp source h = (.ok (.symbol (lisp.intern h name).1), (lisp.intern h name).2) := by
  rw [readText, Reader.read, Reader.ofSource, hits]
  rfl

end

/-! ## Finite floats -/

namespace Decimal

section

open Float.Model Float.Model.UnpackedFloat

theorem isFinite_unpack_iff (b : BitVec Format.binary64.numBits) :
    (UnpackedFloat.unpack Format.binary64 b).isFinite = true ↔ unpackExponent b ≠ -1#11 := by
  unfold UnpackedFloat.unpack
  simp only
  split
  · rename_i hones
    simp only [hones, ne_eq, not_true, iff_false]
    split <;> exact Bool.false_ne_true
  · rename_i hones
    simp only [ne_eq, hones, not_false_iff, iff_true]
    split
    · split <;> rfl
    · rfl

theorem toNat_unpackExponent (b : BitVec Format.binary64.numBits) :
    (unpackExponent b).toNat = b.toNat / Nat.pow 2 52 % Nat.pow 2 11 := by
  simp [unpackExponent, Nat.shiftRight_eq_div_pow]

end

/-- A float is finite unless all bits of its exponent are set. -/
theorem isFinite_iff (x : Float) :
    x.isFinite = true ↔ x.toBits.toNat / Nat.pow 2 52 % Nat.pow 2 11 ≠ 2047 := by
  have hfield := toNat_unpackExponent x.toBits.toBitVec
  rw [UInt64.toNat_toBitVec] at hfield
  rw [← hfield]
  refine (isFinite_unpack_iff x.toBits.toBitVec).trans (not_congr ?_)
  rw [← BitVec.toNat_inj]
  rfl

theorem exists_magnitude_of_isFinite {x : Float} (hx : x.isFinite = true) :
    ∃ d, magnitude x = .finite d := by
  have hfield := (isFinite_iff x).1 hx
  simp only [magnitude, if_neg hfield]
  split
  · exact ⟨_, rfl⟩
  · exact ⟨_, rfl⟩

theorem scientific_of_not_isFinite {x : Float} (hx : x.isFinite = false) :
    scientific x ∈ ["+Inf".toList, "-Inf".toList, "NaN".toList] := by
  have hfield : x.toBits.toNat / Nat.pow 2 52 % Nat.pow 2 11 = 2047 := by
    by_contra hne
    rw [(isFinite_iff x).2 hne] at hx
    cases hx
  have hmagnitude : magnitude x = .infinite ∨ magnitude x = .notANumber := by
    rw [magnitude, if_pos hfield]
    split
    · exact .inl rfl
    · exact .inr rfl
  rcases hmagnitude with hx | hx
  · simp only [scientific, hx]
    split <;> decide
  · simp only [scientific, hx]
    decide

/-! ## The characters of a decimal -/

theorem mem_pointAfterFirst {ds : List Char} {c : Char} (hc : c ∈ pointAfterFirst ds) :
    c = '.' ∨ c ∈ ds := by
  unfold pointAfterFirst at hc
  split at hc
  · exact .inr hc
  · exact .inr hc
  · simp only [List.mem_cons] at hc ⊢
    tauto

theorem isAtomPart_of_isDigit {c : Char} (hc : c.isDigit = true) : isAtomPart c = true := by
  simp [isAtomPart, isSymbolPart, hc]

theorem isAtomPart_signedExponent {e : Int} {c : Char} (hc : c ∈ signedExponent e) :
    isAtomPart c = true := by
  have hdigit : ∀ d ∈ digits e.natAbs, isAtomPart d = true := fun d hd =>
    isAtomPart_of_isDigit (isDigit_of_mem_digits hd)
  rw [signedExponent] at hc
  rcases List.mem_cons.1 hc with rfl | hc
  · split <;> decide
  · split at hc
    · rcases List.mem_cons.1 hc with rfl | hc
      · decide
      · exact hdigit c hc
    · exact hdigit c hc

/-- A decimal begins with a digit, has an exponent, and is made of what atoms are made of. -/
theorem scientific_shape (d : Scaled) :
    (∃ c cs, d.scientific = c :: cs ∧ c.isDigit = true) ∧ 'E' ∈ d.scientific ∧
      ∀ c ∈ d.scientific, isAtomPart c = true := by
  refine ⟨?_, ?_, fun c hc => ?_⟩
  · obtain ⟨c, cs, hds⟩ := List.exists_cons_of_ne_nil (digits_ne_nil d.coefficient)
    have hc : c.isDigit = true := isDigit_of_mem_digits (n := d.coefficient) (by simp [hds])
    rw [Scaled.scientific, hds]
    cases cs with
    | nil => exact ⟨c, _, rfl, hc⟩
    | cons c' cs => exact ⟨c, _, rfl, hc⟩
  · simp [Scaled.scientific]
  · rw [Scaled.scientific] at hc
    rcases List.mem_append.1 hc with hc | hc
    · rcases mem_pointAfterFirst hc with rfl | hc
      · decide
      · exact isAtomPart_of_isDigit (isDigit_of_mem_digits hc)
    · rcases List.mem_cons.1 hc with rfl | hc
      · decide
      · exact isAtomPart_signedExponent hc

end Decimal

/-! ## Numbers with an exponent -/

/-- No number that the reader knows has an exponent. -/
theorem not_number_of_exponent {text : List Char} (hexponent : 'E' ∈ text) :
    ¬ Matches integerPattern text ∧ ¬ Matches floatPattern text := by
  have hdigit : ∀ c : Char, c.isDigit = true → (c != 'E') = true := by
    intro c hc
    rw [bne_iff_ne]
    rintro rfl
    exact absurd hc (by decide)
  have hchar : ∀ d : Char, (d != 'E') = true → (Pattern.char d).Over (· != 'E') := by
    intro d hd c hc
    rwa [beq_iff_eq.1 hc]
  have hinteger : integerPattern.Over (· != 'E') :=
    ⟨⟨hchar '-' (by decide), trivial⟩, hdigit, hdigit⟩
  have hfloat : floatPattern.Over (· != 'E') := ⟨hinteger, hchar '.' (by decide), hdigit⟩
  have hnot : ∀ p : Pattern, p.Over (· != 'E') → ¬ Matches p text := fun p hp hm => by
    simpa using forall_mem_of_matches hm hp 'E' hexponent
  exact ⟨hnot _ hinteger, hnot _ hfloat⟩

/-- **A number with an exponent is no number.** -/
theorem items_of_exponent {text : List Char} (hnumeric : looksNumeric text = true)
    (hexponent : 'E' ∈ text) (hparts : ∀ c ∈ text, isAtomPart c = true) :
    items text =
      [⟨⟨0, Text.byteLength text⟩, .error (.invalidNumber (String.ofList text))⟩] := by
  obtain ⟨hinteger, hfloat⟩ := not_number_of_exponent hexponent
  have hsymbol : ¬ Matches symbolPattern text := fun hm => by
    rw [looksNumeric_of_symbol hm] at hnumeric
    cases hnumeric
  have hdot : text ≠ ['.'] := by
    rintro rfl
    exact absurd hexponent (by decide)
  have hrule : ofAtom text = .malformed := by
    rw [ofAtom, if_neg hinteger, if_neg hfloat, if_neg hsymbol, if_neg hdot]
  have hm : Matches Rule.malformed.pattern text := by
    obtain ⟨c, s, rfl⟩ := List.exists_cons_of_ne_nil (List.ne_nil_of_mem hexponent)
    obtain ⟨hc, hs⟩ := List.forall_mem_cons.1 hparts
    refine matches_malformed_cons_iff.2 ⟨isAtomStart_of_isAtomPart hc, fun d hd => ?_⟩
    rw [isDelimiter_of_isAtomStart (isAtomStart_of_isAtomPart (hs d hd))]
    rfl
  refine items_of_atom hm ?_
  rw [hrule, Rule.read, malformedAtom, if_pos hnumeric]
  rfl

theorem items_finite_float {x : Float} (hx : x.isFinite = true) :
    items (Decimal.scientific x) =
      [⟨⟨0, Text.byteLength (Decimal.scientific x)⟩,
        .error (.invalidNumber (String.ofList (Decimal.scientific x)))⟩] := by
  obtain ⟨d, hd⟩ := Decimal.exists_magnitude_of_isFinite hx
  obtain ⟨⟨c, cs, hfirst, hdigit⟩, hexponent, hparts⟩ := Decimal.scientific_shape d
  have htext : Decimal.scientific x = Decimal.signed x d.scientific := by
    rw [Decimal.scientific, hd]
  rw [htext, Decimal.signed]
  split
  · refine items_of_exponent ?_ (List.mem_cons_of_mem _ hexponent) ?_
    · rw [hfirst]
      simp [looksNumeric, hdigit]
    · exact List.forall_mem_cons.2 ⟨by decide, hparts⟩
  · refine items_of_exponent ?_ hexponent hparts
    rw [hfirst, looksNumeric_iff]
    exact ⟨c, cs, .inl rfl, .inl hdigit⟩

/-! ## Reading what was written -/

/-- **What the text of a number is read as.** An integer is read back as it was. A finite float
never is: its text is refused as a whole, as a number with a wrong format. What is written for an
infinity or for not-a-number is a symbol. -/
theorem number_text_read_back (lisp : Interpreter) (h : Heap) (id : ObjectId) :
    (∀ i : Int64, ∃ id' h', readText lisp (Value.number id (.integer i)).text.toList h =
      (.ok (.number id' (.integer i)), h')) ∧
    (∀ x : Float, x.isFinite = true →
      let text := (Value.number id (.float x)).text
      readText lisp text.toList h =
        (.error (.lexical ⟨⟨0, Text.byteLength text.toList⟩, .invalidNumber text⟩), h)) ∧
    ∀ x : Float, x.isFinite = false →
      let text := (Value.number id (.float x)).text
      text ∈ ["+Inf", "-Inf", "NaN"] ∧ readText lisp text.toList h =
        (.ok (.symbol (lisp.intern h text).1), (lisp.intern h text).2) := by
  have htext : ∀ n : Number, (Value.number id n).text.toList = n.chars := fun n =>
    String.toList_ofList
  refine ⟨fun i => ?_, fun x hx => ?_, fun x hx => ?_⟩
  · rw [htext]
    exact ⟨_, _, readText_of_items_integer (items_of_integer i)⟩
  · show readText lisp (Value.number id (.float x)).text.toList h = _
    rw [htext]
    exact readText_of_items_error (items_finite_float hx)
  · have hmem := Decimal.scientific_of_not_isFinite hx
    have hsymbol : Matches symbolPattern (Decimal.scientific x) := by
      have hall : ∀ text ∈ ["+Inf".toList, "-Inf".toList, "NaN".toList],
          Matches symbolPattern text := by decide
      exact hall _ hmem
    refine ⟨List.mem_map_of_mem (f := String.ofList) hmem, ?_⟩
    rw [htext]
    exact readText_of_items_symbol (items_of_symbol hsymbol)

/-- The integer `-7` is read back, the float `0.1` is not, and the infinity is a symbol. -/
theorem number_text_read_back_samples :
    let lisp := (Interpreter.fresh Heap.empty).1
    let h := (Interpreter.fresh Heap.empty).2
    let tenth := (Value.number 0 (.float 0.1)).text
    let infinity := (Value.number 0 (.float (1.0 / 0.0))).text
    (∃ id' h', readText lisp (Value.number 0 (.integer (-7))).text.toList h =
      (.ok (.number id' (.integer (-7))), h')) ∧
    ((0.1 : Float).isFinite = true ∧ readText lisp tenth.toList h =
      (.error (.lexical ⟨⟨0, Text.byteLength tenth.toList⟩, .invalidNumber tenth⟩), h)) ∧
    (1.0 / 0.0 : Float).isFinite = false ∧ infinity ∈ ["+Inf", "-Inf", "NaN"] ∧
      readText lisp infinity.toList h =
        (.ok (.symbol (lisp.intern h infinity).1), (lisp.intern h infinity).2) := by
  intro lisp h tenth infinity
  obtain ⟨hinteger, hfinite, hinfinite⟩ := number_text_read_back lisp h 0
  have htenth : (0.1 : Float).isFinite = true := by decide +kernel
  have hinfinity : (1.0 / 0.0 : Float).isFinite = false := by decide +kernel
  exact ⟨hinteger (-7), ⟨htenth, hfinite _ htenth⟩, hinfinity, hinfinite _ hinfinity⟩

/-- **The float `1.0` is written `1E+00` and not read back**, and the infinity that is written
`+Inf` is read as a symbol. -/
theorem float_text_not_read_back :
    let lisp := (Interpreter.fresh Heap.empty).1
    let h := (Interpreter.fresh Heap.empty).2
    ((Value.number 0 (.float 1.0)).text = "1E+00" ∧
      (readText lisp "1E+00".toList h).1 =
        .error (.lexical ⟨⟨0, 5⟩, .invalidNumber "1E+00"⟩)) ∧
    (Value.number 0 (.float (1.0 / 0.0))).text = "+Inf" ∧
      (readText lisp "+Inf".toList h).1 = .ok (.symbol (lisp.intern h "+Inf").1) := by
  decide +kernel

end SmallLisp
