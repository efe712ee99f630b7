import SmallLisp.Proofs.Form.Shifting
import SmallLisp.Proofs.Form.Unclosed
import SmallLisp.Proofs.Token.Tiling

set_option autoImplicit false

/-! # Reading form after form

A reader may be asked for one form after another, also behind errors, and anything may happen to
the heap in between. This file follows such an iteration (`Iterates`). Each call takes a segment of
the items that are left, and the segments follow one another without a gap (`Iterates.segments`): a
call takes no item that it could have done without, and what comes out depends on no other
(`Visit.Takes`).

A reader that has made some calls on a source is nowhere special. The items behind an item are
those of the text behind it (`cutBehind_itemsFrom`), so the reader stands where a new one stands on
the rest of the source, only further to the right (`StandsIn`), and goes on as the new one does.
-/

namespace SmallLisp

open Reader

/-! ## The items behind an item -/

/-- **A text can be cut behind an item**: the items `after` it are those of the text that is left
there. -/
def CutBehind (start : Nat) (text : List Char) (item : Item) (after : List Item) : Prop :=
  ∃ front rest, text = front ++ rest ∧ front ≠ [] ∧
    item.span.stop = start + Text.byteLength front ∧ after = itemsFrom item.span.stop rest

section

variable {start : Nat} {text rest : List Char} {item : Item} {before after : List Item}

theorem CutBehind.prepend (htext : text ≠ [])
    (hcut : CutBehind (start + Text.byteLength text) rest item after) :
    CutBehind start (text ++ rest) item after := by
  obtain ⟨front, rest, rfl, _, hstop, hafter⟩ := hcut
  refine ⟨text ++ front, rest, (List.append_assoc _ _ _).symm, ?_, ?_, hafter⟩
  · exact fun hnil => htext (List.append_eq_nil_iff.1 hnil).1
  · rw [hstop, Text.byteLength_append, Nat.add_assoc]

/-- A piece in front makes at most one item, and the rest begins where this ends. -/
theorem cutBehind_piece {content : Rule.Content} (htext : text ≠ [])
    (hsplit : content.placed ⟨start, start + Text.byteLength text⟩ ++
      itemsFrom (start + Text.byteLength text) rest = before ++ item :: after)
    (hrest : ∀ before', itemsFrom (start + Text.byteLength text) rest = before' ++ item :: after →
      CutBehind (start + Text.byteLength text) rest item after) :
    CutBehind start (text ++ rest) item after := by
  have hplaced : ∀ content', (⟨⟨start, start + Text.byteLength text⟩, content'⟩ : Item) ::
        itemsFrom (start + Text.byteLength text) rest = before ++ item :: after →
      CutBehind start (text ++ rest) item after := by
    intro content' hsplit'
    cases before with
    | nil =>
        obtain ⟨rfl, rfl⟩ := List.cons.inj hsplit'
        exact ⟨text, rest, rfl, htext, rfl, rfl⟩
    | cons first before => exact (hrest before (List.cons.inj hsplit').2).prepend htext
  cases content with
  | skipped => exact (hrest before hsplit).prepend htext
  | token t => exact hplaced _ hsplit
  | error e => exact hplaced _ hsplit

/-- **The items behind an item are those of the text behind it.** -/
theorem cutBehind_itemsFrom (text : List Char) :
    ∀ (start : Nat) (before : List Item), itemsFrom start text = before ++ item :: after →
      CutBehind start text item after := by
  fun_induction pieces text with
  | case1 =>
      intro start before hsplit
      rw [itemsFrom_nil] at hsplit
      simp at hsplit
  | case2 c cs m hm _ ih =>
      intro start before hsplit
      rw [itemsFrom_cons_of_choose hm] at hsplit
      have hcut := cutBehind_piece (List.cons_ne_nil _ _) hsplit (ih _)
      rwa [List.cons_append, List.take_append_drop] at hcut
  | case3 c cs hnone ih =>
      intro start before hsplit
      rw [itemsFrom, pieces, hnone] at hsplit
      have hfirst := (locate_cons _ _ _).symm.trans hsplit
      exact cutBehind_piece (List.cons_ne_nil c []) hfirst (ih _)

end

/-! ## Iterations -/

/-- One call of an iteration: the reader and the heap that it finds, and what comes out. -/
structure Visit where
  reader : Reader
  heap : Heap
  out : Reading

/-- **A reader is asked for one form after another**, and stands at `last` then. The heap may be
another one at each call. -/
inductive Reader.Iterates (lisp : Interpreter) : Reader → List Visit → Reader → Prop
  | stop (r : Reader) : Iterates lisp r [] r
  | next {r last : Reader} {h : Heap} {out : Reading} {visits : List Visit}
      (hnext : r.next? lisp h = some out) (hrest : Iterates lisp out.reader visits last) :
      Iterates lisp r (⟨r, h, out⟩ :: visits) last

/-- **An iteration that nothing disturbs**: each call finds the heap as the one before has left it,
beginning with `h`, and the last one leaves `h'`. -/
def Undisturbed (h : Heap) : List Visit → Heap → Prop
  | [], h' => h' = h
  | v :: visits, h' => v.heap = h ∧ Undisturbed v.out.heap visits h'

/-- **A call takes a segment of the items that are left.** The segment is all that what comes out
depends on, and no shorter one would do: the reading would go on behind it whatever stood there. A
form is complete with the last token of the segment. -/
structure Visit.Takes (lisp : Interpreter) (v : Visit) (segment : List Item) : Prop where
  nonempty : segment ≠ []
  pending : v.reader.pending = segment ++ v.out.reader.pending
  enough : Reader.read ⟨segment, v.reader.position, v.reader.length⟩ lisp v.heap =
    ⟨v.out.result, ⟨[], v.out.reader.position, v.out.reader.length⟩, v.out.heap⟩
  needed : ∀ front back, segment = front ++ back → back ≠ [] →
    Reader.ReachesEnd ⟨front, v.reader.position, v.reader.length⟩ lisp v.heap
  ends : ∀ form, v.out.result = .ok form → ∃ token : Located Token,
    segment.getLast? = some token.item ∧ v.out.reader.position = token.span.stop

/-- A call that was made further to the right. -/
def Visit.shift (n : Nat) (v : Visit) : Visit := ⟨v.reader.shift n, v.heap, v.out.shift n⟩

/-! ## The items that one call takes -/

/-- Tokens that have been fed have been fed one by one. -/
theorem Reader.Feeds.front {lisp : Interpreter} {stage last : Stage}
    {tokens later : List (Located Token)} {h h' : Heap}
    (hf : Feeds lisp stage (tokens ++ later) h last h') :
    ∃ mid h₁, Feeds lisp stage tokens h mid h₁ := by
  induction tokens generalizing stage h with
  | nil => exact ⟨stage, h, .nil stage h⟩
  | cons token tokens ih =>
      cases hf with
      | cons htake hrest =>
          obtain ⟨mid, h₁, hmid⟩ := ih hrest
          exact ⟨mid, h₁, .cons htake hmid⟩

section

variable {lisp : Interpreter} {h h' : Heap} {r : Reader} {out : Reading} {last : Stage}
  {tokens : List (Located Token)}

theorem Reader.Feeds.reachesEnd (hf : Feeds lisp (.form []) tokens h last h') {its more : List Item}
    (hits : tokens.map Located.item = its ++ more) (position length : Nat) :
    ReachesEnd ⟨its, position, length⟩ lisp h := by
  obtain ⟨front, later, rfl, rfl, _⟩ := List.map_eq_append_iff.1 hits
  obtain ⟨mid, h₁, hfront⟩ := hf.front
  exact reachesEnd_iff.2 ⟨front, mid, h₁, rfl, hfront⟩

/-- A proper front of items with one more behind them is a front of these items. -/
theorem eq_append_of_concat {its front back : List Item} {item : Item}
    (hsplit : its ++ [item] = front ++ back) (hback : back ≠ []) : ∃ more, its = front ++ more := by
  rw [← List.dropLast_append_getLast hback, ← List.append_assoc] at hsplit
  exact ⟨_, (List.append_inj' hsplit rfl).1⟩

/-- The tokens that a reader is fed make a segment with the item that ends the reading. -/
theorem takes_of_last {item : Item} {result : Except ParseError Value} {stop length : Nat}
    {h₂ : Heap} (hf : Feeds lisp (.form []) tokens h last h')
    (hlast : ∀ rest, run lisp length last (item :: rest) h' = ⟨result, ⟨rest, stop, length⟩, h₂⟩)
    (hends : ∀ form, result = .ok form →
      ∃ token : Located Token, item = token.item ∧ stop = token.span.stop)
    (position : Nat) (rest : List Item) :
    Visit.Takes lisp
      ⟨⟨tokens.map Located.item ++ item :: rest, position, length⟩, h,
        ⟨result, ⟨rest, stop, length⟩, h₂⟩⟩
      (tokens.map Located.item ++ [item]) where
  nonempty := by simp
  pending := by simp
  enough := by rw [Reader.read, run_of_feeds hf, hlast]
  needed := by
    intro front back hsplit hback
    obtain ⟨more, hmore⟩ := eq_append_of_concat hsplit hback
    exact hf.reachesEnd hmore position length
  ends := by
    intro form hform
    obtain ⟨token, rfl, hstop⟩ := hends form hform
    exact ⟨token, List.getLast?_concat, hstop⟩

/-- **Each call takes a segment.** -/
theorem exists_takes (hnext : r.next? lisp h = some out) :
    ∃ segment, Visit.Takes lisp ⟨r, h, out⟩ segment := by
  obtain ⟨hne, hread⟩ := next?_eq_some_iff.1 hnext
  have hrun := runsTo_run lisp r.length (.form []) r.pending h
  rw [show run lisp r.length (.form []) r.pending h = out from hread] at hrun
  obtain ⟨pending, position, length⟩ := r
  cases hrun with
  | @done tokens token rest last h₁ h₂ form hf htake =>
      have hlast : ∀ rest, run lisp length last (token.item :: rest) h₁ =
          ⟨.ok form, ⟨rest, token.span.stop, length⟩, h₂⟩ := fun rest => by
        rw [run_item, htake]
        rfl
      exact ⟨_, takes_of_last hf hlast (fun _ _ => ⟨token, rfl, rfl⟩) position rest⟩
  | @ended tokens last h₁ hf =>
      refine ⟨tokens.map Located.item, hne, (List.append_nil _).symm, ?_, ?_, ?_⟩
      · rw [Reader.read, (RunsTo.ended hf).run_eq]
      · exact fun front back hsplit _ => hf.reachesEnd hsplit position length
      · exact fun form hform => by cases hform
  | @failed tokens token rest last h₁ h₂ e hf htake =>
      have hlast : ∀ rest, run lisp length last (token.item :: rest) h₁ =
          ⟨.error e, ⟨rest, token.span.stop, length⟩, h₂⟩ := fun rest => by
        rw [run_item, htake]
        rfl
      exact ⟨_, takes_of_last hf hlast (fun _ hform => by cases hform) position rest⟩
  | @lexical tokens span e rest last h₁ hf =>
      exact ⟨_, takes_of_last hf (fun _ => rfl) (fun _ hform => by cases hform) position rest⟩

end

/-! ## Where a reader stands -/

/-- **A reader stands in a source** as a new one does on what is left of it, only further to the
right. -/
def Reader.StandsIn (source : List Char) (r : Reader) : Prop :=
  ∃ front rest, source = front ++ rest ∧ r = (Reader.ofSource rest).shift (Text.byteLength front)

/-- A run ends behind an item, or at the end of the source. -/
theorem reader_run (lisp : Interpreter) (length : Nat) (stage : Stage) (its : List Item)
    (h : Heap) :
    (run lisp length stage its h).reader = ⟨[], length, length⟩ ∨
      ∃ before item after, its = before ++ item :: after ∧
        (run lisp length stage its h).reader = ⟨after, item.span.stop, length⟩ := by
  have hrun := runsTo_run lisp length stage its h
  generalize run lisp length stage its h = out at hrun
  cases hrun with
  | done hf htake => exact .inr ⟨_, _, _, rfl, rfl⟩
  | ended hf => exact .inl rfl
  | failed hf htake => exact .inr ⟨_, _, _, rfl, rfl⟩
  | lexical hf => exact .inr ⟨_, _, _, rfl, rfl⟩

/-- The first call on a source leaves the reader behind some of the text. -/
theorem standsIn_read_ofSource {source : List Char} (hne : items source ≠ []) (lisp : Interpreter)
    (h : Heap) :
    ∃ front rest, source = front ++ rest ∧ front ≠ [] ∧
      ((Reader.ofSource source).read lisp h).reader =
        (Reader.ofSource rest).shift (Text.byteLength front) := by
  have hlength : ∀ {front rest : List Char}, source = front ++ rest →
      Text.byteLength source = Text.byteLength rest + Text.byteLength front := by
    rintro front rest rfl
    rw [Text.byteLength_append, Nat.add_comm]
  rcases reader_run lisp (Text.byteLength source) (.form []) (items source) h with
    hend | ⟨before, item, after, hsplit, hbehind⟩
  · refine ⟨source, [], (List.append_nil source).symm, ?_, hend.trans ?_⟩
    · rintro rfl
      exact hne (itemsFrom_nil 0)
    · have hnil : items [] = [] := itemsFrom_nil 0
      simp [Reader.ofSource, Reader.shift, hnil]
  · obtain ⟨front, rest, hsource, hfront, hstop, hafter⟩ :=
      cutBehind_itemsFrom source 0 before hsplit
    refine ⟨front, rest, hsource, hfront, hbehind.trans ?_⟩
    rw [Nat.zero_add] at hstop
    rw [hafter, hstop, itemsFrom_eq_map, hlength hsource, Reader.shift, Reader.ofSource,
      Nat.zero_add]

theorem Reader.standsIn_ofSource (source : List Char) : (Reader.ofSource source).StandsIn source :=
  ⟨[], source, rfl, (Reader.shift_zero _).symm⟩

section

variable {lisp : Interpreter} {source : List Char} {h : Heap} {r last : Reader} {out : Reading}
  {visits : List Visit}

/-- **A step moves the reader on**, and it stands in the source again. -/
theorem Reader.StandsIn.next (hr : r.StandsIn source) (hnext : r.next? lisp h = some out) :
    out.reader.StandsIn source ∧ r.position < out.reader.position := by
  obtain ⟨front, rest, rfl, rfl⟩ := hr
  rw [next?_shift, Option.map_eq_some_iff] at hnext
  obtain ⟨first, hfirst, rfl⟩ := hnext
  obtain ⟨hne, rfl⟩ := next?_eq_some_iff.1 hfirst
  obtain ⟨taken, rest', rfl, htaken, hreader⟩ := standsIn_read_ofSource hne lisp h
  have hshift : (Reading.shift (Text.byteLength front)
      ((Reader.ofSource (taken ++ rest')).read lisp h)).reader =
      (Reader.ofSource rest').shift (Text.byteLength (front ++ taken)) := by
    simp only [Reading.shift]
    rw [hreader, Reader.shift_shift, Text.byteLength_append]
  have hpos := Text.byteLength_pos htaken
  refine ⟨⟨front ++ taken, rest', (List.append_assoc _ _ _).symm, hshift⟩, ?_⟩
  rw [hshift, Text.byteLength_append]
  simp only [Reader.shift, Reader.ofSource]
  omega

theorem Reader.StandsIn.length_eq (hr : r.StandsIn source) : r.length = Text.byteLength source := by
  obtain ⟨front, rest, rfl, rfl⟩ := hr
  simp only [Reader.shift, Reader.ofSource, Text.byteLength_append]
  omega

theorem Reader.StandsIn.isBoundary (hr : r.StandsIn source) :
    Text.IsBoundary source r.position := by
  obtain ⟨front, rest, rfl, rfl⟩ := hr
  exact ⟨front, rest, rfl, Nat.zero_add _⟩

/-- The reader is a new one on the text behind its position. -/
theorem Reader.StandsIn.eq_shift (hr : r.StandsIn source) :
    r = (Reader.ofSource (Text.dropBytes r.position source)).shift r.position := by
  obtain ⟨front, rest, rfl, rfl⟩ := hr
  have hposition : ((Reader.ofSource rest).shift (Text.byteLength front)).position =
      Text.byteLength front := Nat.zero_add _
  rw [hposition, Text.dropBytes_byteLength_append]

/-! ## A whole iteration -/

namespace Reader.Iterates

theorem standsIn (hit : Iterates lisp r visits last) (hr : r.StandsIn source) :
    last.StandsIn source := by
  induction hit with
  | stop r => exact hr
  | next hnext _ ih => exact ih (hr.next hnext).1

/-- Positions go up from call to call. -/
theorem pairwise_position (hit : Iterates lisp r visits last) (hr : r.StandsIn source) :
    (r.position :: visits.map (·.out.reader.position)).Pairwise (· < ·) := by
  induction hit with
  | stop r => simp
  | @next r last h out visits hnext hrest ih =>
      obtain ⟨hout, hlt⟩ := hr.next hnext
      specialize ih hout
      refine List.pairwise_cons.2 ⟨?_, ih⟩
      intro position hposition
      rcases List.mem_cons.1 hposition with rfl | hlater
      · exact hlt
      · exact Nat.lt_trans hlt ((List.pairwise_cons.1 ih).1 position hlater)

/-- **The calls take consecutive segments**, and what they leave is left. -/
theorem segments (hit : Iterates lisp r visits last) :
    ∃ segments, r.pending = segments.flatten ++ last.pending ∧
      List.Forall₂ (Visit.Takes lisp) visits segments := by
  induction hit with
  | stop r => exact ⟨[], rfl, .nil⟩
  | @next r last h out visits hnext _ ih =>
      obtain ⟨segment, htakes⟩ := exists_takes hnext
      obtain ⟨segments, hpending, hall⟩ := ih
      refine ⟨segment :: segments, ?_, .cons htakes hall⟩
      rw [List.flatten_cons, List.append_assoc, ← hpending]
      exact htakes.pending

/-- Every call takes an item. -/
theorem length_le (hit : Iterates lisp r visits last) :
    visits.length + last.pending.length ≤ r.pending.length := by
  induction hit with
  | stop r => simp
  | next hnext _ ih =>
      have hshort := pending_next?_length hnext
      rw [List.length_cons]
      omega

/-- **An iteration commutes with moving.** -/
theorem shift_iff {n : Nat} :
    Iterates lisp (r.shift n) visits last ↔ ∃ later stop, Iterates lisp r later stop ∧
      visits = later.map (Visit.shift n) ∧ last = stop.shift n := by
  constructor
  · intro hit
    generalize hstart : r.shift n = start at hit
    induction hit generalizing r with
    | stop start =>
        subst hstart
        exact ⟨[], r, .stop r, rfl, rfl⟩
    | next hnext _ ih =>
        subst hstart
        rw [next?_shift, Option.map_eq_some_iff] at hnext
        obtain ⟨out, hout, rfl⟩ := hnext
        obtain ⟨later, stop, hlater, rfl, rfl⟩ := ih rfl
        exact ⟨_, stop, .next hout hlater, rfl, rfl⟩
  · rintro ⟨later, stop, hlater, rfl, rfl⟩
    induction hlater with
    | stop r => exact .stop (r.shift n)
    | @next r stop h out later hnext _ ih =>
        have hmoved : (r.shift n).next? lisp h = some (out.shift n) := by
          rw [next?_shift, hnext]
          rfl
        exact .next hmoved ih

end Reader.Iterates

/-- To read everything, past errors, is to iterate undisturbed until nothing is left. -/
theorem exists_iterates_readAll (lisp : Interpreter) (r : Reader) (h : Heap) :
    ∃ visits stop, Iterates lisp r visits stop ∧ stop.pending = [] ∧
      (r.readAll lisp true h).1 = visits.map Visit.out ∧
      (r.readAll lisp true h).2.1 = stop.finish ∧
      Undisturbed h visits (r.readAll lisp true h).2.2 := by
  induction hlen : r.pending.length using Nat.strongRecOn generalizing r h with
  | _ size ih =>
      rw [readAll]
      split
      · rename_i hnext
        exact ⟨[], r, .stop r, next?_eq_none_iff.1 hnext, rfl, rfl, rfl⟩
      · rename_i out hnext
        obtain ⟨visits, stop, hit, hstop, hout, hreader, hheap⟩ :=
          ih _ (hlen ▸ pending_next?_length hnext) out.reader out.heap rfl
        refine ⟨_, stop, .next hnext hit, hstop, ?_, ?_, rfl, ?_⟩
        · simp [hout]
        · simp [hreader]
        · simpa using hheap

/-- **Reading can be suspended, resumed and continued past errors.** However often the next form of
a source is asked for, there are at most as many calls as items. They take consecutive segments of
the items, each of them no more than it needs, and the positions go up. Nothing comes out once there
are no items left; from everywhere the reader gets there, and stands at the end of the source then.
At each point it goes on as a new reader does on the text behind its position, with spans moved by
that much. -/
theorem iteration_resumes (hit : Iterates lisp (.ofSource source) visits last) :
    visits.length ≤ (items source).length ∧
    (∃ segments, items source = segments.flatten ++ last.pending ∧
      List.Forall₂ (Visit.Takes lisp) visits segments) ∧
    (0 :: visits.map (·.out.reader.position)).Pairwise (· < ·) ∧
    (∀ h, last.next? lisp h = none ↔ last.pending = []) ∧
    (∀ h, ∃ later stop, Iterates lisp last later stop ∧ stop.pending = [] ∧
      (last.readAll lisp true h).1 = later.map Visit.out ∧
      (last.readAll lisp true h).2.1.position = Text.byteLength source) ∧
    Text.IsBoundary source last.position ∧
    ∀ visits' last', Iterates lisp last visits' last' ↔
      ∃ later stop, Iterates lisp (.ofSource (Text.dropBytes last.position source)) later stop ∧
        visits' = later.map (Visit.shift last.position) ∧ last' = stop.shift last.position := by
  have hstart := Reader.standsIn_ofSource source
  have hstands := hit.standsIn hstart
  refine ⟨?_, hit.segments, hit.pairwise_position hstart, fun h => next?_eq_none_iff, ?_,
    hstands.isBoundary, ?_⟩
  · exact Nat.le_trans (Nat.le_add_right _ _) hit.length_le
  · intro h
    obtain ⟨later, stop, hlater, hstop, hout, hreader, _⟩ := exists_iterates_readAll lisp last h
    refine ⟨later, stop, hlater, hstop, hout, ?_⟩
    rw [hreader]
    exact (hlater.standsIn hstands).length_eq
  · intro visits' last'
    rw [← Iterates.shift_iff, ← hstands.eq_shift]

/-- In `(a 1x) 'b` the list is given up at `1x`, so the parenthesis behind it is a call of its own,
and then there is a form. -/
theorem iteration_resumes_past_errors :
    let lisp := (Interpreter.fresh Heap.empty).1
    let h := (Interpreter.fresh Heap.empty).2
    let source := "(a 1x) 'b".toList
    ∃ visits last, Iterates lisp (.ofSource source) visits last ∧ last.pending = [] ∧
      visits.map (·.out.reader.position) = [5, 6, 9] ∧
      visits.map (·.out.result.isOk) = [false, false, true] ∧
      (∃ segments, items source = segments.flatten ∧
        List.Forall₂ (Visit.Takes lisp) visits segments) ∧
      (last.readAll lisp true h).2.1.position = 9 := by
  intro lisp h source
  obtain ⟨visits, last, hit, hlast, hout, _⟩ :=
    exists_iterates_readAll lisp (Reader.ofSource source) h
  obtain ⟨_, ⟨segments, hitems, htakes⟩, _, _, hend, _⟩ := iteration_resumes hit
  obtain ⟨_, _, _, _, _, hposition⟩ := hend h
  rw [hlast, List.append_nil] at hitems
  refine ⟨visits, last, hit, hlast, ?_, ?_, ⟨segments, hitems, htakes⟩, hposition⟩
  · have hpositions : ((Reader.ofSource source).readAll lisp true h).1.map (·.reader.position) =
        [5, 6, 9] := by
      decide +kernel
    rwa [hout, List.map_map] at hpositions
  · have hresults : ((Reader.ofSource source).readAll lisp true h).1.map (·.result.isOk) =
        [false, false, true] := by
      decide +kernel
    rwa [hout, List.map_map] at hresults

end

end SmallLisp
