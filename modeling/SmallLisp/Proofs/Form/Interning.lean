import Mathlib.Data.Set.Insert
import SmallLisp.Proofs.Form.Iteration
import SmallLisp.Proofs.Session.States

set_option autoImplicit false

/-! # What reading changes

Reading makes objects, which nothing that is already there refers to, and it interns symbols. This
file says which. A token that is a symbol is interned when it is taken, also if the reading fails
later on. A token that does not fit is not, and such a token is what the error reports. The symbol
`quote` that stands for a quotation mark has been there since the interpreter was made, so it is
never new (`Reachable.hasQuote`).

`Heap.Interns` says that some names have been interned in a package and nothing else has happened.
It is proved for one token, for the tokens that a reader is fed, for one call, and for any number of
them. Tokens are told apart by their places, of which no two are the same.
-/

namespace SmallLisp

open Reader

/-! ## Heaps that differ in interned symbols -/

namespace Heap

theorem mem_symbolNames {h : Heap} {package : ObjectId} {name : String} :
    name ∈ h.symbolNames package ↔ (h.findSymbol package name).isSome := by
  rw [symbolNames, Std.TreeMap.mem_keys, Std.TreeMap.mem_iff_isSome_getElem?, findSymbol]

/-- **Names have been interned in a package and nothing else has happened**: the package keeps its
entries and has no others than these names, which stand for symbols that have been made since. The
other packages, all cells, the code of closures and all frames are the same. -/
structure Interns (package : ObjectId) (new : Set String) (h h' : Heap) : Prop where
  next_le : h.next ≤ h'.next
  names : ∀ name, name ∈ h'.symbolNames package ↔ name ∈ h.symbolNames package ∨ name ∈ new
  kept : ∀ {name : String} {s : Symbol}, h.findSymbol package name = some s →
    h'.findSymbol package name = some s
  made : ∀ {name : String} {s : Symbol}, h'.findSymbol package name = some s →
    h.findSymbol package name = none → h.next ≤ s.id
  others : ∀ id, id ≠ package → h'.packages[id]? = h.packages[id]?
  cells : h'.cells = h.cells
  closures : h'.closures = h.closures
  frames : h'.frames = h.frames

variable {package : ObjectId} {new new' : Set String} {h h' h'' : Heap}

/-- A heap in which nothing is new but that there are more numbers. -/
theorem interns_advance (h : Heap) (n : Nat) (package : ObjectId) :
    Interns package ∅ h { h with next := h.next + n } where
  next_le := Nat.le_add_right _ n
  names _ := by simp [symbolNames, symbolsOf]
  kept := id
  made hs hnone := by
    have hfound : h.findSymbol package _ = some _ := hs
    rw [hnone] at hfound
    cases hfound
  others _ _ := rfl
  cells := rfl
  closures := rfl
  frames := rfl

theorem Interns.refl (package : ObjectId) (h : Heap) : Interns package ∅ h h :=
  interns_advance h 0 package

theorem Interns.trans (h₁ : Interns package new h h') (h₂ : Interns package new' h' h'') :
    Interns package (new ∪ new') h h'' where
  next_le := Nat.le_trans h₁.next_le h₂.next_le
  names name := by rw [h₂.names, h₁.names, Set.mem_union, or_assoc]
  kept hs := h₂.kept (h₁.kept hs)
  made {name s} hs hnone := by
    cases hmid : h'.findSymbol package name with
    | none => exact Nat.le_trans h₁.next_le (h₂.made hs hmid)
    | some s' =>
        cases hs.symm.trans (h₂.kept hmid)
        exact h₁.made hmid hnone
  others id hid := (h₂.others id hid).trans (h₁.others id hid)
  cells := h₂.cells.trans h₁.cells
  closures := h₂.closures.trans h₁.closures
  frames := h₂.frames.trans h₁.frames

theorem interns_intern (hmem : package ∈ h.packages) (name : String) :
    Interns package {name} h (h.intern package name).2 := by
  unfold intern
  split
  · rename_i s hs
    have hthere : name ∈ h.symbolNames package := by
      rw [mem_symbolNames, hs]
      rfl
    refine { Interns.refl package h with names := fun name' => ?_ }
    rw [Set.mem_singleton_iff]
    exact ⟨.inl, fun hname => hname.elim id fun heq => heq ▸ hthere⟩
  · rename_i hnone
    -- the one entry that is new
    have hfind : ∀ name', ((h.makeSymbol package name false).2.enter package
        (h.makeSymbol package name false).1).findSymbol package name' =
        if name = name' then some (h.makeSymbol package name false).1
        else h.findSymbol package name' := by
      intro name'
      have hmade : package ∈ (h.makeSymbol package name false).2.packages := hmem
      rw [findSymbol_enter]
      simp only [true_and, hmade]
      rfl
    refine ⟨Nat.le_add_right _ 2, fun name' => ?_, fun {name' s} hs => ?_,
      fun {name' s} hs hno => ?_, fun id hid => ?_, rfl, rfl, rfl⟩
    · rw [mem_symbolNames, hfind, mem_symbolNames, Set.mem_singleton_iff]
      split
      · rename_i heq
        simp [heq]
      · rename_i hne
        simp [Ne.symm hne]
    · rw [hfind, if_neg]
      · exact hs
      · rintro rfl
        rw [hnone] at hs
        cases hs
    · rw [hfind] at hs
      split at hs
      · cases hs
        exact Nat.le_succ _
      · rw [hno] at hs
        cases hs
    · simp only [enter]
      rw [Std.TreeMap.getElem?_modify, if_neg]
      · rfl
      · rw [Std.LawfulEqCmp.compare_eq_iff_eq]
        exact hid.symm

/-- **The symbols that a package has gained are empty**: none of their three cells is set. -/
def GainsEmpty (package : ObjectId) (h h' : Heap) : Prop :=
  ∀ name s, h'.findSymbol package name = some s → h.findSymbol package name = none →
    h'.cellsOf s = {}

/-- A symbol that has just been made has no cells, where none are set ahead of time. -/
theorem Interns.gainsEmpty (hi : Interns package new h h')
    (hcells : ∀ id ∈ h.cells, id < h.next) : GainsEmpty package h h' := by
  intro name s hs hnone
  have hid : s.id ∉ h.cells := fun hmem =>
    absurd (hcells s.id hmem) (Nat.not_lt.2 (hi.made hs hnone))
  rw [cellsOf, hi.cells, Std.TreeMap.getD_eq_fallback hid]

end Heap

open Heap

/-! ## The symbol that quotes -/

namespace Interpreter

/-- The symbol for quotations is in the package. -/
def HasQuote (lisp : Interpreter) (h : Heap) : Prop := ∃ q, lisp.findSymbol h "quote" = some q

variable {lisp : Interpreter} {h h' : Heap}

theorem HasQuote.of_grows (hq : lisp.HasQuote h) (hg : Grows lisp.package h h') :
    lisp.HasQuote h' :=
  hq.imp fun _ hfound => hg.kept hfound

theorem HasQuote.of_interns {new : Set String} (hq : lisp.HasQuote h)
    (hi : Interns lisp.package new h h') : lisp.HasQuote h' :=
  hq.imp fun _ hfound => hi.kept hfound

/-- What is installed is found under its name, whatever is installed besides. -/
theorem exists_findSymbol_foldl {α : Type} (title : α → String) (make : α → ObjectId → Value)
    {ops : List α} {op : α} (hop : op ∈ ops) (hmem : lisp.package ∈ h.packages) :
    ∃ s, lisp.findSymbol (ops.foldl (fun h op => lisp.install h (title op) (make op)) h)
      (title op) = some s := by
  induction ops generalizing h with
  | nil => exact absurd hop List.not_mem_nil
  | cons first ops ih =>
      have hinstall := lisp.changes_install h (title first) (make first)
      rcases List.mem_cons.1 hop with rfl | hlater
      · have hfound : lisp.findSymbol (lisp.install h (title op) (make op)) (title op) =
            some (lisp.intern h (title op)).1 :=
          findSymbol_intern h lisp.package (title op) hmem
        have hrest : Changes (lisp.install h (title op) (make op))
            (ops.foldl (fun h op => lisp.install h (title op) (make op))
              (lisp.install h (title op) (make op))) :=
          changes_foldl (fun h op => lisp.changes_install h (title op) (make op)) ops _
        exact ⟨_, (hrest.grows lisp.package).kept hfound⟩
      · exact ih hlater ((hinstall.grows lisp.package).mem hmem)

theorem hasQuote_fresh (h : Heap) : (fresh h).1.HasQuote (fresh h).2 := by
  have hquote : SpecialForm.quote ∈ SpecialForm.all := by decide
  have hmem := (sound_origin h).package_mem
  unfold fresh
  generalize SpecialForm.all = forms at hquote
  generalize Builtin.all = ops
  refine HasQuote.of_grows ?_
    ((changes_foldl (fun h _ => changes_install _ h _ _) ops _).grows _)
  refine exists_findSymbol_foldl SpecialForm.name _ hquote ?_
  -- before the special forms are installed the constants are defined, and the package stays
  refine (Changes.grows ?_ _).mem hmem
  refine .trans ?_ (changes_define _ _ "pi" _)
  refine .tail ?_ (.alloc _ _)
  exact (changes_define _ _ "nil" _).trans (changes_define _ _ "t" _)

theorem Reachable.hasQuote (hr : lisp.Reachable h) : lisp.HasQuote h := by
  induction hr with
  | fresh h hmade =>
      subst hmade
      exact hasQuote_fresh h
  | change _ hc ih => exact ih.of_grows (hc.grows lisp.package)
  | package hr name ih => exact ih.of_grows (grows_makePackage hr.sound.package_lt name)
  | @interpreter h hr ih =>
      have hgrows := grows_origin hr.sound.package_lt
      exact (ih.of_grows hgrows).of_grows ((changes_fresh h).grows lisp.package)

end Interpreter

/-! ## What a token interns -/

/-- The name of a token that is a symbol. -/
def Token.symbols : Token → Set String
  | .symbol name => {name}
  | _ => ∅

section

variable {lisp : Interpreter} {h h' : Heap} {new : Set String}

theorem interns_list (lisp : Interpreter) (h : Heap) (tail : Value) (items : List Value) :
    Interns lisp.package ∅ h (h.listWithTail tail items).2 := by
  rw [listWithTail_heap]
  exact interns_advance h items.length lisp.package

/-- A step that interns nothing may be made after one that does. -/
theorem Heap.Interns.then_none {package : ObjectId} {h'' : Heap} (h₁ : Interns package new h h')
    (h₂ : Interns package ∅ h' h'') : Interns package new h h'' :=
  Set.union_empty new ▸ h₁.trans h₂

/-- **To deliver a form interns nothing**: the symbol for quotations is there. -/
theorem interns_deliver (hq : lisp.HasQuote h) (form : Value) (stack : List Context) :
    Interns lisp.package ∅ h (deliver lisp form stack h).2 := by
  induction stack generalizing form h with
  | nil => exact .refl lisp.package h
  | cons context stack ih =>
      cases context with
      | list opened items => exact .refl lisp.package h
      | tail opened items => exact .refl lisp.package h
      | quote =>
          obtain ⟨q, hfound⟩ := hq
          have hlist := interns_list lisp h lisp.nilValue [.symbol q, form]
          have hq' := Interpreter.HasQuote.of_interns ⟨q, hfound⟩ hlist
          simp only [deliver]
          rw [lisp.intern_of_find hfound]
          exact hlist.then_none (ih hq' _)

/-- A form that is made and delivered interns what making it does. -/
theorem interns_delivered (hq : lisp.HasQuote h) (hmade : Interns lisp.package new h h')
    (form : Value) (stack : List Context) :
    Interns lisp.package new h (deliver lisp form stack h').2 :=
  hmade.then_none (interns_deliver (hq.of_interns hmade) form stack)

/-- Where a form may begin a symbol always fits. -/
theorem interns_takeForm (hq : lisp.HasQuote h) (token : Located Token) (stack : List Context) :
    Interns lisp.package token.content.symbols h (takeForm lisp token stack h).2 := by
  unfold takeForm
  cases token.content with
  | leftParen => exact .refl lisp.package h
  | quote => exact .refl lisp.package h
  | integer i => exact interns_delivered hq (interns_advance h 1 lisp.package) _ stack
  | float x => exact interns_delivered hq (interns_advance h 1 lisp.package) _ stack
  | string s => exact interns_delivered hq (interns_advance h 1 lisp.package) _ stack
  | symbol name =>
      obtain ⟨q, hfound⟩ := hq
      exact interns_delivered ⟨q, hfound⟩ (interns_intern (mem_of_findSymbol hfound) name) _ stack
  | rightParen =>
      simp only
      split
      · exact interns_delivered hq (interns_list lisp h _ _) _ _
      · exact .refl lisp.package h
  | dot =>
      simp only
      split <;> exact .refl lisp.package h

/-- **A token that fits interns its own name**, if it is a symbol. -/
theorem interns_take (hq : lisp.HasQuote h) {token : Located Token} {stage : Stage}
    (hfits : ∀ e, (stage.take lisp token h).1 ≠ .failed e) :
    Interns lisp.package token.content.symbols h (stage.take lisp token h).2 := by
  cases stage with
  | form stack => exact interns_takeForm hq token stack
  | closing opened items tail stack =>
      by_cases hclose : token.content = .rightParen
      · simp only [Stage.take, hclose]
        exact interns_delivered hq (interns_list lisp h tail _) _ stack
      · have htake : (Stage.closing opened items tail stack).take lisp token h =
            (.failed (.unexpectedToken token .closingParen), h) := by
          simp only [Stage.take]
        exact absurd (congrArg Prod.fst htake) (hfits _)

end

/-! ## Tokens that are reported -/

/-- **The token that a result reports** as one that was not expected, if it does. -/
def reported (result : Except ParseError Value) : Set (Located Token) :=
  {token | ∃ expected, result = .error (.unexpectedToken token expected)}

/-- **The names of the symbols among items**, but for the tokens that have been reported. -/
def symbolsIn (its : List Item) (found : Set (Located Token)) : Set String :=
  {name | ∃ token : Located Token, token.item ∈ its ∧ token.content = .symbol name ∧ token ∉ found}

theorem symbolsIn_append {front back : List Item} {found found' : Set (Located Token)}
    (hfound : ∀ token ∈ found, token.item ∉ back)
    (hfound' : ∀ token ∈ found', token.item ∉ front) :
    symbolsIn (front ++ back) (found ∪ found') = symbolsIn front found ∪ symbolsIn back found' := by
  ext name
  constructor
  · rintro ⟨token, hmem, hname, hnot⟩
    rcases List.mem_append.1 hmem with hfront | hback
    · exact .inl ⟨token, hfront, hname, fun hin => hnot (.inl hin)⟩
    · exact .inr ⟨token, hback, hname, fun hin => hnot (.inr hin)⟩
  · rintro (⟨token, hfront, hname, hnot⟩ | ⟨token, hback, hname, hnot⟩)
    · refine ⟨token, List.mem_append_left _ hfront, hname, ?_⟩
      rintro (hin | hin)
      · exact hnot hin
      · exact hfound' token hin hfront
    · refine ⟨token, List.mem_append_right _ hback, hname, ?_⟩
      rintro (hin | hin)
      · exact hfound token hin hback
      · exact hnot hin

/-- Behind items of which none is reported there is one more. -/
theorem symbolsIn_concat {its : List Item} {item : Item} {found : Set (Located Token)}
    (hfound : ∀ token ∈ found, token.item ∉ its) :
    symbolsIn (its ++ [item]) found = symbolsIn its ∅ ∪ symbolsIn [item] found := by
  rw [← symbolsIn_append (by simp) hfound, Set.empty_union]

theorem symbolsIn_token (token : Located Token) :
    symbolsIn [token.item] ∅ = token.content.symbols := by
  ext name
  constructor
  · rintro ⟨token', hmem, hname, _⟩
    obtain rfl := Located.item_injective (List.mem_singleton.1 hmem)
    rw [hname]
    exact Set.mem_singleton name
  · intro hname
    refine ⟨token, List.mem_singleton_self _, ?_, Set.notMem_empty _⟩
    cases htoken : token.content with
    | symbol name' =>
        rw [htoken] at hname
        rw [Set.mem_singleton_iff.1 hname]
    | _ =>
        rw [htoken] at hname
        exact absurd hname (Set.notMem_empty _)

theorem symbolsIn_error (span : Span) (e : LexicalError) (found : Set (Located Token)) :
    symbolsIn [⟨span, .error e⟩] found = ∅ := by
  refine Set.eq_empty_of_forall_notMem ?_
  rintro name ⟨token, hmem, _⟩
  cases List.mem_singleton.1 hmem

theorem reported_ok (form : Value) : reported (.ok form) = ∅ := by
  simp [reported]

theorem reported_atEnd (stage : Stage) : reported (.error stage.atEnd) = ∅ := by
  refine Set.eq_empty_of_forall_notMem ?_
  rintro token ⟨expected, herr⟩
  match stage with
  | .form [] => cases herr
  | .form (.quote :: _) => cases herr
  | .form (.list _ _ :: _) => cases herr
  | .form (.tail _ _ :: _) => cases herr
  | .closing _ _ _ _ => cases herr

theorem reported_lexical (e : Located LexicalError) : reported (.error (.lexical e)) = ∅ := by
  simp [reported]

theorem reported_unexpectedToken (token : Located Token) (expected : Expectation) :
    reported (.error (.unexpectedToken token expected)) = {token} := by
  ext token'
  simp [reported, eq_comm]

/-- A token that is reported does not count. -/
theorem symbolsIn_reported (token : Located Token) : symbolsIn [token.item] {token} = ∅ := by
  refine Set.eq_empty_of_forall_notMem ?_
  rintro name ⟨token', hmem, _, hnot⟩
  exact hnot (Located.item_injective (List.mem_singleton.1 hmem))

/-- Only the token that does not fit is reported, unless it is a dot. -/
theorem Stage.Refuses.reported_eq {stage : Stage} {token : Located Token} {e : ParseError}
    (hrefuses : stage.Refuses token e) :
    (∀ token' ∈ reported (.error e), token' = token) ∧
      symbolsIn [token.item] (reported (.error e)) = ∅ := by
  cases hrefuses with
  | close span hstack =>
      rw [reported_unexpectedToken]
      exact ⟨fun _ => id, symbolsIn_reported _⟩
  | dot span hstack =>
      have hnone : reported (.error (.invalidDot span)) = ∅ := by simp [reported]
      rw [hnone, symbolsIn_token]
      exact ⟨by simp, rfl⟩
  | tail htoken opened items tail stack =>
      rw [reported_unexpectedToken]
      exact ⟨fun _ => id, symbolsIn_reported _⟩

/-! ## What a reading interns -/

section

variable {lisp : Interpreter} {h h' : Heap} {stage last : Stage} {tokens : List (Located Token)}
  {its : List Item} {out : Reading} {length : Nat}

/-- A token that completes a form or leaves it open fits. -/
theorem interns_of_take {token : Located Token} {p : Progress} (hq : lisp.HasQuote h)
    (htake : stage.take lisp token h = (p, h')) (hfits : ∀ e, p ≠ .failed e) :
    Interns lisp.package (symbolsIn [token.item] ∅) h h' := by
  have hstep : Interns lisp.package token.content.symbols h (stage.take lisp token h).2 :=
    interns_take hq (by rwa [htake])
  rwa [htake, ← symbolsIn_token] at hstep

theorem Reader.Feeds.interns (hf : Feeds lisp stage tokens h last h') (hq : lisp.HasQuote h) :
    Interns lisp.package (symbolsIn (tokens.map Located.item) ∅) h h' := by
  induction hf with
  | nil stage h =>
      have hnone : symbolsIn [] ∅ = ∅ := by simp [symbolsIn]
      exact hnone ▸ .refl lisp.package h
  | @cons stage next last token tokens h h₁ h' htake _ ih =>
      have hfirst := interns_of_take hq htake (fun _ => Progress.noConfusion)
      have hsplit : symbolsIn (token.item :: tokens.map Located.item) ∅ =
          symbolsIn [token.item] ∅ ∪ symbolsIn (tokens.map Located.item) ∅ := by
        rw [← symbolsIn_append (by simp) (by simp), Set.empty_union]
        rfl
      rw [List.map_cons, hsplit]
      exact hfirst.trans (ih (hq.of_interns hfirst))

/-- **What one reading interns**: the symbols among the items that it has taken, except for the one
that it reports. -/
theorem Reader.RunsTo.interns (hrun : RunsTo lisp length (.form []) h its out)
    (hq : lisp.HasQuote h) (hdistinct : its.Nodup) :
    ∃ taken, its = taken ++ out.reader.pending ∧
      (∀ token ∈ reported out.result, token.item ∈ taken) ∧
      Interns lisp.package (symbolsIn taken (reported out.result)) h out.heap := by
  cases hrun with
  | @done tokens token rest last h₁ h₂ form hf htake =>
      have hfed := hf.interns hq
      refine ⟨tokens.map Located.item ++ [token.item], by simp, by simp [reported_ok], ?_⟩
      rw [reported_ok, symbolsIn_concat (by simp)]
      exact hfed.trans
        (interns_of_take (hq.of_interns hfed) htake (fun _ => Progress.noConfusion))
  | @ended tokens last h₁ hf =>
      refine ⟨tokens.map Located.item, (List.append_nil _).symm, by simp [reported_atEnd], ?_⟩
      rw [reported_atEnd]
      exact hf.interns hq
  | @failed tokens token rest last h₁ h₂ e hf htake =>
      obtain ⟨hrefuses, rfl⟩ := Stage.refuses_of_take htake
      obtain ⟨hreported, hsymbols⟩ := hrefuses.reported_eq
      -- the token that is reported has not been taken before
      have hnew : ∀ token' ∈ reported (.error e), token'.item ∉ tokens.map Located.item := by
        intro token' hin hmem
        rw [hreported token' hin] at hmem
        exact List.disjoint_of_nodup_append hdistinct hmem List.mem_cons_self
      refine ⟨tokens.map Located.item ++ [token.item], by simp, ?_, ?_⟩
      · intro token' hin
        rw [hreported token' hin]
        simp
      · rw [symbolsIn_concat hnew, hsymbols, Set.union_empty]
        exact hf.interns hq
  | @lexical tokens span e rest last h₁ hf =>
      refine ⟨tokens.map Located.item ++ [⟨span, .error e⟩], by simp, by simp [reported_lexical],
        ?_⟩
      rw [reported_lexical, symbolsIn_concat (by simp), symbolsIn_error, Set.union_empty]
      exact hf.interns hq

/-! ## Any number of readings -/

/-- The tokens that the calls of an iteration report. -/
def reportedBy (visits : List Visit) : Set (Located Token) :=
  {token | ∃ v ∈ visits, token ∈ reported v.out.result}

theorem reportedBy_cons (v : Visit) (visits : List Visit) :
    reportedBy (v :: visits) = reported v.out.result ∪ reportedBy visits := by
  ext token
  simp [reportedBy]

/-- **What an iteration interns**: each call adds the symbols of its own segment. -/
theorem Reader.Iterates.interns {r stop : Reader} {visits : List Visit}
    (hit : Iterates lisp r visits stop) (hcalls : Undisturbed h visits h') (hq : lisp.HasQuote h)
    (hdistinct : r.pending.Nodup) :
    ∃ taken, r.pending = taken ++ stop.pending ∧
      (∀ token ∈ reportedBy visits, token.item ∈ taken) ∧
      Interns lisp.package (symbolsIn taken (reportedBy visits)) h h' := by
  induction hit generalizing h with
  | stop r =>
      obtain rfl : h' = h := hcalls
      have hnone : symbolsIn [] (reportedBy []) = ∅ := by simp [symbolsIn]
      exact ⟨[], rfl, by simp [reportedBy], hnone ▸ .refl lisp.package h'⟩
  | @next r stop h₁ out visits hnext _ ih =>
      obtain ⟨rfl, hlater⟩ := hcalls
      obtain ⟨_, rfl⟩ := next?_eq_some_iff.1 hnext
      have hrun := runsTo_run lisp r.length (.form []) r.pending h₁
      obtain ⟨first, hsplit, hreported, hfirst⟩ := hrun.interns hq hdistinct
      rw [hsplit] at hdistinct
      have hapart := List.disjoint_of_nodup_append hdistinct
      obtain ⟨rest, hrest, hreported', hothers⟩ :=
        ih hlater (hq.of_interns hfirst) (List.Nodup.of_append_right hdistinct)
      refine ⟨first ++ rest, ?_, ?_, ?_⟩
      · rw [List.append_assoc, ← hrest]
        exact hsplit
      · rw [reportedBy_cons]
        rintro token (hin | hin)
        · exact List.mem_append_left _ (hreported token hin)
        · exact List.mem_append_right _ (hreported' token hin)
      · -- a token that one call reports is among the items of that call and of no other
        have hbehind : rest ⊆ (run lisp r.length (.form []) r.pending h₁).reader.pending := by
          rw [show (run lisp r.length (.form []) r.pending h₁).reader.pending =
            rest ++ stop.pending from hrest]
          exact List.subset_append_left _ _
        rw [reportedBy_cons, symbolsIn_append]
        · exact hfirst.trans hothers
        · exact fun token hin hmem => hapart (hreported token hin) (hbehind hmem)
        · exact fun token hin hmem => hapart hmem (hbehind (hreported' token hin))

/-- The items that are left when a text has been read as one form. Behind a form one more is looked
at. -/
def leftOver (lisp : Interpreter) (source : List Char) (h : Heap) : List Item :=
  let out := (Reader.ofSource source).read lisp h
  match out.result with
  | .ok _ => out.reader.pending.tail
  | .error _ => out.reader.pending

/-- **What reading a text as one form interns.** -/
theorem interns_readText (hq : lisp.HasQuote h) (source : List Char) :
    ∃ taken, items source = taken ++ leftOver lisp source h ∧
      Interns lisp.package (symbolsIn taken (reported (readText lisp source h).1)) h
        (readText lisp source h).2 := by
  have hdistinct := nodup_items source
  set out := (Reader.ofSource source).read lisp h with hout
  have hrun : RunsTo lisp (Text.byteLength source) (.form []) h (items source) out :=
    runsTo_run lisp (Text.byteLength source) (.form []) (items source) h
  obtain ⟨taken, hsplit, _, hinterns⟩ := hrun.interns hq hdistinct
  cases hresult : out.result with
  | error e =>
      have hleft : leftOver lisp source h = out.reader.pending := by
        simp only [leftOver, ← hout, hresult]
      have htext : readText lisp source h = (.error e, out.heap) := by
        simp only [readText, ← hout, hresult]
      rw [hresult] at hinterns
      rw [htext, hleft]
      exact ⟨taken, hsplit, hinterns⟩
  | ok form =>
      have hleft : leftOver lisp source h = out.reader.pending.tail := by
        simp only [leftOver, ← hout, hresult]
      rw [hresult, reported_ok] at hinterns
      rw [hleft]
      cases hpending : out.reader.pending with
      | nil =>
          have htext : readText lisp source h = (.ok form, out.heap) := by
            simp only [readText, ← hout, hresult, hpending]
          rw [htext, reported_ok]
          exact ⟨taken, by rw [hsplit, hpending]; rfl, hinterns⟩
      | cons item rest =>
          obtain ⟨span, content⟩ := item
          rw [hsplit, hpending] at hdistinct
          have hapart : ∀ {item : Item}, item ∈ taken → item ≠ ⟨span, content⟩ :=
            fun hmem heq => List.disjoint_of_nodup_append hdistinct hmem (heq ▸ List.mem_cons_self)
          refine ⟨taken ++ [⟨span, content⟩], by simpa [hpending] using hsplit, ?_⟩
          cases content with
          | ok token =>
              have htext : readText lisp source h =
                  (.error (.unexpectedToken ⟨span, token⟩ .endOfInput), out.heap) := by
                simp only [readText, ← hout, hresult, hpending]
              rw [htext, reported_unexpectedToken, symbolsIn_concat]
              · have hlast : symbolsIn [⟨span, .ok token⟩] {⟨span, token⟩} = ∅ :=
                  symbolsIn_reported ⟨span, token⟩
                rwa [hlast, Set.union_empty]
              · intro token' hin hmem
                rw [Set.mem_singleton_iff.1 hin] at hmem
                exact hapart hmem rfl
          | error e =>
              have htext : readText lisp source h =
                  (.error (.lexical ⟨span, e⟩), out.heap) := by
                simp only [readText, ← hout, hresult, hpending]
              rw [htext, reported_lexical, symbolsIn_concat (by simp), symbolsIn_error,
                Set.union_empty]
              exact hinterns

end

/-- **What reading changes.** In a reachable state in which nothing has cells that has not been
made, as in every session, let a source be asked for its next form any number of times, or be read
as one form. Then the names in the package are those from before and those of the symbols among the
items that have been taken, except for tokens that an error reports. All earlier entries, all cells
and all frames are the same, and the new symbols are empty. If a text cannot be read as one form,
then to evaluate it does no more than that. -/
theorem reading_only_interns {lisp : Interpreter} {h : Heap} (hr : lisp.Reachable h)
    (hcells : ∀ id ∈ h.cells, id < h.next) (source : List Char) :
    (∀ visits last h', Iterates lisp (.ofSource source) visits last → Undisturbed h visits h' →
      ∃ taken, items source = taken ++ last.pending ∧
        Interns lisp.package (symbolsIn taken (reportedBy visits)) h h' ∧
        GainsEmpty lisp.package h h') ∧
    (∃ taken, items source = taken ++ leftOver lisp source h ∧
      Interns lisp.package (symbolsIn taken (reported (readText lisp source h).1)) h
        (readText lisp source h).2 ∧
      GainsEmpty lisp.package h (readText lisp source h).2) ∧
    ∀ depth held e, (readText lisp source h).1 = .error e →
      lisp.evalText depth held source h = (.error (.parse e), (readText lisp source h).2) := by
  refine ⟨fun visits last h' hit hcalls => ?_, ?_, fun depth held e herr => ?_⟩
  · obtain ⟨taken, hsplit, _, hinterns⟩ := hit.interns hcalls hr.hasQuote (nodup_items source)
    exact ⟨taken, hsplit, hinterns, hinterns.gainsEmpty hcells⟩
  · obtain ⟨taken, hsplit, hinterns⟩ := interns_readText hr.hasQuote source
    exact ⟨taken, hsplit, hinterns, hinterns.gainsEmpty hcells⟩
  · have htext : readText lisp source h = (.error e, (readText lisp source h).2) :=
      Prod.ext herr rfl
    rw [Interpreter.evalText, htext]

/-- In `(a . b c) 'd` the symbol `c` does not fit, so it is not interned, while `b` before it and
`d` behind it are. -/
theorem reading_only_interns_dotted :
    let s := Session.start.after 9 ⟨.evalText "(setq a 1)", none⟩
    let source := "(a . b c) 'd".toList
    let h' := ((Reader.ofSource source).readAll s.lisp true s.heap).2.2
    s.lisp.Reachable s.heap ∧ (∀ id ∈ s.heap.cells, id < s.heap.next) ∧
      (h'.symbolNames s.lisp.package).filter (· ∉ s.heap.symbolNames s.lisp.package) = ["b", "d"] ∧
      (s.heap.symbolNames s.lisp.package).contains "a" = true ∧ h'.cells = s.heap.cells ∧
      h'.frames = s.heap.frames ∧ GainsEmpty s.lisp.package s.heap h' := by
  intro s source h'
  have hs : s.Reached := .step .start 9 _
  obtain ⟨visits, last, hit, _, _, _, hcalls⟩ :=
    exists_iterates_readAll s.lisp (Reader.ofSource source) s.heap
  obtain ⟨taken, _, hinterns, hempty⟩ :=
    (reading_only_interns hs.reachable hs.cells_lt source).1 visits last h' hit hcalls
  exact ⟨hs.reachable, hs.cells_lt, by decide +kernel, by decide +kernel, hinterns.cells,
    hinterns.frames, hempty⟩

end SmallLisp
