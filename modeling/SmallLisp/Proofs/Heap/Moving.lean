import SmallLisp.Proofs.Heap.Bounds
import SmallLisp.Proofs.Heap.Renaming

set_option autoImplicit false

/-! # Numbers that are not in use yet

A host gives the next numbers of its guest their names in advance: the next number of the guest is
the next number of the host. If something else happens in the host in the meantime, its next number
is another one, and the guest has to be renamed. Nothing in a bounded guest refers to the numbers
whose names change, so the host goes on hosting the guest (`Hosts.move`), provided that the entries
of the guest have been left alone.

A guest that has nothing yet can be hosted anywhere (`hosts_empty`).
-/

namespace SmallLisp

/-! ## Tidy heaps -/

/-- A number under which there are no entries. -/
structure Heap.Vacant (h : Heap) (id : ObjectId) : Prop where
  cells : h.cells[id]? = none
  closures : h.closures[id]? = none
  packages : h.packages[id]? = none

/-- **A tidy heap** has no entries under numbers that are still to come. -/
def Heap.Tidy (h : Heap) : Prop := ∀ n, h.Vacant (h.next + n)

theorem Heap.Bounded.tidy {h : Heap} (hb : h.Bounded) : h.Tidy := fun n =>
  { cells := Std.TreeMap.getElem?_eq_none fun hid =>
      absurd (hb.cells hid) (Nat.not_lt.2 (Nat.le_add_right _ n))
    closures := Std.TreeMap.getElem?_eq_none fun hid =>
      absurd (hb.closures hid) (Nat.not_lt.2 (Nat.le_add_right _ n))
    packages := Std.TreeMap.getElem?_eq_none fun hid =>
      absurd (hb.package_lt hid) (Nat.not_lt.2 (Nat.le_add_right _ n)) }

/-- A frame that does not exist yet is empty. -/
theorem Heap.frame_size_add (h : Heap) (n : Nat) : h.frame (h.frames.size + n) = ⟨[]⟩ := by
  rw [Heap.frame, Array.getElem?_eq_none (Nat.le_add_right _ n)]
  rfl

/-- **A tidy heap that comes after another**: more numbers are in use. -/
structure Heap.Precedes (h h' : Heap) : Prop where
  tidy : h'.Tidy
  next_le : h.next ≤ h'.next
  size_le : h.frames.size ≤ h'.frames.size

namespace Renaming

/-! ## Renamings that agree -/

/-- **Two renamings agree** on the numbers that a heap uses. -/
structure Agrees (r r' : Renaming) (h : Heap) : Prop where
  object : ∀ id < h.next, r'.object id = r.object id
  frameId : ∀ id < h.frames.size, r'.frameId id = r.frameId id

theorem Agrees.refl (r : Renaming) (h : Heap) : r.Agrees r h := ⟨fun _ _ => rfl, fun _ _ => rfl⟩

section

variable {r r' : Renaming} {h : Heap} (ha : r.Agrees r' h)

include ha

theorem Agrees.symbol {s : Symbol} (hs : s.Below h.next) : r'.symbol s = r.symbol s := by
  rw [Renaming.symbol, ha.object _ hs.1, ha.object _ hs.2.1, ha.object _ hs.2.2, Renaming.symbol]

theorem Agrees.option {name : Option Symbol} (hname : ∀ s ∈ name, s.Below h.next) :
    name.map r'.symbol = name.map r.symbol :=
  Option.map_congr fun s hs => ha.symbol (hname s hs)

theorem Agrees.value {v : Value} (hv : v.Below h.next) : r'.value v = r.value v := by
  induction v with
  | symbol s => exact congrArg Value.symbol (ha.symbol hv)
  | cons id car cdr ihcar ihcdr =>
      rw [Renaming.value, ha.object _ hv.1, ihcar hv.2.1, ihcdr hv.2.2, Renaming.value]
  | closure id name =>
      rw [Renaming.value, ha.object _ hv.1, ha.option hv.2, Renaming.value]
  | number id n => exact congrArg (Value.number · n) (ha.object id hv)
  | string id s => exact congrArg (Value.string · s) (ha.object id hv)
  | builtin id b => exact congrArg (Value.builtin · b) (ha.object id hv)
  | specialForm id f => exact congrArg (Value.specialForm · f) (ha.object id hv)
  | package id name => exact congrArg (Value.package · name) (ha.object id hv)

theorem Agrees.values {vs : List Value} (hvs : ∀ v ∈ vs, v.Below h.next) :
    r'.values vs = r.values vs :=
  List.map_congr_left fun v hv => ha.value (hvs v hv)

theorem Agrees.cells {c : Cells} (hc : ∀ v ∈ Heap.cellValues c, v.Below h.next) :
    r'.cells c = r.cells c := by
  have hcell : ∀ {cell : Option Value}, (∀ v ∈ cell, v ∈ Heap.cellValues c) →
      cell.map r'.value = cell.map r.value :=
    fun hcell => Option.map_congr fun v hv => ha.value (hc v (hcell v hv))
  rw [Renaming.cells, hcell fun v hv => ?_, hcell fun v hv => ?_, hcell fun v hv => ?_,
    Renaming.cells]
  all_goals simp_all [Heap.cellValues]

theorem Agrees.env {e : Environment} (he : ∀ f ∈ e, f < h.frames.size) : r'.env e = r.env e :=
  List.map_congr_left fun f hf => ha.frameId f (he f hf)

theorem Agrees.closure {c : Closure} (hc : ∀ v ∈ c.objects, v.Below h.next)
    (henv : r'.env c.env = r.env c.env) : r'.closure c = r.closure c := by
  have hparam : ∀ s ∈ c.params ++ c.rest.toList, s.Below h.next := fun s hs =>
    hc (.symbol s) (List.mem_append_left _ (List.mem_map_of_mem hs))
  have hparams : c.params.map r'.symbol = c.params.map r.symbol :=
    List.map_congr_left fun s hs => ha.symbol (hparam s (List.mem_append_left _ hs))
  have hrest : c.rest.map r'.symbol = c.rest.map r.symbol :=
    ha.option fun s hs => hparam s (List.mem_append_right _ (Option.mem_toList.2 hs))
  have hbody := ha.values fun v hv => hc v (List.mem_append_right _ hv)
  rw [Renaming.closure, hparams, hrest, hbody, henv, Renaming.closure]

theorem Agrees.frame {f : Frame} (hf : ∀ v ∈ f.objects, v.Below h.next) :
    r'.frame f = r.frame f := by
  refine congrArg Frame.mk (List.map_congr_left fun b hb => ?_)
  have hmem : ∀ v ∈ [b.object, b.value], v.Below h.next := fun v hv =>
    hf v (List.mem_flatMap.2 ⟨b, hb, hv⟩)
  rw [binding, ha.value (hmem _ (by simp)), ha.value (hmem _ (by simp)), binding]

theorem Agrees.interpreter {lisp : Interpreter} (hl : lisp.Bounded h) (htop : lisp.toplevel = []) :
    r'.interpreter lisp = r.interpreter lisp := by
  rw [Renaming.interpreter, ha.object _ hl.package, ha.symbol hl.nil, ha.symbol hl.t, htop,
    Renaming.interpreter, htop]
  rfl

end

/-! ## Keeping all names -/

/-- The renaming under which everything keeps its number. -/
def refl : Renaming := ⟨id, id, Function.injective_id, Function.injective_id⟩

theorem refl_symbol : refl.symbol = id := rfl

theorem refl_value : refl.value = id := by
  funext v
  induction v with
  | cons id car cdr ihcar ihcdr => exact congrArg₂ (Value.cons id) ihcar ihcdr
  | closure id name => exact congrArg (Value.closure id) (congrFun Option.map_id name)
  | _ => rfl

theorem refl_binding : refl.binding = id := by
  funext b
  exact congrArg₂ Binding.mk (congrFun refl_value b.object) (congrFun refl_value b.value)

theorem refl_cells : refl.cells = id := by
  funext c
  rw [cells, refl_value, Option.map_id]
  rfl

theorem refl_closure : refl.closure = id := by
  funext c
  rw [closure, values, refl_value, refl_symbol, env, Option.map_id, List.map_id, List.map_id]
  exact congrArg (Closure.mk c.params c.rest c.body) (List.map_id c.env)

theorem carries_refl (h : Heap) : refl.Carries h h where
  cells id := by
    rw [refl_cells, Option.map_id]
    rfl
  closures id := by
    rw [refl_closure, Option.map_id]
    rfl
  packages id := by
    rw [refl_value, Option.map_id]
    rfl
  frames id := by
    rw [frame, refl_binding, List.map_id]
    rfl

/-! ## Names for the numbers from some number on -/

/-- A naming sends the numbers from `n` on to the numbers from `m` on, in order. -/
def Continues (f : Nat → Nat) (n m : Nat) : Prop := ∀ k, f (n + k) = m + k

section

variable {f : Nat → Nat} {n m i x : Nat}

/-- Earlier numbers have earlier names. -/
theorem Continues.lt (hc : Continues f n m) (hf : Function.Injective f) (hi : i < n) :
    f i < m := by
  by_contra hge
  -- otherwise it would be the name of a number that is still to come
  obtain ⟨k, hk⟩ := Nat.le.dest (Nat.not_lt.1 hge)
  have hsame : n + k = i := hf ((hc k).trans hk)
  omega

theorem Continues.le {n' m' : Nat} (hc : Continues f n m) (hc' : Continues f n' m')
    (hle : n ≤ n') : m ≤ m' := by
  obtain ⟨k, rfl⟩ := Nat.le.dest hle
  have hsame : m' = m + k := (hc' 0).symm.trans (hc k)
  omega

/-- A number that is no name yet and comes before the next one will never be a name. -/
theorem Continues.not_mem_range (hc : Continues f n m) (hx : x < m) (hne : ∀ i < n, f i ≠ x) :
    x ∉ Set.range f := by
  rintro ⟨i, hi⟩
  rcases Nat.lt_or_ge i n with hlt | hge
  · exact hne i hlt hi
  · obtain ⟨k, rfl⟩ := Nat.le.dest hge
    have hsame : m + k = x := (hc k).symm.trans hi
    omega

end

/-- A naming with new names for the numbers from `n` on. -/
def graft (f : Nat → Nat) (n m i : Nat) : Nat := if i < n then f i else m + (i - n)

theorem graft_of_lt (f : Nat → Nat) {n i : Nat} (m : Nat) (hi : i < n) : graft f n m i = f i :=
  if_pos hi

theorem continues_graft (f : Nat → Nat) (n m : Nat) : Continues (graft f n m) n m := by
  intro k
  rw [graft, if_neg (Nat.not_lt.2 (Nat.le_add_right n k)), Nat.add_sub_cancel_left]

theorem graft_injective {f : Nat → Nat} (hf : Function.Injective f) {n m : Nat}
    (hlt : ∀ i < n, f i < m) : Function.Injective (graft f n m) := by
  intro i j hij
  by_cases hi : i < n <;> by_cases hj : j < n
  · rw [graft_of_lt f m hi, graft_of_lt f m hj] at hij
    exact hf hij
  · rw [graft_of_lt f m hi, graft, if_neg hj] at hij
    have := hlt i hi
    omega
  · rw [graft_of_lt f m hj, graft, if_neg hi] at hij
    have := hlt j hj
    omega
  · rw [graft, if_neg hi, graft, if_neg hj] at hij
    omega

/-! ## Moving a guest -/

variable {r : Renaming} {lisp : Interpreter} {base host host' guest : Heap}

/-- The names of what the guest has are numbers that the host has given out. -/
theorem Hosts.object_lt (hh : r.Hosts lisp base host guest) {id : ObjectId}
    (hid : id < guest.next) : r.object id < host.next :=
  Continues.lt hh.next r.object_injective hid

theorem Hosts.frameId_lt (hh : r.Hosts lisp base host guest) {id : FrameId}
    (hid : id < guest.frames.size) : r.frameId id < host.frames.size :=
  Continues.lt hh.size r.frameId_injective hid

/-- The name of a number without entries has none. -/
theorem Carries.vacant (hh : r.Carries host guest) {id : ObjectId} (hid : guest.Vacant id) :
    host.Vacant (r.object id) where
  cells := by rw [hh.cells, hid.cells, Option.map_none]
  closures := by rw [hh.closures, hid.closures, Option.map_none]
  packages := by
    have hnone := hh.packages id
    rw [Heap.packageValue?, Heap.packageValue?, hid.packages, Option.map_none, Option.map_none,
      Option.map_eq_none_iff] at hnone
    exact hnone

/-- The host of a bounded guest is tidy. -/
theorem Hosts.tidy (hh : r.Hosts lisp base host guest) (hb : guest.Bounded) : host.Tidy := by
  intro n
  rw [← hh.next]
  exact hh.vacant (hb.tidy n)

/-- When a guest has gone on, so has its host. -/
theorem Hosts.precedes {guest' : Heap} (hh : r.Hosts lisp base host guest)
    (hh' : r.Hosts lisp base host' guest') (hb : guest'.Bounded) (hnext : guest.next ≤ guest'.next)
    (hsize : guest.frames.size ≤ guest'.frames.size) : host.Precedes host' :=
  ⟨hh'.tidy hb, Continues.le hh.next hh'.next hnext, Continues.le hh.size hh'.size hsize⟩

/-- The entries of the guest are as they were, but for the symbols of packages. -/
structure Kept (r : Renaming) (guest host host' : Heap) : Prop where
  cells : ∀ id < guest.next, host'.cells[r.object id]? = host.cells[r.object id]?
  closures : ∀ id < guest.next, host'.closures[r.object id]? = host.closures[r.object id]?
  values : ∀ id < guest.next, host'.packageValue? (r.object id) = host.packageValue? (r.object id)
  frames : ∀ id < guest.frames.size, host'.frame (r.frameId id) = host.frame (r.frameId id)

/-- The entries of the guest are as they were. -/
structure Untouched (r : Renaming) (guest host host' : Heap) : Prop where
  cells : ∀ id < guest.next, host'.cells[r.object id]? = host.cells[r.object id]?
  closures : ∀ id < guest.next, host'.closures[r.object id]? = host.closures[r.object id]?
  packages : ∀ id < guest.next, host'.packages[r.object id]? = host.packages[r.object id]?
  frames : ∀ id < guest.frames.size, host'.frame (r.frameId id) = host.frame (r.frameId id)

theorem Untouched.kept (hu : Untouched r guest host host') : Kept r guest host host' where
  cells := hu.cells
  closures := hu.closures
  values id hid := by rw [Heap.packageValue?, Heap.packageValue?, hu.packages id hid]
  frames := hu.frames

/-- **What was left alone is still carried**, under names for the next numbers that nothing has in
the new host. -/
theorem Carries.of_agrees {r' : Renaming} (hh : r.Carries host guest)
    (hb : ∀ {v : Value}, guest.Mentions v → v.Below guest.next) (htidy : guest.Tidy)
    (hu : Kept r guest host host') (ha : r.Agrees r' guest)
    (henv : ∀ {id : ObjectId} {c : Closure}, guest.closures[id]? = some c →
      r'.env c.env = r.env c.env)
    (hvacant : ∀ n, host'.Vacant (r'.object (guest.next + n)))
    (hsize : ∀ n, host'.frame (r'.frameId (guest.frames.size + n)) = ⟨[]⟩) :
    r'.Carries host' guest where
  cells id := by
    rcases Nat.lt_or_ge id guest.next with hid | hge
    · rw [ha.object id hid, hu.cells id hid, hh.cells]
      refine Option.map_congr fun c hc => (ha.cells fun v hv => ?_).symm
      exact hb (.cell hc hv)
    · obtain ⟨n, rfl⟩ := Nat.le.dest hge
      rw [(hvacant n).cells, (htidy n).cells, Option.map_none]
  closures id := by
    rcases Nat.lt_or_ge id guest.next with hid | hge
    · rw [ha.object id hid, hu.closures id hid, hh.closures]
      refine Option.map_congr fun c hc => (ha.closure (fun v hv => ?_) (henv hc)).symm
      exact hb (.code hc hv)
    · obtain ⟨n, rfl⟩ := Nat.le.dest hge
      rw [(hvacant n).closures, (htidy n).closures, Option.map_none]
  packages id := by
    rcases Nat.lt_or_ge id guest.next with hid | hge
    · rw [ha.object id hid, hu.values id hid, hh.packages]
      refine Option.map_congr fun v hv => (ha.value ?_).symm
      obtain ⟨p, hp, rfl⟩ := Option.map_eq_some_iff.1 hv
      exact hb (.package hp)
    · obtain ⟨n, rfl⟩ := Nat.le.dest hge
      rw [Heap.packageValue?, Heap.packageValue?, (hvacant n).packages, (htidy n).packages,
        Option.map_none, Option.map_none, Option.map_none]
  frames id := by
    rcases Nat.lt_or_ge id guest.frames.size with hid | hge
    · rw [ha.frameId id hid, hu.frames id hid, hh.frames]
      exact (ha.frame fun v hv => hb (.frame hv)).symm
    · obtain ⟨n, rfl⟩ := Nat.le.dest hge
      rw [hsize, Heap.frame_size_add]
      rfl

/-- **A guest that was left alone is still hosted**, under names for its next numbers that are
right for the new host. -/
theorem Hosts.of_agrees {r' : Renaming} (hh : r.Hosts lisp base host guest) (hb : guest.Bounded)
    (hu : Untouched r guest host host') (htidy : host'.Tidy) (ha : r.Agrees r' guest)
    (hnext : ∀ n, r'.object (guest.next + n) = host'.next + n)
    (hsize : ∀ n, r'.frameId (guest.frames.size + n) = host'.frames.size + n) :
    r'.Hosts lisp host' host' guest where
  toCarries := hh.toCarries.of_agrees hb.mentioned hb.tidy hu.kept ha
    (fun hc => ha.env (hb.frames hc)) (fun n => hnext n ▸ htidy n)
    fun n => by rw [hsize, Heap.frame_size_add]
  next := hnext
  size := hsize
  symbols id name := by
    rcases Nat.lt_or_ge id guest.next with hid | hge
    · rw [ha.object id hid, Heap.findSymbol_congr (hu.packages id hid), hh.symbols]
      exact Option.map_congr fun s hs => (ha.symbol (hb.mentioned (.symbol hs))).symm
    · obtain ⟨n, rfl⟩ := Nat.le.dest hge
      rw [hnext, Heap.findSymbol, Heap.findSymbol, Heap.symbolsOf, Heap.symbolsOf,
        (htidy n).packages, (hb.tidy n).packages]
      simp
  alone := hh.alone
  spares := Spares.refl _ _

theorem Hosts.move (hh : r.Hosts lisp base host guest) (hb : guest.Bounded)
    (hu : Untouched r guest host host') (hlater : host.Precedes host') :
    ∃ r' : Renaming, r.Agrees r' guest ∧ r'.Hosts lisp host' host' guest := by
  let r' : Renaming :=
    { object := graft r.object guest.next host'.next
      frameId := graft r.frameId guest.frames.size host'.frames.size
      object_injective := graft_injective r.object_injective fun _ hid =>
        Nat.lt_of_lt_of_le (hh.object_lt hid) hlater.next_le
      frameId_injective := graft_injective r.frameId_injective fun _ hid =>
        Nat.lt_of_lt_of_le (hh.frameId_lt hid) hlater.size_le }
  have ha : r.Agrees r' guest :=
    ⟨fun _ hid => graft_of_lt _ _ hid, fun _ hid => graft_of_lt _ _ hid⟩
  exact ⟨r', ha, hh.of_agrees hb hu hlater.tidy ha (continues_graft _ _ _) (continues_graft _ _ _)⟩

/-- What hosts a guest may be taken as the base of what follows. -/
theorem Hosts.rebase (hh : r.Hosts lisp base host guest) : r.Hosts lisp host host guest :=
  { hh with spares := Spares.refl _ _ }

/-! ## Guests apart -/

/-- **Two guests that have nothing in common**, under their names in the host. -/
structure Apart (r : Renaming) (guest : Heap) (s : Renaming) (guest' : Heap) : Prop where
  object : ∀ id < guest.next, ∀ id' < guest'.next, r.object id ≠ s.object id'
  frameId : ∀ id < guest.frames.size, ∀ id' < guest'.frames.size, r.frameId id ≠ s.frameId id'

/-- A guest that has nothing to which a renaming gives a name, now or later. -/
structure Clear (r : Renaming) (guest : Heap) (s : Renaming) : Prop where
  object : ∀ id < guest.next, r.object id ∉ Set.range s.object
  frameId : ∀ id < guest.frames.size, r.frameId id ∉ Set.range s.frameId

section

variable {s r' s' : Renaming} {guest' : Heap}

theorem Apart.symm (ha : r.Apart guest s guest') : s.Apart guest' r guest :=
  ⟨fun id hid id' hid' => (ha.object id' hid' id hid).symm,
    fun id hid id' hid' => (ha.frameId id' hid' id hid).symm⟩

theorem Apart.of_agrees (ha : r.Apart guest s guest') (hr : r.Agrees r' guest)
    (hs : s.Agrees s' guest') : r'.Apart guest s' guest' where
  object id hid id' hid' := by
    rw [hr.object id hid, hs.object id' hid']
    exact ha.object id hid id' hid'
  frameId id hid id' hid' := by
    rw [hr.frameId id hid, hs.frameId id' hid']
    exact ha.frameId id hid id' hid'

theorem Clear.apart (hc : r.Clear guest s) (guest' : Heap) : r.Apart guest s guest' :=
  ⟨fun id hid id' _ heq => hc.object id hid ⟨id', heq.symm⟩,
    fun id hid id' _ heq => hc.frameId id hid ⟨id', heq.symm⟩⟩

/-- Guests apart in one host stay so: the names to come are new to both. -/
theorem Apart.clear {maker maker' : Interpreter} {base' : Heap} (ha : r.Apart guest s guest')
    (hr : r.Hosts maker base host guest) (hs : s.Hosts maker' base' host guest') :
    r.Clear guest s where
  object id hid := Continues.not_mem_range hs.next (hr.object_lt hid) fun id' hid' =>
    (ha.object id hid id' hid').symm
  frameId id hid := Continues.not_mem_range hs.size (hr.frameId_lt hid) fun id' hid' =>
    (ha.frameId id hid id' hid').symm

/-- What happens under the names of one guest leaves the others untouched. -/
theorem Clear.untouched (hc : r.Clear guest s) (hs : s.Spares host host') :
    r.Untouched guest host host' where
  cells id hid := hs.cells _ (hc.object id hid)
  closures id hid := hs.closures _ (hc.object id hid)
  packages id hid := hs.packages _ (hc.object id hid)
  frames id hid := hs.frames _ (hc.frameId id hid)

end

/-! ## A new guest -/

/-- The renaming of a guest that starts with nothing. -/
def newcomer (host : Heap) : Renaming where
  object n := host.next + n
  frameId n := host.frames.size + n
  object_injective _ _ heq := Nat.add_left_cancel heq
  frameId_injective _ _ heq := Nat.add_left_cancel heq

theorem newcomer_object (host : Heap) : Continues (newcomer host).object 0 host.next :=
  fun n => congrArg (host.next + ·) (Nat.zero_add n)

theorem newcomer_frameId (host : Heap) : Continues (newcomer host).frameId 0 host.frames.size :=
  fun n => congrArg (host.frames.size + ·) (Nat.zero_add n)

theorem hosts_empty (lisp : Interpreter) (htidy : host.Tidy) :
    (newcomer host).Hosts lisp host host Heap.empty where
  next := newcomer_object host
  size := newcomer_frameId host
  cells id := (htidy id).cells.trans (by simp [Heap.empty])
  closures id := (htidy id).closures.trans (by simp [Heap.empty])
  packages id := by
    show (host.packages[host.next + id]?).map _ = _
    rw [(htidy id).packages]
    simp [Heap.packageValue?, Heap.empty]
  symbols id name := by
    show ((host.packages[host.next + id]?.map Package.symbols).getD {})[name]? = _
    rw [(htidy id).packages]
    simp [Heap.findSymbol, Heap.symbolsOf, Heap.empty]
  frames id := (host.frame_size_add id).trans (by simp [Heap.frame, Heap.empty, frame])
  alone id hid := absurd hid Std.TreeMap.not_mem_emptyc
  spares := Spares.refl _ _

/-- The names of a newcomer are new to those who are there. -/
theorem Hosts.clear_newcomer (hh : r.Hosts lisp base host guest) :
    r.Clear guest (newcomer host) where
  object _ hid := (newcomer_object host).not_mem_range (hh.object_lt hid) fun _ h0 =>
    absurd h0 (Nat.not_lt_zero _)
  frameId _ hid := (newcomer_frameId host).not_mem_range (hh.frameId_lt hid) fun _ h0 =>
    absurd h0 (Nat.not_lt_zero _)

end Renaming

end SmallLisp
