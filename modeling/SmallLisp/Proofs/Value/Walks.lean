import SmallLisp.Value.Printer

set_option autoImplicit false

/-! # Walking through memory

A value is a finite tree, so walking or printing one ends by its very type. In a memory objects
refer to each other by identity, and there it has to be shown: a walk goes from an identity to the
next, and would go on for ever in a circle. `Memory.items` and `Memory.render` are such walks, given
the number of references that they may follow one after the other. Where every cons is newer than
its two ends, they come to an end within the identity that they start from, and with the elements
and the text of the value that is shown there (`Shows.items_eq`, `Shows.render_eq`).
-/

namespace SmallLisp

/-- **What memory has under an identity**: a cons with the identities of its two ends, or something
that refers to nothing a walk would follow, with its text and whether it is an empty list. -/
inductive Node
  | cons (car cdr : ObjectId)
  | atom (isNil : Bool) (text : List Char)
deriving DecidableEq

/-- The node of a value. -/
def Value.node : Value → Node
  | .cons _ car cdr => .cons car.id cdr.id
  | v => .atom v.isNil v.atomChars

/-- **A memory.** -/
abbrev Memory := ObjectId → Option Node

namespace Memory

/-- Walks along a list and collects the identities of its elements: `none` if the walk does not
end within the given number of steps, `some none` if it ends at something that is no list. -/
def items (m : Memory) : Nat → ObjectId → Option (Option (List ObjectId))
  | 0, _ => none
  | steps + 1, id =>
      match m id with
      | none => none
      | some (.atom isNil _) => some (if isNil then some [] else none)
      | some (.cons car cdr) => (m.items steps cdr).map (·.map (car :: ·))

/-- Prints what is under an identity, or, with `inTail`, goes on with it as the rest of a list. -/
def render (m : Memory) : Nat → Bool → ObjectId → Option (List Char)
  | 0, _, _ => none
  | steps + 1, inTail, id =>
      match m id with
      | none => none
      | some (.atom isNil text) =>
          some (if inTail then
            if isNil then [')'] else ' ' :: '.' :: ' ' :: (text ++ [')'])
          else text)
      | some (.cons car cdr) =>
          (m.render steps false car).bind fun front =>
            (m.render steps true cdr).map fun back =>
              (if inTail then ' ' else '(') :: (front ++ back)

/-- **A memory shows a value**: the value and its ends are there under their identities, and every
cons is newer than its ends. -/
def Shows (m : Memory) : Value → Prop
  | .cons id car cdr =>
      m id = some (.cons car.id cdr.id) ∧ (car.id < id ∧ m.Shows car) ∧ cdr.id < id ∧ m.Shows cdr
  | v => m v.id = some v.node

variable {m : Memory}

theorem items_atom {id : ObjectId} {isNil : Bool} {text : List Char}
    (hm : m id = some (.atom isNil text)) (steps : Nat) :
    m.items (steps + 1) id = some (if isNil then some [] else none) := by
  rw [items, hm]

theorem render_atom {id : ObjectId} {isNil : Bool} {text : List Char}
    (hm : m id = some (.atom isNil text)) (steps : Nat) (inTail : Bool) :
    m.render (steps + 1) inTail id =
      some (if inTail then
        if isNil then [')'] else ' ' :: '.' :: ' ' :: (text ++ [')'])
      else text) := by
  rw [render, hm]

/-- A walk that may go further than the identity it starts from makes a first step. -/
theorem exists_step {id : ObjectId} {steps : Nat} (hsteps : id < steps) :
    ∃ n, steps = n + 1 ∧ id ≤ n :=
  ⟨steps - 1, (Nat.sub_add_cancel (Nat.one_le_of_lt hsteps)).symm, Nat.le_sub_one_of_lt hsteps⟩

/-- **Walking along a list ends**, with the elements of the list. -/
theorem Shows.items_eq {v : Value} (hv : m.Shows v) {steps : Nat} (hsteps : v.id < steps) :
    m.items steps v.id = some (v.items?.map (·.map Value.id)) := by
  -- the walk follows the second end of each cons, which is older
  induction v generalizing steps with
  | cons id car cdr _ ih =>
      obtain ⟨hm, _, hlt, hcdr⟩ := hv
      obtain ⟨n, rfl, hn⟩ := exists_step hsteps
      have hm' : m (Value.cons id car cdr).id = some (.cons car.id cdr.id) := hm
      rw [items, hm']
      simp only [ih hcdr (Nat.lt_of_lt_of_le hlt hn), Option.map_some, Value.items?]
      cases cdr.items? <;> rfl
  | symbol s =>
      obtain ⟨n, rfl, _⟩ := exists_step hsteps
      rw [items_atom hv]
      simp only [Value.isNil, Value.items?]
      by_cases hnil : s.isNil = true <;> simp [hnil]
  | _ =>
      obtain ⟨n, rfl, _⟩ := exists_step hsteps
      rw [items_atom hv]
      rfl

/-- **Printing ends**, with the text of the value. -/
theorem Shows.render_eq {v : Value} (hv : m.Shows v) {steps : Nat} (hsteps : v.id < steps)
    (inTail : Bool) : m.render steps inTail v.id = some (v.render inTail) := by
  -- both ends of a cons are older, so either can be printed with one step less
  induction v generalizing steps inTail with
  | cons id car cdr ihcar ihcdr =>
      obtain ⟨hm, ⟨hcarlt, hcar⟩, hcdrlt, hcdr⟩ := hv
      obtain ⟨n, rfl, hn⟩ := exists_step hsteps
      have hfront := ihcar hcar (Nat.lt_of_lt_of_le hcarlt hn) false
      have hback := ihcdr hcdr (Nat.lt_of_lt_of_le hcdrlt hn) true
      have hm' : m (Value.cons id car cdr).id = some (.cons car.id cdr.id) := hm
      rw [render, hm']
      simp only [hfront, hback, Option.bind_some, Option.map_some]
      rfl
  | _ =>
      obtain ⟨n, rfl, _⟩ := exists_step hsteps
      rw [render_atom hv]
      rfl

end Memory

end SmallLisp
