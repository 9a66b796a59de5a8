/-!
# Sets of slots

A set of slots of one group, one bit per slot.

* `SlotIndex`, `putSlot`: the slots, and a change of what one of them holds;
* `SlotSet`, `contains`, `any`, `lowest`, `count`, `compl`, `inter`, `union`;
* `next`: the lowest slot and the set without it; `sizeHint`: the number of slots that are left;
* `toList`: all slots, lowest first.
-/

namespace TagTable

/-- The slots of a group. -/
def groupSize : Nat := 16

/-- A slot of a group. -/
abbrev SlotIndex := Fin 16

section

variable {α : Type}

/-- What the slots of a group hold can be read at a slot without a bound. -/
instance : GetElem (Vector α 16) SlotIndex α fun _ _ => True where
  getElem held i _ := held.get i

/-- What the slots hold after a change of one of them. -/
def putSlot (held : Vector α 16) (i : SlotIndex) (x : α) : Vector α 16 := held.set i x

@[simp] theorem getElem_slot (held : Vector α 16) (i : SlotIndex) : held[i] = held[i.val] := rfl

theorem getElem_putSlot (held : Vector α 16) (i j : SlotIndex) (x : α) :
    (putSlot held i x)[j] = if j = i then x else held[j] := by
  simp [putSlot, Vector.getElem_set, Fin.ext_iff, eq_comm]

end

/-- A set of slots of one group. -/
structure SlotSet where
  /-- Bit `i` is set when slot `i` is in the set. -/
  bits : UInt16
deriving DecidableEq

namespace SlotSet

/-- No slots. -/
def none : SlotSet := ⟨0⟩

/-- Whether a slot is in the set. -/
def contains (s : SlotSet) (i : SlotIndex) : Bool := s.bits.toBitVec.getLsbD i

/-- Whether any slot is in the set. -/
def any (s : SlotSet) : Bool := s.bits != 0

/-- The lowest slot of the set. -/
def lowest (s : SlotSet) : Option SlotIndex := (List.finRange 16).find? s.contains

/-- The number of slots in the set. -/
def count (s : SlotSet) : Nat := (List.finRange 16).countP s.contains

/-- The slots that are not in the set. -/
def compl (s : SlotSet) : SlotSet := ⟨~~~s.bits⟩

/-- The slots in both sets. -/
def inter (s t : SlotSet) : SlotSet := ⟨s.bits &&& t.bits⟩

/-- The slots in either set. -/
def union (s t : SlotSet) : SlotSet := ⟨s.bits ||| t.bits⟩

/-- The set without its lowest slot: subtracting one flips the lowest set bit and those below it. -/
def clearLowest (s : SlotSet) : SlotSet := ⟨s.bits &&& (s.bits - 1)⟩

/-- The lowest slot, and the set without it. -/
def next (s : SlotSet) : Option (SlotIndex × SlotSet) := s.lowest.map fun i => (i, s.clearLowest)

/-- The least and the greatest number of slots that may be left. -/
def sizeHint (s : SlotSet) : Nat × Option Nat := (s.count, some s.count)

/-- The first `steps` slots that `next` yields. -/
def walk : Nat → SlotSet → List SlotIndex
  | 0, _ => []
  | steps + 1, s =>
    match s.next with
    | Option.none => []
    | some (i, rest) => i :: walk steps rest

/-- All slots of the set, lowest first. -/
def toList (s : SlotSet) : List SlotIndex := walk 16 s

@[simp] theorem contains_compl (s : SlotSet) (i : SlotIndex) :
    s.compl.contains i = !s.contains i := by
  simp [contains, compl]

@[simp] theorem contains_inter (s t : SlotSet) (i : SlotIndex) :
    (s.inter t).contains i = (s.contains i && t.contains i) := by
  simp [contains, inter]

@[simp] theorem contains_union (s t : SlotSet) (i : SlotIndex) :
    (s.union t).contains i = (s.contains i || t.contains i) := by
  simp [contains, union]

end SlotSet

end TagTable
