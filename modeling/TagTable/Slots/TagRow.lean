import TagTable.Slots.Tag
import TagTable.Slots.SlotSet

/-!
# Rows of tags

The sixteen tags of a group, scanned all at once for a target byte.

* `TagRow.slotsWith`: the scan by lanes, a comparison of all bytes followed by a gathering of the
  top bits of the lanes;
* `TagRow.slotsWithSerial`: the scan of one byte after the other;
* `TagRow.vacant`, `buried`, `live`: the slots of each kind.
-/

namespace TagTable

/-- The tags of a group, one per slot. -/
structure TagRow where
  /-- For each slot `Tag.empty`, `Tag.tombstone` or the tag of its key. -/
  bytes : Vector UInt8 16
deriving DecidableEq

namespace TagRow

/-- Sixteen empty slots. -/
def empty : TagRow := ⟨Vector.replicate 16 Tag.empty⟩

/-- The row with another tag in one slot. -/
def set (r : TagRow) (i : SlotIndex) (byte : UInt8) : TagRow := ⟨putSlot r.bytes i byte⟩

/-- Each lane all ones where the byte is the target, else zero. -/
def compareLanes (r : TagRow) (byte : UInt8) : Vector UInt8 16 :=
  r.bytes.map fun b => if b = byte then 0xff else 0

/-- The mask of the top bits of sixteen lanes. -/
def gatherTopBits (lanes : Vector UInt8 16) : SlotSet :=
  ⟨(List.finRange 16).foldl
    (fun bits (i : SlotIndex) => bits ||| ((lanes[i] >>> 7).toUInt16 <<< UInt16.ofNat i.val)) 0⟩

/-- The slots whose tag is `byte`, all lanes at once. -/
def slotsWith (r : TagRow) (byte : UInt8) : SlotSet := gatherTopBits (r.compareLanes byte)

/-- The slots whose tag is `byte`, one slot after the other. -/
def slotsWithSerial (r : TagRow) (byte : UInt8) : SlotSet :=
  ⟨(List.finRange 16).foldl
    (fun bits (i : SlotIndex) =>
      if r.bytes[i] = byte then bits ||| (1 <<< UInt16.ofNat i.val) else bits) 0⟩

/-- The slots that have held no entry. -/
def vacant (r : TagRow) : SlotSet := r.slotsWith Tag.empty

/-- The slots whose entry was removed. -/
def buried (r : TagRow) : SlotSet := r.slotsWith Tag.tombstone

/-- The slots that hold an entry. -/
def live (r : TagRow) : SlotSet := (r.vacant.union r.buried).compl

end TagRow

end TagTable
