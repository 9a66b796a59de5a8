import TagTable.Typed.Number

/-!
# Plain arrays and records

* `Vector UInt8 n`: `n` bytes, stored as they are;
* `Point`: two coordinates, the first stored first.

Both are `Plain.Lawful`.
-/

namespace TagTable

instance {n : Nat} : Plain (Vector UInt8 n) where
  size := n
  align := 1
  encode v := v.toList
  decode b := Vector.ofFn fun i => b.getD i 0

instance {n : Nat} : Plain.Lawful (Vector UInt8 n) where
  length_encode v := Vector.length_toList
  decode_encode v := by
    ext i hi
    simp [Plain.encode, Plain.decode]
  encode_decode b h := by
    apply List.ext_getElem
    · simp [Plain.encode, Plain.decode, h, Plain.size]
    · intro i h₁ h₂
      simp [Plain.encode, Plain.decode, h₂]

/-- A point of the plane. -/
structure Point where
  x : Int32
  y : Int32
deriving DecidableEq

instance : Plain Point where
  size := 8
  align := 4
  encode p := Plain.encode p.x ++ Plain.encode p.y
  decode b := ⟨Plain.decode (b.take 4), Plain.decode (b.drop 4)⟩

theorem Point.encode_eq (p : Point) : Plain.encode p = Plain.encode p.x ++ Plain.encode p.y := rfl

theorem Point.decode_eq (b : Bytes) :
    (Plain.decode b : Point) = ⟨Plain.decode (b.take 4), Plain.decode (b.drop 4)⟩ := rfl

instance : Plain.Lawful Point where
  length_encode p := by
    simp only [Plain.encode, Plain.size, List.length_append, Bytes.length_ofNat]
  decode_encode p := by
    have hx : (Plain.encode p.x).length = 4 := Plain.Lawful.length_encode p.x
    rw [Point.decode_eq, Point.encode_eq, List.take_left' hx, List.drop_left' hx,
      Plain.Lawful.decode_encode, Plain.Lawful.decode_encode]
  encode_decode b h := by
    have h8 : b.length = 8 := h
    have hx := Plain.Lawful.encode_decode (α := Int32) (b.take 4) (by simp [h8, Plain.size])
    have hy := Plain.Lawful.encode_decode (α := Int32) (b.drop 4) (by simp [h8, Plain.size])
    rw [Point.decode_eq, Point.encode_eq, hx, hy, List.take_append_drop]

instance {n : Nat} : DebugText (Vector UInt8 n) :=
  ⟨fun style v => style.list (v.toList.map (debugText style))⟩

instance : DebugText Point :=
  ⟨fun style p => style.record "Point" [("x", debugText style p.x), ("y", debugText style p.y)]⟩

end TagTable
