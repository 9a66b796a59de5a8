import TagTable.Binary64
import TagTable.Typed.Plain

/-!
# Plain numbers

Integers are stored as their bytes, least significant first, negative ones in two's complement;
doubles as their bits; the empty value as no bytes. Each of these types is `Plain.Lawful`.
-/

namespace TagTable

instance : Plain UInt8 where
  size := 1
  align := 1
  encode n := Bytes.ofNat 1 n.toNat
  decode b := UInt8.ofNat (Bytes.toNat b)

instance : Plain UInt16 where
  size := 2
  align := 2
  encode n := Bytes.ofNat 2 n.toNat
  decode b := UInt16.ofNat (Bytes.toNat b)

instance : Plain UInt32 where
  size := 4
  align := 4
  encode n := Bytes.ofNat 4 n.toNat
  decode b := UInt32.ofNat (Bytes.toNat b)

instance : Plain UInt64 where
  size := 8
  align := 8
  encode n := Bytes.ofNat 8 n.toNat
  decode b := UInt64.ofNat (Bytes.toNat b)

instance : Plain Int32 where
  size := 4
  align := 4
  encode n := Bytes.ofNat 4 n.toUInt32.toNat
  decode b := (UInt32.ofNat (Bytes.toNat b)).toInt32

instance : Plain Int64 where
  size := 8
  align := 8
  encode n := Bytes.ofNat 8 n.toUInt64.toNat
  decode b := (UInt64.ofNat (Bytes.toNat b)).toInt64

instance : Plain Binary64 where
  size := 8
  align := 8
  encode x := Bytes.ofNat 8 x.bits.toNat
  decode b := ⟨UInt64.ofNat (Bytes.toNat b)⟩

instance : Plain Unit where
  size := 0
  align := 1
  encode _ := []
  decode _ := ()

/-! ## Encoding and decoding undo each other -/

instance : Plain.Lawful UInt8 where
  length_encode n := Bytes.length_ofNat 1 n.toNat
  decode_encode n := by
    show UInt8.ofNat (Bytes.toNat (Bytes.ofNat 1 n.toNat)) = n
    rw [Bytes.toNat_ofNat_of_lt n.toNat_lt, UInt8.ofNat_toNat]
  encode_decode b h := by
    show Bytes.ofNat 1 (UInt8.ofNat (Bytes.toNat b)).toNat = b
    rw [UInt8.toNat_ofNat_of_lt' (Bytes.toNat_lt_of_length h)]
    exact Bytes.ofNat_toNat_of_length h

instance : Plain.Lawful UInt16 where
  length_encode n := Bytes.length_ofNat 2 n.toNat
  decode_encode n := by
    show UInt16.ofNat (Bytes.toNat (Bytes.ofNat 2 n.toNat)) = n
    rw [Bytes.toNat_ofNat_of_lt n.toNat_lt, UInt16.ofNat_toNat]
  encode_decode b h := by
    show Bytes.ofNat 2 (UInt16.ofNat (Bytes.toNat b)).toNat = b
    rw [UInt16.toNat_ofNat_of_lt' (Bytes.toNat_lt_of_length h)]
    exact Bytes.ofNat_toNat_of_length h

instance : Plain.Lawful UInt32 where
  length_encode n := Bytes.length_ofNat 4 n.toNat
  decode_encode n := by
    show UInt32.ofNat (Bytes.toNat (Bytes.ofNat 4 n.toNat)) = n
    rw [Bytes.toNat_ofNat_of_lt n.toNat_lt, UInt32.ofNat_toNat]
  encode_decode b h := by
    show Bytes.ofNat 4 (UInt32.ofNat (Bytes.toNat b)).toNat = b
    rw [UInt32.toNat_ofNat_of_lt' (Bytes.toNat_lt_of_length h)]
    exact Bytes.ofNat_toNat_of_length h

instance : Plain.Lawful UInt64 where
  length_encode n := Bytes.length_ofNat 8 n.toNat
  decode_encode n := by
    show UInt64.ofNat (Bytes.toNat (Bytes.ofNat 8 n.toNat)) = n
    rw [Bytes.toNat_ofNat_of_lt n.toNat_lt, UInt64.ofNat_toNat]
  encode_decode b h := by
    show Bytes.ofNat 8 (UInt64.ofNat (Bytes.toNat b)).toNat = b
    rw [UInt64.toNat_ofNat_of_lt' (Bytes.toNat_lt_of_length h)]
    exact Bytes.ofNat_toNat_of_length h

instance : Plain.Lawful Int32 where
  length_encode n := Bytes.length_ofNat 4 n.toUInt32.toNat
  decode_encode n := by
    have h := Plain.Lawful.decode_encode n.toUInt32
    simp only [Plain.encode, Plain.decode] at h ⊢
    rw [h, Int32.toInt32_toUInt32]
  encode_decode b h := by
    have h := Plain.Lawful.encode_decode (α := UInt32) b h
    simp only [Plain.encode, Plain.decode] at h ⊢
    rw [UInt32.toUInt32_toInt32, h]

instance : Plain.Lawful Int64 where
  length_encode n := Bytes.length_ofNat 8 n.toUInt64.toNat
  decode_encode n := by
    have h := Plain.Lawful.decode_encode n.toUInt64
    simp only [Plain.encode, Plain.decode] at h ⊢
    rw [h, Int64.toInt64_toUInt64]
  encode_decode b h := by
    have h := Plain.Lawful.encode_decode (α := UInt64) b h
    simp only [Plain.encode, Plain.decode] at h ⊢
    rw [UInt64.toUInt64_toInt64, h]

instance : Plain.Lawful Binary64 where
  length_encode x := Bytes.length_ofNat 8 x.bits.toNat
  decode_encode x := by
    have h := Plain.Lawful.decode_encode x.bits
    simp only [Plain.encode, Plain.decode] at h ⊢
    rw [h]
  encode_decode b h := Plain.Lawful.encode_decode (α := UInt64) b h

instance : Plain.Lawful Unit where
  length_encode _ := rfl
  decode_encode _ := rfl
  encode_decode _ h := (List.eq_nil_of_length_eq_zero h).symm

/-! ## Debug text -/

instance : DebugText UInt8 := ⟨fun _ n => toString n.toNat⟩
instance : DebugText UInt16 := ⟨fun _ n => toString n.toNat⟩
instance : DebugText UInt32 := ⟨fun _ n => toString n.toNat⟩
instance : DebugText UInt64 := ⟨fun _ n => toString n.toNat⟩
instance : DebugText Int32 := ⟨fun _ n => toString n.toInt⟩
instance : DebugText Int64 := ⟨fun _ n => toString n.toInt⟩
instance : DebugText Unit := ⟨fun _ _ => "()"⟩

end TagTable
