import Blindplane.Lib.Bytes

/-! # Strings as the bytes that spell them

A string is compared, measured and transmitted as its UTF-8 bytes. Reading those
bytes back is the exact inverse of spelling them.
-/

namespace Blindplane.Lib.Utf8

/-- The UTF-8 encoding of a string. -/
def asBytes (s : String) : Bytes := s.toByteArray.data.toList

/-- Read UTF-8, refusing any other byte string. -/
def fromUtf8 (bytes : Bytes) : Option String := String.fromUTF8? ⟨bytes.toArray⟩

theorem asBytes_inj {s t : String} : asBytes s = asBytes t ↔ s = t := by
  constructor
  · intro same
    exact String.toByteArray_inj.mp (ByteArray.ext (Array.toList_inj.mp same))
  · rintro rfl
    rfl

theorem asBytes_ofList (chars : List Char) :
    asBytes (String.ofList chars) = chars.flatMap String.utf8EncodeChar := by
  simp only [asBytes, String.toByteArray_ofList, List.utf8Encode, List.data_toByteArray]

theorem fromUtf8_eq_some {bytes : Bytes} {s : String} :
    fromUtf8 bytes = some s ↔ bytes = asBytes s := by
  unfold fromUtf8 asBytes String.fromUTF8?
  constructor
  · split
    · simp only [Option.some.injEq]
      rintro rfl
      rfl
    · simp
  · rintro rfl
    simp only [Array.toArray_toList, s.isValidUTF8, dite_true, Option.some.injEq]
    rfl

end Blindplane.Lib.Utf8
