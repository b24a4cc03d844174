import PatchTyping.Sha256Digest

/-!
# The bytes of a text

The bytes of a text are those of its characters, one character after the other, and they determine it.
-/

namespace PatchTyping

/-- Bytes that have been taken off come out in front of those that are left. -/
private theorem byteList_loop (bytes : ByteArray) (left : Nat) (taken : List UInt8) :
    ByteArray.toList.loop bytes (bytes.size - left) taken =
      taken.reverse ++ bytes.data.toList.drop (bytes.size - left) := by
  induction left generalizing taken with
  | zero => simp [ByteArray.toList.loop]
  | succ left ih =>
    by_cases hleft : left < bytes.size
    · have hnext : bytes.size - (left + 1) + 1 = bytes.size - left := by omega
      have hlt : bytes.size - (left + 1) < bytes.size := by omega
      have hlist : bytes.size - (left + 1) < bytes.data.toList.length := by simpa using hlt
      rw [ByteArray.toList.loop, if_pos hlt, List.drop_eq_getElem_cons hlist, hnext, ih]
      simp [ByteArray.get!, hlt]
    · have hsame : bytes.size - (left + 1) = bytes.size - left := by omega
      rw [hsame, ih]

private theorem byteList_eq (bytes : ByteArray) : bytes.toList = bytes.data.toList := by
  simpa [ByteArray.toList] using byteList_loop bytes bytes.size []

theorem utf8Bytes_eq (s : String) : utf8Bytes s = s.toList.flatMap String.utf8EncodeChar := by
  have h : (String.ofList s.toList).toByteArray.data.toList =
      s.toList.flatMap String.utf8EncodeChar := List.toList_data_toByteArray
  rwa [String.ofList_toList, ← byteList_eq] at h

theorem utf8Bytes_ofList (cs : List Char) :
    utf8Bytes (String.ofList cs) = cs.flatMap String.utf8EncodeChar := by
  rw [utf8Bytes_eq, String.toList_ofList]

@[simp] theorem length_utf8Bytes (s : String) : (utf8Bytes s).length = s.utf8ByteSize := by
  rw [utf8Bytes, byteList_eq, Array.length_toList]
  rfl

theorem utf8Bytes_inj {s t : String} : utf8Bytes s = utf8Bytes t ↔ s = t := by
  refine ⟨fun h => ?_, congrArg utf8Bytes⟩
  rw [utf8Bytes, utf8Bytes, byteList_eq, byteList_eq, Array.toList_inj] at h
  exact String.toByteArray_inj.mp (ByteArray.ext h)

end PatchTyping
