import Mathlib.Data.List.Basic

/-!
# Strings as their bytes

A Go string is a sequence of bytes, and `[]byte(s)` is that sequence; for a string Lean can
hold it is `s.toUTF8.toList`. `ByteArray.toList` is written as a loop over the indices, and
`toList_eq` says that it lists the array, so that the list lemmas of the core library apply to
it: distinct strings have distinct bytes (`toUTF8_toList_injective`).
-/

set_option autoImplicit false

namespace Utf8

/-- The loop of `ByteArray.toList` from index `i`, with `r` collected in reverse. -/
theorem toList_loop (bs : ByteArray) (i : Nat) (r : List UInt8) :
    ByteArray.toList.loop bs i r = r.reverse ++ bs.data.toList.drop i := by
  fun_induction ByteArray.toList.loop bs i r with
  | case1 i r hi ih =>
    rw [ih]
    have hi' : i < bs.data.toList.length := by simpa using hi
    have hs : i < bs.data.size := hi
    rw [List.drop_eq_getElem_cons hi']
    simp [ByteArray.get!, getElem!_pos bs.data i hs]
  | case2 i r hi =>
    rw [List.drop_eq_nil_of_le (by simpa using hi), List.append_nil]

theorem toList_eq (bs : ByteArray) : bs.toList = bs.data.toList := by
  rw [ByteArray.toList, toList_loop]
  simp

theorem toUTF8_toList_injective : Function.Injective fun s : String => s.toUTF8.toList := by
  intro s t h
  simp only [toList_eq, String.toUTF8_eq_toByteArray] at h
  exact String.toByteArray_inj.mp (ByteArray.ext (Array.toList_inj.mp h))

end Utf8
