import CycleCount.Text.Basic
import Mathlib.Data.List.Basic

/-! Texts and their bytes: encoding goes character by character, decoding undoes
exactly that, and a character of the ASCII range is its own first byte. -/

namespace CycleCount.Text

theorem encode_append (first second : String) :
    encode (first ++ second) = encode first ++ encode second := by
  simp only [encode, String.toUTF8, String.toByteArray_append, ByteArray.data_append,
    Array.toList_append]

theorem encode_eq (s : String) : encode s = s.toList.flatMap String.utf8EncodeChar := by
  have hs : s = String.ofList s.toList := (String.ofList_toList).symm
  rw [hs, encode, String.toUTF8, String.toByteArray_ofList, List.utf8Encode,
    List.toList_data_toByteArray, String.toList_ofList]

theorem decode?_eq_some_iff {bytes : Bytes} {s : String} :
    decode? bytes = some s ↔ encode s = bytes := by
  unfold decode? String.fromUTF8? encode String.toUTF8
  constructor
  · intro h
    split_ifs at h with hvalid
    cases h
    exact List.toList_data_toByteArray
  · rintro rfl
    have hbytes : s.toByteArray.data.toList.toByteArray = s.toByteArray := by
      apply ByteArray.ext
      apply Array.toList_inj.mp
      rw [List.toList_data_toByteArray]
    simp only [hbytes]
    rw [dif_pos s.isValidUTF8]
    rfl

theorem toNat_of_mem_utf8EncodeChar {c : Char} {b : UInt8} (hb : b < 128)
    (h : b ∈ String.utf8EncodeChar c) : c.toNat = b.toNat := by
  have hb' : b.toNat < 128 := hb
  unfold String.utf8EncodeChar at h
  simp only at h
  split_ifs at h with h1 h2 h3
  · rw [List.mem_singleton.mp h, UInt8.toNat_ofNat', Nat.mod_eq_of_lt (by omega)]
    rfl
  all_goals
    simp only [List.mem_cons, List.not_mem_nil, or_false] at h
    rcases h with rfl | rfl | rfl | rfl
  all_goals
    simp only [UInt8.toNat_ofNat'] at hb'
    omega

theorem toList_of_encode_eq_cons {s : String} {b : UInt8} {rest : Bytes} (hb : b < 128)
    (h : encode s = b :: rest) : ∃ c cs, s.toList = c :: cs ∧ c.toNat = b.toNat := by
  rw [encode_eq] at h
  cases hs : s.toList with
  | nil =>
    rw [hs] at h
    cases h
  | cons c cs =>
    refine ⟨c, cs, rfl, ?_⟩
    rw [hs, List.flatMap_cons] at h
    obtain ⟨first, more, hfirst⟩ := List.exists_cons_of_ne_nil (String.utf8EncodeChar_ne_nil (c := c))
    rw [hfirst, List.cons_append, List.cons.injEq] at h
    refine toNat_of_mem_utf8EncodeChar hb ?_
    rw [hfirst, h.1]
    exact List.mem_cons_self ..

def utf8 (cs : List Char) : Bytes := cs.flatMap String.utf8EncodeChar

theorem encode_ofList (cs : List Char) : encode (String.ofList cs) = utf8 cs := by
  rw [encode_eq, String.toList_ofList, utf8]

theorem decode?_utf8 (cs : List Char) : decode? (utf8 cs) = some (String.ofList cs) := by
  rw [decode?_eq_some_iff, encode_ofList]

@[simp]
theorem utf8_nil : utf8 [] = [] := rfl

theorem utf8_cons (c : Char) (cs : List Char) : utf8 (c :: cs) = String.utf8EncodeChar c ++ utf8 cs :=
  List.flatMap_cons ..

@[simp]
theorem utf8_append (first second : List Char) : utf8 (first ++ second) = utf8 first ++ utf8 second :=
  List.flatMap_append ..

theorem utf8_ne_nil {cs : List Char} (hne : cs ≠ []) : utf8 cs ≠ [] := by
  obtain ⟨c, cs, rfl⟩ := List.exists_cons_of_ne_nil hne
  rw [utf8_cons]
  exact List.append_ne_nil_of_left_ne_nil String.utf8EncodeChar_ne_nil _

theorem eq_of_utf8EncodeChar_append {c c' : Char} {first second : Bytes}
    (h : String.utf8EncodeChar c ++ first = String.utf8EncodeChar c' ++ second) : c = c' := by
  have hdecode := ByteArray.utf8DecodeChar?_utf8EncodeChar_append (c := c) (b := first.toByteArray)
  rw [← List.toByteArray_append, h, List.toByteArray_append,
    ByteArray.utf8DecodeChar?_utf8EncodeChar_append] at hdecode
  exact (Option.some.inj hdecode).symm

end CycleCount.Text
