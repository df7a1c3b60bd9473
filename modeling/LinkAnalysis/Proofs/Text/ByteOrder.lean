import Mathlib.Data.String.Basic
import Mathlib.Tactic

/-!
# The order of bytes

Strings are compared by their characters.  The encoding of characters as bytes
preserves their order and no encoding is a prefix of another one, so that the
order of strings is the order of their bytes.
-/

namespace LinkAnalysis

def utf8Bytes (s : String) : List UInt8 := s.toUTF8.data.toList

theorem utf8Bytes_eq_flatMap (s : String) :
    utf8Bytes s = s.toList.flatMap String.utf8EncodeChar := by
  conv_lhs => rw [utf8Bytes, ← String.ofList_toList (s := s)]
  rw [String.toUTF8_eq_toByteArray, String.toByteArray_ofList, List.utf8Encode,
    List.data_toByteArray]

/-- A smaller character is encoded by smaller bytes, whatever follows. -/
theorem utf8EncodeChar_append_lt
    {c d : Char}
    (hless : c < d)
    (u v : List UInt8) :
    String.utf8EncodeChar c ++ u < String.utf8EncodeChar d ++ v := by
  have hlt : c.val.toNat < d.val.toNat := hless
  have hbound : d.val.toNat < 0x110000 := by
    rcases d.valid with hd | ⟨-, hd⟩
    · exact hd.trans (by decide)
    · exact hd
  unfold String.utf8EncodeChar
  dsimp only
  split_ifs <;>
    simp only [List.cons_append, List.cons_lt_cons_iff, UInt8.lt_iff_toNat_lt,
      ← UInt8.toNat_inj, UInt8.toNat_ofNat'] <;>
    simp (disch := omega) only [Nat.mod_eq_of_lt] <;>
    omega

theorem flatMap_utf8EncodeChar_lt {k l : List Char} (hless : k < l) :
    k.flatMap String.utf8EncodeChar < l.flatMap String.utf8EncodeChar := by
  induction l generalizing k with
  | nil => simp at hless
  | cons d l ih =>
      cases k with
      | nil =>
          obtain ⟨byte, bytes, hbytes⟩ := List.exists_cons_of_ne_nil
            (String.utf8EncodeChar_ne_nil (c := d))
          simp [hbytes]
      | cons c k =>
          rw [List.flatMap_cons, List.flatMap_cons]
          rcases List.cons_lt_cons_iff.mp hless with hlt | ⟨rfl, hlt⟩
          · exact utf8EncodeChar_append_lt hlt _ _
          · exact List.append_left_lt (ih hlt)

/-- The order of strings is the order of their bytes. -/
theorem utf8Bytes_lt_iff {s t : String} :
    utf8Bytes s < utf8Bytes t ↔ s < t := by
  have hmono : ∀ {s t : String}, s < t → utf8Bytes s < utf8Bytes t := by
    intro s t hlt
    rw [utf8Bytes_eq_flatMap, utf8Bytes_eq_flatMap]
    exact flatMap_utf8EncodeChar_lt (String.lt_iff_toList_lt.mp hlt)
  refine ⟨fun hlt => ?_, hmono⟩
  rcases lt_trichotomy s t with hst | rfl | hts
  · exact hst
  · exact absurd hlt (List.lt_irrefl _)
  · exact absurd (List.lt_trans hlt (hmono hts)) (List.lt_irrefl _)

end LinkAnalysis
