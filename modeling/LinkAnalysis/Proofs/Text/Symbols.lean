import LinkAnalysis.Text.Symbols
import Mathlib.Tactic

/-!
# Symbols of encoded texts

The bytes of an encoded text are read as its characters.
-/

namespace LinkAnalysis.Text

theorem utf8DecodeChar?_append
    (front : ByteArray) (c : Char) (chars : List Char) :
    (front ++ (c :: chars).utf8Encode).utf8DecodeChar? front.size = some c := by
  have hbehind : (front ++ (c :: chars).utf8Encode).extract front.size
        (front ++ (c :: chars).utf8Encode).size = (c :: chars).utf8Encode := by
    rw [ByteArray.size_append]
    exact ByteArray.extract_append_eq_right rfl rfl
  rw [ByteArray.utf8DecodeChar?_eq_utf8DecodeChar?_extract, hbehind,
    List.utf8DecodeChar?_utf8Encode_cons]

theorem size_utf8Encode_singleton (c : Char) :
    [c].utf8Encode.size = c.utf8Size := by
  rw [List.utf8Encode_singleton, List.size_toByteArray,
    String.length_utf8EncodeChar]

theorem symbolsFrom_append
    (front : ByteArray) (chars : List Char) (read : List Symbol) :
    symbolsFrom (front ++ chars.utf8Encode) front.size read =
      read.reverse ++ chars.map some := by
  induction chars generalizing front read with
  | nil =>
      have hend : ¬ front.size < (front ++ List.utf8Encode []).size := by simp
      rw [symbolsFrom, if_neg hend, List.map_nil, List.append_nil]
  | cons c chars ih =>
      have hsize :
          (front ++ [c].utf8Encode).size = front.size + c.utf8Size := by
        rw [ByteArray.size_append, size_utf8Encode_singleton]
      have hsplit : front ++ (c :: chars).utf8Encode =
          front ++ [c].utf8Encode ++ chars.utf8Encode := by
        rw [List.utf8Encode_cons, ByteArray.append_assoc]
      have hlt : front.size < (front ++ (c :: chars).utf8Encode).size := by
        have hpos := c.utf8Size_pos
        rw [hsplit, ByteArray.size_append, hsize]
        omega
      rw [symbolsFrom, if_pos hlt, utf8DecodeChar?_append]
      simp only []
      rw [hsplit, ← hsize, ih, List.reverse_cons, List.append_assoc,
        List.map_cons]
      rfl

theorem symbolsOfBytes_toUTF8 (text : String) :
    symbolsOfBytes text.toUTF8 = symbolsOfString text := by
  have hbytes : text.toUTF8 = ByteArray.empty ++ text.toList.utf8Encode := by
    rw [ByteArray.empty_append, String.toUTF8_eq_toByteArray,
      ← String.toByteArray_ofList, String.ofList_toList]
  rw [symbolsOfBytes, hbytes]
  exact symbolsFrom_append ByteArray.empty text.toList []

end LinkAnalysis.Text
