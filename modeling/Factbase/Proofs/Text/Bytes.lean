import Factbase.Proofs.Text.Rendering

/-!
# Texts in bytes

The bytes of a text of ASCII characters are its characters, one by one, so that a file of such
lines is read line by line as it was written.

* `toUTF8_ascii`: the bytes of such a text;
* `decode?_bytesOf`: they are decoded to the text;
* `byteLines_of_bytes`: **the lines of a file are those that were written into it**, and what stands
  behind the last line end.
-/

namespace Factbase.Text

/-- A text of ASCII characters. -/
def Ascii (cs : List Char) : Prop := ∀ c ∈ cs, c.toNat < 128

theorem ascii_spaced {fields : List (List Char)} (h : ∀ cs ∈ fields, Ascii cs) :
    Ascii (spaced fields) := fun c hc => by
  rcases mem_spaced hc with rfl | ⟨cs, hcs, hc⟩
  · decide
  · exact h cs hcs c hc

theorem ascii_repr (n : Nat) : Ascii n.repr.toList := fun c hc => by
  have h := isDigit_of_mem_repr hc
  simp only [Char.isDigit, Bool.and_eq_true, decide_eq_true_eq, ge_iff_le,
    UInt32.le_iff_toNat_le] at h
  have hle : c.toNat ≤ 57 := h.2
  omega

theorem ascii_toString (i : Int) : Ascii (toString i).toList := by
  cases i with
  | ofNat n => exact ascii_repr n
  | negSucc n =>
      rw [toList_toString_negSucc]
      exact List.forall_mem_cons.mpr ⟨by decide, ascii_repr (n + 1)⟩

/-- The byte of an ASCII character. -/
def byteOf (c : Char) : UInt8 := UInt8.ofNat c.toNat

/-- The list of the bytes of an array. -/
theorem toList_byteArray (data : ByteArray) : data.toList = data.data.toList := by
  have loop : ∀ (rest i : Nat) (r : List UInt8), data.size - i = rest →
      ByteArray.toList.loop data i r = r.reverse ++ data.data.toList.drop i := by
    intro rest
    induction rest with
    | zero =>
        intro i r hrest
        rw [ByteArray.toList.loop, if_neg (by omega), List.drop_eq_nil_of_le, List.append_nil]
        exact Nat.sub_eq_zero_iff_le.mp hrest
    | succ rest ih =>
        intro i r hrest
        have hi : i < data.size := by omega
        have hlt : i < data.data.toList.length := hi
        have hget : data.get! i = data.data.toList[i] := getElem!_pos data.data i hi
        rw [ByteArray.toList.loop, if_pos hi, ih (i + 1) _ (by omega), List.reverse_cons,
          List.append_assoc, List.drop_eq_getElem_cons hlt, hget]
        rfl
  exact loop data.size 0 [] rfl

/-- Arrays with the same bytes are the same. -/
theorem toList_byteArray_inj {data data' : ByteArray} (h : data.toList = data'.toList) :
    data = data' := by
  rw [toList_byteArray, toList_byteArray] at h
  exact ByteArray.ext (Array.toList_inj.mp h)

/-- **The bytes of a text of ASCII characters.** -/
theorem toUTF8_ascii {cs : List Char} (h : Ascii cs) :
    (String.ofList cs).toUTF8 = (cs.map byteOf).toByteArray := by
  have hbytes : cs.flatMap String.utf8EncodeChar = cs.flatMap fun c => [byteOf c] :=
    List.flatMap_congr fun c hc => String.utf8EncodeChar_eq_singleton
      (Char.utf8Size_eq_one_iff.mpr (UInt32.le_iff_toNat_le.mpr (Nat.le_of_lt_succ (h c hc))))
  show (cs.flatMap String.utf8EncodeChar).toByteArray = _
  rw [hbytes, ← List.map_eq_flatMap]

theorem decode?_bytesOf {cs : List Char} (h : Ascii cs) : decode? (cs.map byteOf) = some cs := by
  have hbytes : (⟨(cs.map byteOf).toArray⟩ : ByteArray) = (String.ofList cs).toUTF8 := by
    rw [toUTF8_ascii h]
    exact ByteArray.ext List.data_toByteArray.symm
  have hdecode : String.fromUTF8? (String.ofList cs).toUTF8 = some (String.ofList cs) :=
    dif_pos (String.ofList cs).isValidUTF8
  rw [decode?, hbytes, hdecode, Option.map_some, String.toList_ofList]

/-- Different ASCII characters have different bytes. -/
theorem byteOf_inj {c d : Char} (hc : c.toNat < 128) (hd : d.toNat < 128)
    (h : byteOf c = byteOf d) : c = d := by
  have hnat := congrArg UInt8.toNat h
  rw [byteOf, byteOf, UInt8.toNat_ofNat', UInt8.toNat_ofNat', Nat.mod_eq_of_lt (by omega),
    Nat.mod_eq_of_lt (by omega)] at hnat
  exact Char.toNat_inj.mp hnat

/-- The characters that are written. -/
theorem ascii_unlines {lines : List (List Char)} (h : ∀ line ∈ lines, Ascii line) :
    Ascii (unlines '\n' lines) := fun c hc => by
  obtain ⟨line, hline, hc⟩ := List.mem_flatMap.mp hc
  rcases List.mem_append.mp hc with hc | hc
  · exact h line hline c hc
  · obtain rfl := List.mem_singleton.mp hc
    decide

/-- No byte of a line is that of a line end. -/
theorem unbroken_map_byteOf {line : List Char} (hascii : Ascii line)
    (h : Unbroken '\n' '\r' line) : Unbroken (10 : UInt8) 13 (line.map byteOf) := by
  have hfree : ∀ d : Char, d.toNat < 128 → d ∉ line → byteOf d ∉ line.map byteOf :=
    fun d hd hnot hin => by
      obtain ⟨c, hc, hsame⟩ := List.mem_map.mp hin
      exact hnot (byteOf_inj (hascii c hc) hd hsame ▸ hc)
  exact ⟨hfree '\n' (by decide) h.1, hfree '\r' (by decide) h.2⟩

/-- **The lines of a file are those that were written into it**, and what stands behind the last
line end. -/
theorem byteLines_of_bytes {lines : List (List Char)} (hascii : ∀ line ∈ lines, Ascii line)
    (hlines : ∀ line ∈ lines, Unbroken '\n' '\r' line) {part : List Char} (hpart : Ascii part)
    (hopen : Unbroken '\n' '\r' part) {data : ByteArray}
    (hdata : data.toList = (unlines '\n' lines ++ part).map byteOf) :
    byteLines data = (lines ++ openLine part).map some := by
  have hbytes : (unlines '\n' lines ++ part).map byteOf =
      unlines 10 (lines.map (List.map byteOf)) ++ part.map byteOf := by
    simp only [unlines, List.map_append, List.map_flatMap, List.flatMap_map]
    rfl
  have hunbroken : ∀ line ∈ lines.map (List.map byteOf), Unbroken (10 : UInt8) 13 line :=
    List.forall_mem_map.mpr fun line hline =>
      unbroken_map_byteOf (hascii line hline) (hlines line hline)
  rw [byteLines, hdata, hbytes,
    linesFrom_unlines_append hunbroken (unbroken_map_byteOf hpart hopen).1, List.map_append,
    List.map_append, List.map_map]
  refine congrArg₂ _ (List.map_congr_left fun line hline => decode?_bytesOf (hascii line hline)) ?_
  cases part with
  | nil => rfl
  | cons c cs => exact congrArg (fun line => [line]) (decode?_bytesOf hpart)

theorem byteLines_unlines {lines : List (List Char)} (hascii : ∀ line ∈ lines, Ascii line)
    (hlines : ∀ line ∈ lines, Unbroken '\n' '\r' line) :
    byteLines (String.ofList (unlines '\n' lines)).toUTF8 = lines.map some := by
  have hnone : Ascii [] := fun _ h => absurd h List.not_mem_nil
  rw [byteLines_of_bytes hascii hlines hnone ⟨List.not_mem_nil, List.not_mem_nil⟩, openLine,
    List.append_nil]
  rw [toUTF8_ascii (ascii_unlines hascii), toList_byteArray, List.data_toByteArray, List.append_nil]

end Factbase.Text
