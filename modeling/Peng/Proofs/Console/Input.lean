import Peng.Proofs.Source.Lines
import Peng.Text.Lines

/-!
# Typed lines

Input is bytes, and its lines are looked at as text one by one. When all of it is the encoding of
a text, so is every line: `inputLines_toUTF8` says that the lines of the bytes are the lines of
the text, since no byte of another character looks like a newline.
-/

namespace Peng

/-! ## Encoded characters -/

theorem toList_loop_eq (b : ByteArray) (i : Nat) (read : List UInt8) :
    ByteArray.toList.loop b i read = read.reverse ++ b.data.toList.drop i := by
  fun_induction ByteArray.toList.loop b i read with
  | case1 i read hi ih =>
    have hi' : i < b.data.toList.length := by simpa using hi
    rw [ih, List.drop_eq_getElem_cons hi']
    simp [ByteArray.get!, hi]
  | case2 i read hi =>
    rw [List.drop_eq_nil_of_le (by simpa using hi), List.append_nil]

/-- The bytes of a text are those of its characters. -/
theorem data_toUTF8 (text : String) :
    text.toUTF8.data = (text.toList.flatMap String.utf8EncodeChar).toArray := by
  rw [String.toUTF8_eq_toByteArray, ← String.utf8Encode_toList, List.utf8Encode,
    List.data_toByteArray]

theorem toList_toUTF8 (text : String) :
    text.toUTF8.toList = text.toList.flatMap String.utf8EncodeChar := by
  rw [ByteArray.toList, toList_loop_eq, data_toUTF8]
  rfl

theorem fromUTF8?_toUTF8 (text : String) : String.fromUTF8? text.toUTF8 = some text := by
  simp only [String.fromUTF8?, String.toUTF8_eq_toByteArray, dif_pos text.isValidUTF8]
  rfl

/-- No byte of another character is a newline: all bytes of an encoding of several bytes are
above 127. -/
theorem newline_not_mem_utf8EncodeChar {c : Char} (h : c ≠ '\n') :
    10 ∉ String.utf8EncodeChar c := by
  intro hmem
  have hc : c.val.toNat ≠ 10 := fun hval => h (Char.ext (UInt32.toNat_inj.mp hval))
  have hten : (10 : UInt8).toNat = 10 := rfl
  have hnat := List.mem_map_of_mem (f := UInt8.toNat) hmem
  unfold String.utf8EncodeChar at hnat
  dsimp only at hnat
  -- one case for each length of the encoding
  repeat' split at hnat
  all_goals
    simp only [List.map_cons, List.map_nil, List.mem_cons, List.not_mem_nil, or_false,
      UInt8.toNat_ofNat'] at hnat
    omega

theorem utf8EncodeChar_ne_nil (c : Char) : String.utf8EncodeChar c ≠ [] := by
  have hlength := String.length_utf8EncodeChar c
  have hpos := c.utf8Size_pos
  intro h
  rw [h, List.length_nil] at hlength
  omega

/-! ## Lines of bytes -/

section Pieces

variable {α β : Type}

/-- What stands between newlines without the last piece, if that is empty: there is no line
behind the last newline. -/
def withoutEmptyEnd : List (List α) → List (List α)
  | [] => []
  | [[]] => []
  | piece :: pieces => piece :: withoutEmptyEnd pieces

theorem withoutEmptyEnd_cons {piece : List α} {pieces : List (List α)}
    (h : piece ≠ [] ∨ pieces ≠ []) :
    withoutEmptyEnd (piece :: pieces) = piece :: withoutEmptyEnd pieces := by
  rcases piece with _ | ⟨a, piece⟩
  · rcases pieces with _ | ⟨next, pieces⟩
    · simp at h
    · rfl
  · rfl

theorem withoutEmptyEnd_subset (pieces : List (List α)) : withoutEmptyEnd pieces ⊆ pieces := by
  fun_induction withoutEmptyEnd pieces with
  | case1 => exact List.Subset.refl _
  | case2 => exact List.nil_subset _
  | case3 piece pieces _ ih => exact List.cons_subset_cons piece ih

theorem withoutEmptyEnd_map {f : List α → List β} (hf : ∀ piece, f piece = [] ↔ piece = [])
    (pieces : List (List α)) :
    withoutEmptyEnd (pieces.map f) = (withoutEmptyEnd pieces).map f := by
  induction pieces with
  | nil => rfl
  | cons piece pieces ih =>
    by_cases h : piece ≠ [] ∨ pieces ≠ []
    · have h' : f piece ≠ [] ∨ pieces.map f ≠ [] := by simpa [hf] using h
      rw [List.map_cons, withoutEmptyEnd_cons h', withoutEmptyEnd_cons h, List.map_cons, ih]
    · obtain ⟨rfl, rfl⟩ : piece = [] ∧ pieces = [] := by simpa using h
      have hnil : f [] = [] := (hf []).mpr rfl
      simp [hnil, withoutEmptyEnd]

end Pieces

theorem splitAtNewlines_eq (bytes : List UInt8) :
    splitAtNewlines bytes = withoutEmptyEnd (bytes.splitOn 10) := by
  induction bytes with
  | nil => rfl
  | cons b rest ih =>
    obtain ⟨first, more, hrest⟩ := List.exists_cons_of_ne_nil (List.splitOn_ne_nil 10 rest)
    rw [splitAtNewlines, ih, List.splitOn_cons_eq_if_modifyHead, hrest]
    by_cases hb : b = 10
    · rw [if_pos hb, if_pos (by simpa using hb),
        withoutEmptyEnd_cons (.inr (List.cons_ne_nil first more))]
    · rw [if_neg hb, if_neg (by simpa using hb), List.modifyHead_cons,
        withoutEmptyEnd_cons (.inl (List.cons_ne_nil b first))]
      by_cases h : first ≠ [] ∨ more ≠ []
      · rw [withoutEmptyEnd_cons h]
      · obtain ⟨rfl, rfl⟩ : first = [] ∧ more = [] := by simpa using h
        rfl

theorem flatMap_intercalate (f : Char → List UInt8) (c : Char) (pieces : List (List Char)) :
    ([c].intercalate pieces).flatMap f = (f c).intercalate (pieces.map (·.flatMap f)) := by
  induction pieces with
  | nil => rfl
  | cons piece pieces ih =>
    rcases pieces with _ | ⟨next, pieces⟩
    · simp
    · rw [List.map_cons] at ih
      rw [List.intercalate_cons_cons, List.flatMap_append, List.flatMap_append, ih,
        List.flatMap_singleton, List.map_cons, List.map_cons, List.intercalate_cons_cons]

/-- Encoded characters fall into lines where the characters do. -/
theorem splitOn_flatMap_utf8EncodeChar (cs : List Char) :
    (cs.flatMap String.utf8EncodeChar).splitOn 10 =
      (cs.splitOn '\n').map (·.flatMap String.utf8EncodeChar) := by
  have hnewline : String.utf8EncodeChar '\n' = [10] := by decide
  have hpieces : ∀ piece ∈ (cs.splitOn '\n').map (·.flatMap String.utf8EncodeChar),
      10 ∉ piece := by
    rw [List.forall_mem_map]
    intro piece hpiece hmem
    obtain ⟨c, hc, hbyte⟩ := List.mem_flatMap.mp hmem
    have hne : c ≠ '\n' := fun h => not_mem_of_mem_splitOn hpiece (h ▸ hc)
    exact newline_not_mem_utf8EncodeChar hne hbyte
  have hsplit := List.splitOn_intercalate 10 hpieces (by simp)
  rwa [← hnewline, ← flatMap_intercalate, List.intercalate_splitOn] at hsplit

/-! ## Lines of text -/

/-- The lines that are typed into the prompt as a text: what stands before a newline, and what
stands behind the last one if there is anything. -/
def typedLines (text : String) : List String :=
  (withoutEmptyEnd (text.toList.splitOn '\n')).map String.ofList

example : typedLines "x is 1\n\nsay x\n" = ["x is 1", "", "say x"] := by decide

theorem isLine_of_mem_typedLines {text line : String} (h : line ∈ typedLines text) :
    IsLine line :=
  isLine_of_mem_sourceLines (List.map_subset _ (withoutEmptyEnd_subset _) h)

/-- The lines of an encoded text are the encoded lines of the text. -/
theorem inputLines_toUTF8 (text : String) :
    inputLines text.toUTF8 = (typedLines text).map String.toUTF8 := by
  have hnil (cs : List Char) : cs.flatMap String.utf8EncodeChar = [] ↔ cs = [] := by
    rcases cs with _ | ⟨c, cs⟩
    · simp
    · simp [utf8EncodeChar_ne_nil c]
  have hline (cs : List Char) :
      ByteArray.mk (cs.flatMap String.utf8EncodeChar).toArray = (String.ofList cs).toUTF8 := by
    apply ByteArray.ext
    rw [data_toUTF8, String.toList_ofList]
  rw [inputLines, toList_toUTF8, splitAtNewlines_eq, splitOn_flatMap_utf8EncodeChar,
    withoutEmptyEnd_map hnil, typedLines, List.map_map, List.map_map]
  exact List.map_congr_left fun cs _ => hline cs

theorem typedLines_append_newline {line : String} (h : IsLine line) (rest : String) :
    typedLines (line ++ "\n" ++ rest) = line :: typedLines rest := by
  have htext : (line ++ "\n" ++ rest).toList = line.toList ++ '\n' :: rest.toList := by simp
  rw [typedLines, htext, List.splitOn_append_cons_self_of_not_mem h,
    withoutEmptyEnd_cons (.inr (List.splitOn_ne_nil _ _)), List.map_cons, String.ofList_toList]
  rfl

/-- Any lines can be typed. -/
theorem exists_typedLines_eq {lines : List String} (h : ∀ line ∈ lines, IsLine line) :
    ∃ text, typedLines text = lines := by
  induction lines with
  | nil => exact ⟨"", by decide⟩
  | cons line lines ih =>
    obtain ⟨hline, hlines⟩ := List.forall_mem_cons.mp h
    obtain ⟨text, rfl⟩ := ih hlines
    exact ⟨line ++ "\n" ++ text, typedLines_append_newline hline text⟩

end Peng
