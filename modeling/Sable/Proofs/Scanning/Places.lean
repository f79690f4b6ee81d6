import Mathlib.Data.List.Induction
import Mathlib.Data.String.Basic
import Sable.Span

/-!
# Places in a source

`Loc.locate`: the line and column of a byte offset, counted over the text before it (`textBefore`).
-/

namespace Sable

/-- The text of a source before the byte offset. -/
def textBefore (source : String) (offset : Nat) : List Char :=
  (String.Pos.Raw.extract source 0 ⟨offset⟩).toList

/-- The text of a source from the byte offset on. -/
def textFrom (source : String) (offset : Nat) : List Char :=
  (String.Pos.Raw.extract source ⟨offset⟩ ⟨source.utf8ByteSize⟩).toList

/-- The text that a span takes. -/
def Span.slice (source : String) (s : Span) : List Char :=
  (String.Pos.Raw.extract source ⟨s.start.offset⟩ ⟨s.stop.offset⟩).toList

/-- The place of a byte offset: one line more than there are newlines before it, and one column more
than there are characters after the last of them. -/
def Loc.locate (source : String) (offset : Nat) : Loc where
  line := 1 + (textBefore source offset).count '\n'
  column := 1 + ((textBefore source offset).reverse.takeWhile (· ≠ '\n')).length
  offset := offset

section

variable {source : String} {before middle rest : List Char}

theorem extract_eq (h : source.toList = before ++ middle ++ rest) :
    String.Pos.Raw.extract source ⟨String.utf8Len before⟩
      ⟨String.utf8Len before + String.utf8Len middle⟩ = String.ofList middle := by
  rw [← String.extract_of_valid before middle rest, ← h, String.ofList_toList]

theorem textBefore_eq (h : source.toList = before ++ rest) :
    textBefore source (String.utf8Len before) = before := by
  have hnil : source.toList = [] ++ before ++ rest := h
  have hextract := extract_eq hnil
  rw [String.utf8Len_nil, Nat.zero_add] at hextract
  exact (congrArg String.toList hextract).trans String.toList_ofList

theorem textFrom_eq (h : source.toList = before ++ rest) :
    textFrom source (String.utf8Len before) = rest := by
  have hsize : source.utf8ByteSize = String.utf8Len before + String.utf8Len rest := by
    rw [← String.utf8Len_toList, h, String.utf8Len_append]
  have hnil : source.toList = before ++ rest ++ [] := by rw [h, List.append_nil]
  unfold textFrom
  rw [hsize, extract_eq hnil, String.toList_ofList]

end

namespace Loc

theorem after_append (l : Loc) (cs cs' : List Char) : l.after (cs ++ cs') = (l.after cs).after cs' :=
  List.foldl_append

/-- The location after some text, counted out. -/
theorem start_after (before : List Char) :
    start.after before = ⟨1 + before.count '\n',
      1 + (before.reverse.takeWhile (· ≠ '\n')).length, String.utf8Len before⟩ := by
  induction before using List.reverseRecOn with
  | nil => rfl
  | append_singleton before c ih =>
    rw [after_append, ih]
    show next _ c = _
    by_cases hc : c = '\n'
    · simp [next, hc, Nat.add_assoc, List.count_append]
    · simp [next, hc, List.count_append]
      omega

theorem start_after_offset (before : List Char) :
    (start.after before).offset = String.utf8Len before := by
  rw [start_after]

theorem locate_eq {source : String} {before rest : List Char} (h : source.toList = before ++ rest) :
    locate source (String.utf8Len before) = start.after before := by
  rw [start_after, locate, textBefore_eq h]

end Loc

theorem Span.slice_eq {source : String} {before middle rest : List Char}
    (h : source.toList = before ++ middle ++ rest) :
    Span.slice source ⟨Loc.start.after before, Loc.start.after (before ++ middle)⟩ = middle := by
  unfold slice
  simp only [Loc.start_after_offset, String.utf8Len_append]
  rw [extract_eq h, String.toList_ofList]

end Sable
