import Sable.Program.Expr
import Sable.Text.Blank
import Sable.Text.Word
import Sable.Grammar.SyntaxError

/-!
# Text literals as templates

A text splits into plain characters, references `$name` and expressions in braces behind a dollar
sign, where the braces inside an expression balance. A dollar sign in front of anything else is
plain.
-/

namespace Sable

/-- A part of a text literal. -/
inductive Piece where
  | plain (c : Char)
  | reference (name : String)
  | hole (body : String)
  /-- A hole whose closing brace is missing, with the rest of the text from its dollar sign on. -/
  | openHole (rest : String)
  deriving DecidableEq

namespace Piece

/-- The text up to the brace that closes the outermost of `inner + 1` open ones, and the text after
that brace. -/
def closeBrace (inner : Nat) : List Char → Option (List Char × List Char)
  | [] => none
  | c :: rest =>
    if c = '\x7b' then (closeBrace (inner + 1) rest).map fun (body, after) => (c :: body, after)
    else if c = '\x7d' then
      match inner with
      | 0 => some ([], rest)
      | inner + 1 => (closeBrace inner rest).map fun (body, after) => (c :: body, after)
    else (closeBrace inner rest).map fun (body, after) => (c :: body, after)

theorem closeBrace_length {inner : Nat} {cs body after : List Char}
    (h : closeBrace inner cs = some (body, after)) : after.length < cs.length := by
  induction cs generalizing inner body after with
  | nil => simp [closeBrace] at h
  | cons c rest ih =>
    have step {k : Nat} (h : (closeBrace k rest).map (fun (b, a) => (c :: b, a)) = some (body, after)) :
        after.length < (c :: rest).length := by
      obtain ⟨⟨b, a⟩, hb, heq⟩ := Option.map_eq_some_iff.1 h
      obtain ⟨_, rfl⟩ := Prod.mk.inj heq
      exact Nat.lt_succ_of_lt (ih hb)
    unfold closeBrace at h
    split at h
    · exact step h
    · split at h
      · split at h
        · obtain ⟨_, rfl⟩ := Prod.mk.inj (Option.some.inj h)
          simp
        · exact step h
      · exact step h

/-- Splits a text into its parts. -/
def split : List Char → List Piece
  | [] => []
  | [c] => [.plain c]
  | c :: d :: tail =>
    if c = '$' ∧ d = '\x7b' then
      match _h : closeBrace 0 tail with
      | none => [.openHole (String.ofList (c :: d :: tail))]
      | some (body, after) => .hole (String.ofList body) :: split after
    else if c = '$' ∧ Text.isWordStart d then
      .reference (String.ofList (d :: tail.takeWhile Text.isWordChar)) ::
        split (tail.dropWhile Text.isWordChar)
    else .plain c :: split (d :: tail)
termination_by cs => cs.length
decreasing_by
  · have := closeBrace_length _h
    simp only [List.length_cons]
    omega
  · have := (List.dropWhile_suffix (l := tail) Text.isWordChar).length_le
    simp only [List.length_cons]
    omega
  · simp

end Piece

/-- A template under construction: its text, the names it refers to in order of first use, and the
expressions of its holes. -/
structure Template where
  text : String := ""
  names : List String := []
  holes : List Expr := []

namespace Template

/-- Adds the parts of a text, `read` giving the expression of a hole. -/
def extend (read : String → Except SyntaxCause Expr) (t : Template) :
    List Piece → Except SyntaxCause Template
  | [] => .ok t
  | .plain c :: rest => extend read { t with text := t.text.push c } rest
  | .reference name :: rest =>
    let names := if name ∈ t.names then t.names else t.names ++ [name]
    extend read { t with text := t.text ++ "$" ++ name, names } rest
  | .hole body :: rest =>
    match read body with
    | .error cause => .error cause
    | .ok e =>
      extend read
        { t with text := t.text ++ placeholder t.holes.length, holes := t.holes ++ [e] } rest
  | .openHole rest :: _ => .error (.openHole rest)

/-- The template of a text. -/
def ofText (read : String → Except SyntaxCause Expr) (text : String) :
    Except SyntaxCause Template :=
  extend read {} (Piece.split text.toList)

/-- No reference and no hole. -/
def isPlain (t : Template) : Bool :=
  t.names.isEmpty && t.holes.isEmpty

end Template

end Sable
