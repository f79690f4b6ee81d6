import Sable.Token
import Sable.Token.Lexeme
import Sable.Token.LexError

/-!
# Cutting a source into tokens

At each point the kinds are tried in a given order and the first that takes a character wins. The
tokens tile the source, trivia included, and one token for the end of the file follows them.
-/

namespace Sable

/-- What passes a test is there to be tested. -/
theorem exists_of_toOption_any {ε α : Type} {x : Except ε α} {test : α → Bool}
    (h : x.toOption.any test = true) : ∃ a, x = .ok a ∧ test a = true := by
  cases x with
  | error e => cases h
  | ok a => exact ⟨a, rfl, h⟩

/-- The kinds that can be written, in the order in which they are tried: reserved words before
identifiers, and long signs before the short ones they begin with. -/
def Kind.written : List Kind :=
  [.newline, .space, .comment, .number, .text] ++ Keyword.all.map .keyword ++ [.identifier] ++
    Symbol.all.map .symbol

namespace Token

/-- What stands between the quotes of a text: a backslash hides a quote or a backslash after it and
stays as it is before anything else. -/
def unescape : List Char → List Char
  | [] => []
  | '\\' :: '"' :: rest => '"' :: unescape rest
  | '\\' :: '\\' :: rest => '\\' :: unescape rest
  | c :: rest => c :: unescape rest

/-- The text a token carries, given the characters it was cut from. -/
def textOf (kind : Kind) (lexeme : List Char) : String :=
  match kind with
  | .text => String.ofList (unescape (lexeme.drop 1).dropLast)
  | _ => String.ofList lexeme

/-- The first kind of the list that makes a token at the head of the text, with the token's
length. -/
def firstMatch (kinds : List Kind) (cs : List Char) : Option (Kind × Nat) :=
  (kinds.find? fun kind => 0 < kind.reach cs).map fun kind => (kind, kind.reach cs)

theorem firstMatch_pos {kinds : List Kind} {cs : List Char} {kind : Kind} {n : Nat}
    (h : firstMatch kinds cs = some (kind, n)) : 0 < n := by
  unfold firstMatch at h
  obtain ⟨k, hk, heq⟩ := Option.map_eq_some_iff.1 h
  obtain ⟨rfl, rfl⟩ := Prod.mk.inj heq
  simpa using List.find?_some hk

/-- Cuts the text, which stands at the given location, into tokens. -/
def scanFrom (kinds : List Kind) (loc : Loc) (cs : List Char) : Except LexError (List Token) :=
  match cs with
  | [] => .ok [endOfFile ⟨⟨loc.line, -1, loc.offset⟩, ⟨loc.line, -1, loc.offset⟩⟩]
  | c :: rest =>
    match _h : firstMatch kinds (c :: rest) with
    | none => .error (.unexpected c loc)
    | some (kind, n) =>
      let lexeme := (c :: rest).take n
      let stop := loc.after lexeme
      match scanFrom kinds stop ((c :: rest).drop n) with
      | .ok tokens => .ok (⟨kind, textOf kind lexeme, ⟨loc, stop⟩⟩ :: tokens)
      | .error e => .error e
termination_by cs.length
decreasing_by
  have := firstMatch_pos _h
  simp only [List.length_drop, List.length_cons]
  omega

/-- Cuts a whole source, with the kinds tried in the order given. -/
def scan (kinds : List Kind) (source : String) : Except LexError (List Token) :=
  scanFrom kinds .start source.toList

end Token

end Sable
