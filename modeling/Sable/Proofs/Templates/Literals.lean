import Sable.Proofs.Printing.Levels
import Sable.Proofs.Reading.Statements
import Sable.Proofs.Scanning.Tiling
import Sable.Session

/-!
# Every text can be written

`Token.literal`: a text between double quotes, with a backslash before each quote and each backslash. It
is a single token that stands for the text. If the text `IsPlain`, no dollar sign begins a reference or
an expression, and the value of the literal is the text.
-/

namespace Sable

/-- Of any two characters next to each other the second does not begin a reference or an expression
where the first is a dollar sign. -/
def Text.IsPlain (text : String) : Prop :=
  ∀ p ∈ text.toList.zip text.toList.tail, p.1 = '$' → isWordStart p.2 = false ∧ p.2 ≠ '\x7b'

namespace Token

/-- A text as it is written between quotes. -/
def escape : List Char → List Char
  | [] => []
  | c :: rest => if c = '\\' ∨ c = '"' then '\\' :: c :: escape rest else c :: escape rest

/-- A text as a literal. -/
def literal (text : String) : String :=
  String.ofList ('"' :: escape text.toList ++ ['"'])

theorem unescape_escape (cs : List Char) : unescape (escape cs) = cs := by
  induction cs with
  | nil => rfl
  | cons c rest ih =>
    unfold escape
    split
    · rename_i hc
      rcases hc with rfl | rfl <;> simp [unescape, ih]
    · rename_i hc
      have hback : c ≠ '\\' := fun h => hc (.inl h)
      rw [unescape, ih]
      · exact fun _ h => absurd h hback
      · exact fun _ h => absurd h hback

/-- The quote that closes a literal is the first that no backslash stands in front of. -/
theorem quoteEnd_escape (cs rest : List Char) :
    Lexeme.quoteEnd (escape cs ++ '"' :: rest) = some ((escape cs).length + 1) := by
  induction cs with
  | nil => rfl
  | cons c cs ih =>
    unfold escape
    split
    · rename_i hc
      simp only [List.cons_append, Lexeme.quoteEnd, ih, List.length_cons, Option.map_some]
      congr 1
      omega
    · rename_i hc
      rw [List.cons_append, Lexeme.quoteEnd, ih, List.length_cons, Option.map_some]
      · congr 1
        omega
      all_goals intros; subst_vars; exact hc (by simp)

/-- No kind that is tried before texts takes a quote. -/
theorem firstMatch_literal (text : String) :
    firstMatch Kind.written (literal text).toList = some (.text, (literal text).toList.length) := by
  have hreach : Kind.text.reach (literal text).toList = (literal text).toList.length := by
    have hend := quoteEnd_escape text.toList []
    simp only [Kind.reach, literal, String.toList_ofList, List.cons_append, Lexeme.text, hend,
      List.length_cons, List.length_append, List.length_nil]
    omega
  have hpos : 0 < Kind.text.reach (literal text).toList := by
    rw [hreach]
    simp [literal]
  have hbefore : ∀ kind ∈ [Kind.newline, .space, .comment, .number],
      kind.reach (literal text).toList = 0 := by
    intro kind hkind
    simp only [literal, String.toList_ofList, List.cons_append]
    simp only [List.mem_cons, List.not_mem_nil, or_false] at hkind
    rcases hkind with rfl | rfl | rfl | rfl <;> rfl
  have hsplit : Kind.written = [Kind.newline, .space, .comment, .number] ++ .text ::
      Kind.written.drop 5 := rfl
  rw [firstMatch_of_split hsplit hbefore hpos, hreach]

/-- The token that a literal is. -/
def ofLiteral (text : String) : Token :=
  ⟨.text, text, ⟨.start, Loc.start.after (literal text).toList⟩⟩

/-- The token behind a literal. -/
def behindLiteral (text : String) : Token :=
  endAt (Loc.start.after (literal text).toList)

theorem scan_literal (text : String) :
    scan Kind.written (literal text) = .ok [ofLiteral text, behindLiteral text] := by
  have hmatch := firstMatch_literal text
  have htext : textOf .text (literal text).toList = text := by
    simp [textOf, literal, unescape_escape]
  generalize hcs : (literal text).toList = cs at hmatch htext
  cases cs with
  | nil => simp [literal] at hcs
  | cons c rest =>
    rw [scan, hcs, scanFrom_cons hmatch, List.take_length, List.drop_length, htext, scanFrom]
    rw [ofLiteral, behindLiteral, hcs]
    rfl

/-- A literal stands on no depth and opens no block. -/
theorem tokenize_literal (text : String) :
    tokenize (literal text) = .ok [ofLiteral text, behindLiteral text] := by
  rw [tokenize, tokenizeWith, scan_literal]
  rfl

end Token

/-! ### Reading a literal -/

namespace Text.IsPlain

variable {text : String} (h : IsPlain text)
include h

/-- All its characters are plain. -/
theorem split_eq : Piece.split text.toList = text.toList.map .plain := by
  unfold IsPlain at h
  generalize text.toList = cs at h
  induction cs with
  | nil =>
    rw [Piece.split]
    rfl
  | cons c rest ih =>
    cases rest with
    | nil =>
      rw [Piece.split]
      rfl
    | cons d after =>
      have hnext : c = '$' → isWordStart d = false ∧ d ≠ '\x7b' := h (c, d) List.mem_cons_self
      have htail := ih fun p hp => h p (List.mem_cons_of_mem _ hp)
      rw [Piece.split, if_neg fun hc => (hnext hc.1).2 hc.2, if_neg, htail]
      · rfl
      · rintro ⟨hc, hd⟩
        rw [(hnext hc).1] at hd
        cases hd

omit h in
theorem extend_plain (read : String → Except SyntaxCause Expr) (cs : List Char) (t : Template) :
    t.extend read (cs.map .plain) = .ok { t with text := t.text ++ String.ofList cs } := by
  induction cs generalizing t with
  | nil => simp [Template.extend]
  | cons c rest ih =>
    rw [List.map_cons, Template.extend, ih]
    congr 2
    exact String.toList_injective (by simp)

theorem readLiteral_eq (span : Span) : readLiteral text span = .ok (.text text [] [] span) := by
  have htemplate (read : String → Except SyntaxCause Expr) :
      Template.ofText read text = .ok ⟨text, [], []⟩ := by
    rw [Template.ofText, h.split_eq, extend_plain]
    simp
  rw [readLiteral, readText, htemplate]

/-- A literal alone is a program of one statement. -/
theorem parse_eq (file : String) : Program.parse file (Token.literal text) =
    .ok ⟨file, [.expr (.text text [] [] (Token.ofLiteral text).span)]⟩ := by
  let start : Cursor :=
    ⟨(Token.ofLiteral text).span, [Token.ofLiteral text, Token.behindLiteral text]⟩
  let stop : Cursor := ⟨(Token.ofLiteral text).span, [Token.behindLiteral text]⟩
  let e : Expr := .text text [] [] (Token.ofLiteral text).span
  have hprimary : Parser.primary readLiteral (Parser.expression readLiteral 1) 1 true start =
      .ok (e, stop) := by
    have hkind : start.here.kind = .text := rfl
    have hread : readLiteral start.here.text start.here.span = .ok e := h.readLiteral_eq _
    simp only [Parser.primary, Parser.peek_bind, hkind, Parser.next_bind, hread]
    rfl
  have hexpr : Reader.expr 2 true start = .ok (e, stop) :=
    Parser.expression_of_primary hprimary rfl rfl
  have hstatement : Reader.statement 3 [] ⟨start, 0, []⟩ = .ok (.expr e, ⟨stop, 0, []⟩) := by
    show (liftM (Reader.expr 2 true) >>= fun e => pure (.expr e) : Reader Stmt) _ = _
    exact bind_eq_ok.2 ⟨e, ⟨stop, 0, []⟩, lift_eq_ok.2 ⟨stop, hexpr, rfl⟩, rfl⟩
  have hprogram : Reader.program 3 ⟨start, 0, []⟩ = .ok ([.expr e], ⟨stop, 0, []⟩) := by
    show (Reader.statement 3 [] >>= fun first => Reader.statementsUntil .endOfFile
      (Reader.statement 3 []) 2 >>= fun rest => pure (first :: rest) : Reader (List Stmt)) _ = _
    exact bind_eq_ok.2 ⟨.expr e, ⟨stop, 0, []⟩, hstatement, rfl⟩
  rw [Program.parse, Token.tokenize_literal]
  dsimp only
  have hread : Program.ofTokens file [Token.ofLiteral text, Token.behindLiteral text] =
      .ok ⟨file, [.expr e]⟩ := Program.ofTokens_eq_ok.2 ⟨rfl, _, hprogram⟩
  rw [hread]
  rfl

end Text.IsPlain

/-- A text in quotes, with its quotes and backslashes escaped, is one token that stands for the
text, and a program whose value is the text in every session, provided that no dollar sign in the
text begins a reference or an expression. -/
theorem Token.literal_denotes {text : String} (h : Text.IsPlain text) :
    Token.scan Kind.written (Token.literal text) =
        .ok [Token.ofLiteral text, Token.behindLiteral text] ∧
      (Token.ofLiteral text).kind = .text ∧ (Token.ofLiteral text).text = text ∧
      (Token.behindLiteral text).kind = .endOfFile ∧
      ∀ file, ∃ p, Program.parse file (Token.literal text) = .ok p ∧
        ∀ (s : Session) (cfg : Config) (fuel : Nat), 2 ≤ fuel →
          ∃ s', s.run cfg fuel p = some (.ok (.text text), s') := by
  refine ⟨scan_literal text, rfl, rfl, rfl, fun file => ⟨_, h.parse_eq file, ?_⟩⟩
  intro s cfg fuel hfuel
  obtain ⟨fuel, rfl⟩ := Nat.exists_eq_add_of_le' hfuel
  exact ⟨_, rfl⟩

/-- A backslash and a quote, dollar signs in front of a blank and a digit, a new line, and a dollar
sign at the end. -/
theorem Token.oddText_denotes :
    Token.literal "\\\"$ $5\n$" = "\"\\\\\\\"$ $5\n$\"" ∧
      ∃ p, Program.parse "t.sbl" (Token.literal "\\\"$ $5\n$") = .ok p ∧
        ∃ s', Session.start.run ⟨"t.sbl", {}, 0⟩ Session.ample p =
          some (.ok (.text "\\\"$ $5\n$"), s') := by
  have hplain : Text.IsPlain "\\\"$ $5\n$" := by
    unfold Text.IsPlain
    simp only [String.toList]
    decide
  obtain ⟨-, -, -, -, hparse⟩ := Token.literal_denotes hplain
  obtain ⟨p, hp, hrun⟩ := hparse "t.sbl"
  exact ⟨rfl, p, hp, hrun _ _ _ (by decide)⟩

end Sable
