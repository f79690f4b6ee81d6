import Sable.Proofs.Templates.Reading
import Sable.Proofs.Termination.Statements

/-!
# Sources terminate

`RepetitionsEnd`, `RulesEnd` and `TokensEnd`: a list of tokens is read to a program or to an error as
with any larger budget. Literals inside literals have shorter texts, so that reading them terminates too
(`literalRound`).
-/

namespace Sable

open Sable.Parser

/-! ### Literals in one another -/

theorem Template.extend_congr {read read' : String → Except SyntaxCause Expr} :
    ∀ {pieces : List Piece} {t : Template},
      (∀ body, .hole body ∈ pieces → read body = read' body) →
      t.extend read pieces = t.extend read' pieces
  | [], _, _ => rfl
  | .plain _ :: _, _, hread => by
    rw [extend, extend]
    exact extend_congr fun body hb => hread body (.tail _ hb)
  | .reference _ :: _, _, hread => by
    rw [extend, extend]
    exact extend_congr fun body hb => hread body (.tail _ hb)
  | .hole body :: _, _, hread => by
    rw [extend, extend, ← hread body List.mem_cons_self]
    cases read body with
    | error cause => rfl
    | ok e => exact extend_congr fun body hb => hread body (.tail _ hb)
  | .openHole _ :: _, _, _ => rfl

theorem distance_lt_length {c : Cursor} (h : ∃ t ∈ c.rest, t.kind = .endOfFile) :
    distance c < c.rest.length := by
  obtain ⟨t, ht, hk⟩ := h
  have hfront := List.takeWhile_prefix (l := c.rest) (·.kind ≠ .endOfFile)
  refine Nat.lt_of_le_of_ne hfront.length_le fun heq => ?_
  have hall := List.all_takeWhile (l := c.rest) (p := (·.kind ≠ .endOfFile))
  rw [hfront.eq_of_length heq, List.all_eq_true] at hall
  simpa [hk] using hall t ht

/-- A text that a source holds is no longer than the source. -/
theorem Token.text_length_le {source : String} {tokens : List Token}
    (h : Token.tokenize source = .ok tokens) :
    ∀ t ∈ tokens, t.kind = .text → t.text.length ≤ source.length := by
  intro t ht hk
  obtain ⟨raw, hraw, hmem⟩ := Layout.mem_tokenize h
  rcases hmem t ht with ⟨ht, -⟩ | ⟨-, htext⟩
  · exact Token.length_text_le hraw t ht (by rw [hk]; decide)
  · rw [htext]
    exact Nat.zero_le _

/-- An expression in a literal is the same for readers that do the same with texts of its length. -/
theorem readHole_congr {reader reader' : TextReader} {body : String}
    (h : ∀ text span, text.length ≤ body.length → reader text span = reader' text span) :
    readHole reader body = readHole reader' body := by
  unfold readHole
  split
  · rfl
  · cases htokens : Token.tokenize body with
    | error e => rfl
    | ok tokens =>
      have hlt := distance_lt_length (Cursor.exists_endOfFile tokens)
      have hsame := coincide_wholeExpression
        (A := fun t => t.kind = .text → reader t.text t.span = reader' t.text t.span)
        (fun _ ha hk => ha hk) (Nat.le_refl _) (Nat.le_refl _) (Cursor.ofTokens tokens)
        (fun t ht hk => h _ _ (Token.text_length_le htokens t
          (Cursor.mem_of_mem_ofTokens ht (by rw [hk]; decide)) hk)) trivial hlt
      dsimp only
      rw [hsame.1]

/-- Reads a literal, `reader` reading those in it. -/
def literalRound (reader : TextReader) : TextReader := fun text span =>
  match Template.ofText (readHole reader) text with
  | .ok t => .ok (.text t.text t.names t.holes span)
  | .error cause => .error ⟨cause, span⟩

theorem literalRound_congr {reader reader' : TextReader} {text : String} {span : Span}
    (h : ∀ inner span, inner.length < text.length → reader inner span = reader' inner span) :
    literalRound reader text span = literalRound reader' text span := by
  have hofText :
      Template.ofText (readHole reader) text = Template.ofText (readHole reader') text := by
    refine Template.extend_congr fun body hbody => readHole_congr fun inner span hinner => ?_
    have hshort := Piece.length_of_mem_split hbody
    rw [String.length_toList] at hshort
    exact h inner span (by omega)
  rw [literalRound, literalRound, hofText]

/-- The depth allowed for literals in one another makes no difference, not even to the errors, if it
is more than the length of the text. -/
theorem readText_eq : ∀ {d d' : Nat} {text : String} {span : Span}, text.length < d →
    text.length < d' → readText d text span = readText d' text span
  | d + 1, d' + 1, text, span, hd, hd' => by
    show literalRound (readText d) text span = literalRound (readText d') text span
    exact literalRound_congr fun inner span hinner => readText_eq (by omega) (by omega)

/-- Only one reader reads a literal by reading those in it. -/
theorem literalRound_unique (reader : TextReader) :
    (∀ text span, reader text span = literalRound reader text span) ↔ reader = readLiteral := by
  constructor
  · intro h
    have hlength : ∀ n text span, text.length < n → reader text span = readLiteral text span := by
      intro n
      induction n with
      | zero => exact fun _ _ hn => absurd hn (Nat.not_lt_zero _)
      | succ n ih =>
        intro text span hn
        rw [h text span]
        refine literalRound_congr fun inner span hinner => ?_
        rw [ih inner span (by omega)]
        exact readText_eq (Nat.lt_succ_self _) hinner
    exact funext fun text => funext fun span => hlength _ text span (Nat.lt_succ_self _)
  · rintro rfl text span
    show literalRound (readText text.length) text span = _
    exact literalRound_congr fun inner span hinner => readText_eq hinner (Nat.lt_succ_self _)

/-! ### Repetitions, rules and sources -/

/-- The repetitions of the grammar come to an end wherever fewer than `m` tokens are ahead, if what
they repeat reads as much as they rely on. -/
structure RepetitionsEnd (m : Nat) : Prop where
  lists : ∀ {α : Type} (close : Kind) (item : Parser α), Consuming 1 m item →
    Terminates m (fun b (_ : Unit) => listUntil close item b)
      (fun _ rest _ => listRound close item (rest ()))
  commas : ∀ {α : Type} (item : Parser α), Consuming 1 m item →
    Terminates m (fun b (_ : Unit) => commaList item b)
      (fun _ rest _ => commaRound item (rest ()))
  unions : ∀ member : Parser TypeExpr, Consuming 0 m member →
    Terminates m (fun b (_ : Unit) => unionTail member b)
      (fun _ rest _ => unionRound member (rest ()))
  brackets : Terminates m Parser.brackets (fun _ => bracketsRound)
  tiers : ∀ (operators : List (Kind × BinaryOp)) (operand : Parser Expr), Consuming 1 m operand →
    Terminates m (tierTail operand operators) (fun _ => tierRound operand operators)
  powers : ∀ operand : Parser Expr, Consuming 1 m operand →
    Terminates m (fun b (_ : Unit) => Parser.powers operand b)
      (fun _ rest _ => powersRound operand (rest ()))
  signs : ∀ operand : Parser Expr, Consuming 1 m operand →
    Terminates m (fun b (_ : Unit) => signed operand b)
      (fun _ rest _ => signedRound operand (rest ()))
  members : ∀ nested : Bool → Parser Expr, Consuming 1 m (nested true) →
    Terminates m (Parser.members nested) (membersRound nested)
  properties : ∀ nested : Bool → Parser Expr, Consuming 0 m (nested true) →
    Terminates m (fun b (_ : Unit) => Parser.properties nested b)
      (fun _ rest _ => propertiesRound nested (rest ()))
  statements : ∀ (close : Kind) (statement : Reader Stmt), Consuming 1 m statement →
    Terminates m (fun b (_ : Unit) => Reader.statementsUntil close statement b)
      (fun _ rest _ => Reader.statementsRound close statement (rest ()))
  items : ∀ {α : Type} (close : Kind) (item : Reader α), Consuming 1 m item →
    Terminates m (fun b (_ : Unit) => Reader.itemsUntil close item b)
      (fun _ rest _ => Reader.itemsRound close item (rest ()))
  branches : ∀ (statement : Reader Stmt) (bound : Nat), Consuming 0 m (Reader.condition bound) →
    Consuming 0 m (Reader.block statement bound) →
    Terminates m (fun b (_ : Unit) => Reader.elseTail statement bound b)
      (fun _ rest _ => Reader.elseRound (Reader.condition bound) (Reader.block statement bound)
        (rest ()))

theorem repetitionsEnd (m : Nat) : RepetitionsEnd m where
  lists _ _ := terminates_listUntil
  commas _ := terminates_commaList
  unions _ := terminates_unionTail
  brackets := terminates_brackets
  tiers operators _ := terminates_tierTail operators
  powers _ := terminates_powers
  signs _ := terminates_signed
  members _ := terminates_members
  properties _ := terminates_properties
  statements _ _ := Reader.terminates_statementsUntil
  items _ _ := Reader.terminates_itemsUntil
  branches _ _ := Reader.terminates_elseTail

/-- The rules that stand inside themselves come to an end wherever fewer than `m` tokens are ahead.
Each reads a token at least, and none that ends the file. -/
structure RulesEnd (m : Nat) : Prop where
  types : Terminates m (fun b (_ : Unit) => typeExpr b) (fun b rule _ => unionType (rule ()) b)
  expressions : ∀ reader,
    Terminates m (expression reader) (fun b rule => assignment reader rule b)
  statements : Terminates m (fun b => Reader.statement (b + 1))
    (fun b rule => Reader.statementWith rule (b + 1))
  types_read : ∀ b, m ≤ b → Consuming 1 m (typeExpr b)
  expressions_read : ∀ reader b objects, m ≤ b → Consuming 1 m (expression reader b objects)
  statements_read : ∀ b loops, m ≤ b → Consuming 1 m (Reader.statement (b + 1) loops)

theorem rulesEnd (m : Nat) : RulesEnd m where
  types := terminates_typeExpr
  expressions reader := terminates_expression reader m
  statements := Reader.terminates_statement
  types_read _ hb := (coincide_typeExpr hb hb).consuming
  expressions_read _ _ _ hb := (coincide_expression (fun _ _ _ => rfl) hb hb).consuming
  statements_read _ loops hb := (Reader.coincide_statement hb hb loops).consuming

/-- Programs and expressions are read from these tokens as with any budget that exceeds the number
of tokens in front of the end of the file. There is such an end, and a program is read up to it. -/
structure TokensEnd (file : String) (tokens : List Token) : Prop where
  ended : ∃ t ∈ (Cursor.ofTokens tokens).rest, t.kind = .endOfFile
  program : ∀ b, distance (Cursor.ofTokens tokens) < b → Program.ofTokens file tokens =
    (Reader.program (b + 1) ⟨Cursor.ofTokens tokens, 0, []⟩).map fun r => ⟨file, r.1⟩
  expression : ∀ b, distance (Cursor.ofTokens tokens) < b → Expr.ofTokens tokens =
    (wholeExpression readLiteral b (Cursor.ofTokens tokens)).map (·.1)
  stops : ∀ b, distance (Cursor.ofTokens tokens) < b → ∀ body t,
    Reader.program (b + 1) ⟨Cursor.ofTokens tokens, 0, []⟩ = .ok (body, t) →
      t.cursor.here.kind = .endOfFile ∧ ∃ used,
        (Cursor.ofTokens tokens).rest = used ++ t.cursor.rest ∧ ∀ x ∈ used, x.kind ≠ .endOfFile

theorem tokensEnd (file : String) (tokens : List Token) : TokensEnd file tokens := by
  have hended := Cursor.exists_endOfFile tokens
  have hlt := distance_lt_length hended
  have hprogram (b : Nat) (hb : distance (Cursor.ofTokens tokens) < b) :=
    Reader.coincide_program (A := fun _ => True) hlt hb ⟨Cursor.ofTokens tokens, 0, []⟩
      (fun _ _ => trivial) trivial (Nat.lt_succ_self _)
  refine ⟨hended, fun b hb => ?_, fun b hb => ?_, fun b hb body t ht => ⟨?_, ?_⟩⟩
  · rw [Program.ofTokens, (hprogram b hb).1]
    cases Reader.program (b + 1) ⟨Cursor.ofTokens tokens, 0, []⟩ <;> rfl
  · have hsame : Coincide (fun _ => True) 1 _ (wholeExpression readLiteral _)
        (wholeExpression readLiteral b) := coincide_wholeExpression (fun _ _ _ => rfl) hlt hb
    rw [Expr.ofTokens, (hsame (Cursor.ofTokens tokens) (fun _ _ => trivial) trivial
      (Nat.lt_succ_self _)).1]
    cases wholeExpression readLiteral b (Cursor.ofTokens tokens) <;> rfl
  · rw [← (hprogram b hb).1] at ht
    have hends := Reader.statementsUntil_ends (Reader.advances_statement _ [])
      (Nat.lt_succ_self (Cursor.ofTokens tokens).rest.length) ht
    exact hends.elim id id
  · rw [← (hprogram b hb).1] at ht
    obtain ⟨used, hused, -, hends⟩ := (hprogram b hb).2 body t ht
    exact ⟨used, hused, hends⟩

/-- The head of a generic instance is read, or nothing is. -/
theorem genericHead?_eq (b : Nat) (c : Cursor) :
    ∃ head c', genericHead? b c = .ok (head, c') ∧ (head = none ↔ c' = c) := by
  unfold genericHead?
  cases hhead : genericHead b c with
  | error e => exact ⟨none, c, rfl, by simp⟩
  | ok x =>
    refine ⟨some x.1, x.2, rfl, by simp, fun heq => ?_⟩
    have hlt := Advances.length_lt (advances_genericHead b c) hhead
    rw [heq] at hlt
    exact absurd hlt (Nat.lt_irrefl _)

/-- Whatever the tokens are, they are read to a result by rules that come to an end of their own
accord; the same holds of texts, and of the literals in them. -/
theorem frontend_ends (m : Nat) (file : String) (tokens : List Token) (text : String) :
    RepetitionsEnd m ∧ RulesEnd m ∧ TokensEnd file tokens ∧
    (∀ b c, ∃ head c', genericHead? b c = .ok (head, c') ∧ (head = none ↔ c' = c)) ∧
    ((∃ e, Token.tokenize text = .error e ∧ Program.parse file text = .error (.lexical e)) ∨
      ∃ tokens, Token.tokenize text = .ok tokens ∧
        Program.parse file text = (Program.ofTokens file tokens).mapError .grammatical) ∧
    (∀ reader : TextReader,
      (∀ text span, reader text span = literalRound reader text span) ↔ reader = readLiteral) ∧
    ∀ body, .hole body ∈ Piece.split text.toList → body.length < text.length ∧
      ∀ inner, Token.tokenize body = .ok inner →
        ∀ t ∈ inner, t.kind = .text → t.text.length < text.length := by
  refine ⟨repetitionsEnd m, rulesEnd m, tokensEnd file tokens, genericHead?_eq, ?_,
    literalRound_unique, fun body hbody => ?_⟩
  · unfold Program.parse
    cases Token.tokenize text with
    | error e => exact .inl ⟨e, rfl, rfl⟩
    | ok tokens => exact .inr ⟨tokens, rfl, rfl⟩
  · have hshort := Piece.length_of_mem_split hbody
    rw [String.length_toList] at hshort
    refine ⟨by omega, fun inner hinner t ht hk => ?_⟩
    have := Token.text_length_le hinner t ht hk
    omega

end Sable
