import Mathlib.Data.List.TakeWhile
import Sable.Proofs.Spans.Names
import Sable.Proofs.Termination.Sources

/-!
# A literal is split without loss

A text has exactly one split with `Piece.Parts`. Reading a literal follows it piece by piece, and fails
only where the text behind a brace is `Unreadable`: the brace is never closed, or the text up to the
closing brace is no expression.
-/

namespace Sable

namespace Piece

/-- Why nothing can be read from the text behind an opening brace: no brace balances it, or the text
up to the one that does is blank, cannot be cut into tokens, or is no expression. -/
inductive Unreadable (rest : List Char) : SyntaxCause → Prop
  | unbalanced (h : ∀ body after, rest = body ++ '\x7d' :: after → braces 0 body ≠ some 0) :
      Unreadable rest (.openHole (String.ofList ('$' :: '\x7b' :: rest)))
  | blank {body after : List Char} (hrest : rest = body ++ '\x7d' :: after)
      (hbody : braces 0 body = some 0) (h : Text.allBlank body) : Unreadable rest .emptyHole
  | uncut {body after : List Char} {e : LexError} (hrest : rest = body ++ '\x7d' :: after)
      (hbody : braces 0 body = some 0) (h : Token.tokenize (String.ofList body) = .error e) :
      Unreadable rest (.unreadableHole e)
  | unread {body after : List Char} {tokens : List Token} {e : SyntaxError}
      (hrest : rest = body ++ '\x7d' :: after) (hbody : braces 0 body = some 0)
      (htokens : Token.tokenize (String.ofList body) = .ok tokens)
      (h : Expr.ofTokens tokens = .error e) : Unreadable rest (.brokenHole e.cause)

/-! ### There is one way to split a text -/

/-- What stands in front of the brace that is found balances. -/
theorem braces_of_closeBrace : ∀ {cs : List Char} {inner : Nat} {body after : List Char},
    closeBrace inner cs = some (body, after) → braces inner body = some 0
  | [], _, _, _, h => by cases h
  | c :: rest, inner, body, after, h => by
    have hstep {k : Nat} (h : (closeBrace k rest).map (fun p => (c :: p.1, p.2)) = some (body, after)) :
        ∃ b, body = c :: b ∧ braces k b = some 0 := by
      obtain ⟨⟨b, a⟩, hb, heq⟩ := Option.map_eq_some_iff.1 h
      obtain ⟨rfl, rfl⟩ := Prod.mk.inj heq
      exact ⟨b, rfl, braces_of_closeBrace hb⟩
    rw [closeBrace.eq_def] at h
    dsimp only at h
    split at h <;> rename_i hopen
    · obtain ⟨b, rfl, hb⟩ := hstep h
      rw [braces.eq_def]
      exact (if_pos hopen).trans hb
    · split at h <;> rename_i hclose
      · split at h
        · cases h
          rfl
        · obtain ⟨b, rfl, hb⟩ := hstep h
          rw [braces, if_neg hopen, if_pos hclose, hb]
      · obtain ⟨b, rfl, hb⟩ := hstep h
        rw [braces.eq_def]
        exact ((if_neg hopen).trans (if_neg hclose)).trans hb

theorem unbalanced_of_closeBrace {rest : List Char} (h : closeBrace 0 rest = none)
    (body after : List Char) (hrest : rest = body ++ '\x7d' :: after) : braces 0 body ≠ some 0 := by
  intro hbody
  rw [hrest, closeBrace_append after hbody] at h
  cases h

namespace Parts

variable {cs rest : List Char} {pieces front back : List Piece} {body : String}

theorem unique {pieces' : List Piece} (h : Parts cs pieces []) (h' : Parts cs pieces' []) :
    pieces' = pieces := by
  have heq := h'.split_eq.symm.trans h.split_eq
  rw [split, List.append_nil, List.append_nil] at heq
  exact heq

/-- No character is lost. -/
theorem written_eq (h : Parts cs pieces rest) : cs = pieces.flatMap written ++ rest := by
  induction h with
  | nil => rfl
  | plain _ _ ih =>
    rw [List.flatMap_cons, written, List.append_assoc, ← ih]
    rfl
  | reference _ _ _ _ ih =>
    rw [List.flatMap_cons, written, List.append_assoc, ← ih, String.toList_ofList]
    rfl
  | hole _ _ ih =>
    rw [List.flatMap_cons, written, List.append_assoc, ← ih, String.toList_ofList]
    simp

/-- What stands in front of an expression is split in the same way. -/
theorem before_hole (h : Parts cs (front ++ .hole body :: back) rest) : ∃ after,
    Parts cs front ('$' :: '\x7b' :: (body.toList ++ '\x7d' :: after)) ∧
      braces 0 body.toList = some 0 := by
  induction front generalizing cs with
  | nil =>
    cases h with
    | @hole body cs _ _ hbody _ =>
      rw [String.toList_ofList]
      exact ⟨cs, .nil, hbody⟩
  | cons piece front ih =>
    rw [List.cons_append] at h
    cases h with
    | plain hc h =>
      obtain ⟨after, hfront, hbody⟩ := ih h
      exact ⟨after, .plain hc hfront, hbody⟩
    | reference hc hword hnext h =>
      obtain ⟨after, hfront, hbody⟩ := ih h
      exact ⟨after, .reference hc hword hnext hfront, hbody⟩
    | hole hinner h =>
      obtain ⟨after, hfront, hbody⟩ := ih h
      exact ⟨after, .hole hinner hfront, hbody⟩

end Parts

/-- A text is split to its end, or up to a brace that is never closed. -/
theorem parts_split (cs : List Char) :
    Parts cs (split cs) [] ∨ ∃ pieces rest, Parts cs pieces ('$' :: '\x7b' :: rest) ∧
      closeBrace 0 rest = none ∧
      split cs = pieces ++ [.openHole (String.ofList ('$' :: '\x7b' :: rest))] := by
  -- the same part in front of both
  have hcons {cs cs' : List Char} {piece : Piece}
      (hpart : ∀ {pieces rest}, Parts cs' pieces rest → Parts cs (piece :: pieces) rest)
      (ih : Parts cs' (split cs') [] ∨ ∃ pieces rest, Parts cs' pieces ('$' :: '\x7b' :: rest) ∧
        closeBrace 0 rest = none ∧
        split cs' = pieces ++ [.openHole (String.ofList ('$' :: '\x7b' :: rest))]) :
      Parts cs (piece :: split cs') [] ∨ ∃ pieces rest, Parts cs pieces ('$' :: '\x7b' :: rest) ∧
        closeBrace 0 rest = none ∧
        piece :: split cs' = pieces ++ [.openHole (String.ofList ('$' :: '\x7b' :: rest))] := by
    rcases ih with h | ⟨pieces, rest, h, hopen, heq⟩
    · exact .inl (hpart h)
    · exact .inr ⟨piece :: pieces, rest, hpart h, hopen, by rw [heq, List.cons_append]⟩
  fun_induction split cs with
  | case1 => exact .inl .nil
  | case2 c => exact .inl (.plain (fun _ d hd => by cases hd) .nil)
  | case3 c d tail hopen hnone =>
    obtain ⟨rfl, rfl⟩ := hopen
    exact .inr ⟨[], tail, .nil, hnone, rfl⟩
  | case4 c d tail hopen body after hclose ih =>
    obtain ⟨rfl, rfl⟩ := hopen
    refine hcons (fun h => ?_) ih
    rw [closeBrace_eq_some hclose]
    exact .hole (braces_of_closeBrace hclose) h
  | case5 c d tail hopen hword ih =>
    obtain ⟨rfl, hstart⟩ := hword
    refine hcons (fun {pieces rest} h => ?_) ih
    have hall : ∀ x ∈ tail.takeWhile Text.isWordChar, Text.isWordChar x :=
      fun x hx => List.mem_takeWhile_imp hx
    have hnext : ∀ x ∈ (tail.dropWhile Text.isWordChar).head?, Text.isWordChar x = false := by
      intro x hx
      have hhead := List.head?_dropWhile_not Text.isWordChar tail
      rw [Option.mem_def.1 hx] at hhead
      exact hhead
    have hparts := Parts.reference hstart hall hnext h
    rwa [List.takeWhile_append_dropWhile] at hparts
  | case6 c d tail hopen hword ih =>
    refine hcons (.plain fun hc x hx => ?_) ih
    obtain rfl : d = x := Option.some.inj hx
    exact ⟨Bool.eq_false_iff.2 fun hstart => hword ⟨hc, hstart⟩, fun hd => hopen ⟨hc, hd⟩⟩

end Piece

/-! ### Reading follows the parts -/

/-- The text of an expression is read in a literal if and only if it is one on its own. -/
theorem readHole_readLiteral {body : String} {e : Expr} :
    readHole readLiteral body = .ok e ↔ Expr.parse body = .ok e := by
  rw [readHole_eq_ok, Expr.parse_eq_ok]
  constructor
  · rintro ⟨-, hread⟩
    exact hread
  · intro hread
    exact ⟨Expr.not_blank_of_parse (Expr.parse_eq_ok.2 hread), hread⟩

theorem readHole_error {body : String} {cause : SyntaxCause} {after : List Char}
    (hbraces : Piece.braces 0 body.toList = some 0) (h : readHole readLiteral body = .error cause) :
    Piece.Unreadable (body.toList ++ '\x7d' :: after) cause := by
  unfold readHole at h
  split at h
  · rename_i hblank
    cases h
    exact .blank rfl hbraces hblank
  · split at h
    · rename_i e he
      cases h
      exact .uncut rfl hbraces (by rwa [String.ofList_toList])
    · rename_i tokens htokens
      dsimp only at h
      split at h
      · cases h
      · rename_i e he
        cases h
        have hexpr : Expr.ofTokens tokens = .error e := by
          rw [Expr.ofTokens, he]
        exact .unread rfl hbraces (by rwa [String.ofList_toList]) hexpr

open Piece in
/-- A text literal that can be read is split in one way, and nothing of it is lost: the text of the
template is the literal with a placeholder for each expression, the expressions are those that the
texts in braces are on their own, in order, and the names are those referred to, each where it is
used first. A literal that cannot be read is split as far as the opening brace of an expression that
is not there. -/
theorem readLiteral_splits (raw : String) (span : Span) :
    match readLiteral raw span with
    | .ok e => ∃ pieces exprs, Piece.Parts raw.toList pieces [] ∧
        (∀ other, Piece.Parts raw.toList other [] → other = pieces) ∧ raw = source pieces ∧
        List.Forall₂ (fun body e => Expr.parse body = .ok e) (pieces.filterMap (·.hole?)) exprs ∧
        e = .text (String.ofList (marked 0 pieces)) (pieces.filterMap (·.reference?)).eraseDups exprs span
    | .error err => err.span = span ∧ ∃ pieces rest, Piece.Parts raw.toList pieces ('$' :: '\x7b' :: rest) ∧
        (∀ body ∈ pieces.filterMap (·.hole?), ∃ e, Expr.parse body = .ok e) ∧
        Unreadable rest err.cause := by
  have hround : readLiteral raw span = literalRound readLiteral raw span :=
    (literalRound_unique readLiteral).2 rfl raw span
  have hparsed {bodies : List String}
      (h : ∀ body ∈ bodies, ∃ e, readHole readLiteral body = .ok e) :
      ∀ body ∈ bodies, ∃ e, Expr.parse body = .ok e := by
    intro body hbody
    obtain ⟨e, he⟩ := h body hbody
    exact ⟨e, readHole_readLiteral.1 he⟩
  -- the first expression that cannot be read, wherever the parts end
  have hbroken {pieces front back : List Piece} {rest : List Char} {body : String}
      {cause : SyntaxCause} (hparts : Piece.Parts raw.toList pieces rest)
      (heq : pieces = front ++ .hole body :: back)
      (hfront : ∀ body ∈ front.filterMap (·.hole?), ∃ e, readHole readLiteral body = .ok e)
      (hbody : readHole readLiteral body = .error cause) :
      ∃ pieces rest, Piece.Parts raw.toList pieces ('$' :: '\x7b' :: rest) ∧
        (∀ body ∈ pieces.filterMap (·.hole?), ∃ e, Expr.parse body = .ok e) ∧
        Unreadable rest cause := by
    rw [heq] at hparts
    obtain ⟨after, hbefore, hbraces⟩ := hparts.before_hole
    exact ⟨front, _, hbefore, hparsed hfront, readHole_error hbraces hbody⟩
  rw [hround, literalRound, Template.ofText]
  rcases parts_split raw.toList with hparts | ⟨pieces, rest, hparts, hopen, hsplit⟩
  · have hread := hparts.extend (readHole readLiteral) [] [] {} rfl
    rw [List.append_nil] at hread
    rcases hread with ⟨exprs, hexprs, heq⟩ | ⟨front, body, back, cause, hpieces, hfront, hbody, heq⟩
    · rw [heq]
      have hsource : raw = source (split raw.toList) := by
        have hwritten := hparts.written_eq
        rw [List.append_nil] at hwritten
        rw [source, ← hwritten, String.ofList_toList]
      refine ⟨split raw.toList, exprs, hparts, fun other => hparts.unique, hsource, ?_, ?_⟩
      · exact hexprs.imp fun _ _ => readHole_readLiteral.1
      · simp
    · rw [heq]
      exact ⟨rfl, hbroken hparts hpieces hfront hbody⟩
  · rw [hsplit]
    rcases hparts.extend (readHole readLiteral) [.openHole (String.ofList ('$' :: '\x7b' :: rest))] []
      {} rfl with ⟨exprs, hexprs, heq⟩ | ⟨front, body, back, cause, hpieces, hfront, hbody, heq⟩
    · rw [heq]
      exact ⟨rfl, pieces, rest, hparts, hparsed (exists_read hexprs),
        .unbalanced (unbalanced_of_closeBrace hopen)⟩
    · rw [heq]
      exact ⟨rfl, hbroken hparts hpieces hfront hbody⟩

end Sable
