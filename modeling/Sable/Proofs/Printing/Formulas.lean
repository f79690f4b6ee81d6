import Sable.Program

/-!
# Formulas and their words

A `Formula` is an expression of names, numbers, operators, members, calls, arrays and assignments
without places. `Formula.words` gives the kinds and texts of its tokens, with parentheses around a part
exactly where its `level` is below what its position asks for (`atLevel`).
-/

namespace Sable

/-! ### Decimal literals -/

namespace Number.Decimal

/-- The digits of a number, with enough zeros in front that one stands before its point. -/
def figures (d : Decimal) : List Char :=
  List.replicate (d.places + 1 - (Nat.toDigits 10 d.digits).length) '0' ++ Nat.toDigits 10 d.digits

def text (d : Decimal) : String :=
  let whole := d.figures.length - d.places
  if d.places = 0 then String.ofList d.figures
  else String.ofList (d.figures.take whole ++ '.' :: d.figures.drop whole)

variable (d : Decimal)

theorem isDigit_of_mem_figures : ∀ c ∈ d.figures, c.isDigit := by
  intro c hc
  rcases List.mem_append.1 hc with hc | hc
  · rw [List.eq_of_mem_replicate hc]
    rfl
  · exact Nat.isDigit_of_mem_toDigits (by decide) (by decide) hc

theorem lt_length_figures : d.places < d.figures.length := by
  have := Nat.length_toDigits_pos (b := 10) (n := d.digits)
  rw [figures, List.length_append, List.length_replicate]
  omega

theorem ofDigits_figures : ofDigits d.figures = d.digits := by
  have hzeros (n : Nat) :
      (List.replicate n '0').foldl (fun n c => n * 10 + (c.toNat - '0'.toNat)) 0 = 0 := by
    induction n with
    | zero => rfl
    | succ n ih => exact ih
  have hdigits := Nat.ofDigitChars_ten_toDigits (n := d.digits)
  rw [Nat.ofDigitChars] at hdigits
  rw [ofDigits, figures, List.foldl_append, hzeros]
  simpa only [Nat.mul_comm] using hdigits

theorem allDigits_of_sublist {cs : List Char} (hs : cs.Sublist d.figures) (hne : cs ≠ []) :
    allDigits cs := by
  rw [allDigits, Bool.and_eq_true, List.all_eq_true]
  refine ⟨by simpa using hne, fun c hc => ?_⟩
  exact d.isDigit_of_mem_figures c (hs.subset hc)

theorem ne_point_of_sublist {cs : List Char} (hs : cs.Sublist d.figures) :
    ∀ c ∈ cs, (c != '.') = true := by
  intro c hc
  have hdigit := d.isDigit_of_mem_figures c (hs.subset hc)
  rw [bne_iff_ne]
  rintro rfl
  cases hdigit

/-- A decimal literal reads back as the number that it was written for. -/
theorem ofText?_text : ofText? d.text = some d := by
  have hlt := d.lt_length_figures
  unfold ofText? text
  by_cases hp : d.places = 0
  · have hwhole := d.ne_point_of_sublist (List.Sublist.refl _)
    have hne : d.figures ≠ [] := List.ne_nil_of_length_pos (by omega)
    have hdrop : (d.figures ++ []).dropWhile (· != '.') = [] :=
      List.dropWhile_append_of_pos hwhole
    have htake : (d.figures ++ []).takeWhile (· != '.') = d.figures ++ [] :=
      List.takeWhile_append_of_pos hwhole
    rw [List.append_nil] at hdrop htake
    simp only [hp, if_true, String.toList_ofList, hdrop, htake,
      d.allDigits_of_sublist (List.Sublist.refl _) hne, d.ofDigits_figures]
    rw [← hp]
  -- there are more figures than places, so both sides of the point have some
  · have htake := List.take_sublist (d.figures.length - d.places) d.figures
    have hdrop := List.drop_sublist (d.figures.length - d.places) d.figures
    have hlength : (d.figures.drop (d.figures.length - d.places)).length = d.places := by
      rw [List.length_drop]
      omega
    have hne : d.figures.take (d.figures.length - d.places) ≠ [] := by
      refine List.ne_nil_of_length_pos ?_
      rw [List.length_take]
      omega
    have hne' : d.figures.drop (d.figures.length - d.places) ≠ [] :=
      List.ne_nil_of_length_pos (by omega)
    simp only [hp, if_false, String.toList_ofList,
      List.dropWhile_append_of_pos (d.ne_point_of_sublist htake),
      List.takeWhile_append_of_pos (d.ne_point_of_sublist htake), List.dropWhile_cons,
      List.takeWhile_cons, bne_self_eq_false, Bool.false_eq_true, List.append_nil,
      d.allDigits_of_sublist htake hne, d.allDigits_of_sublist hdrop hne', Bool.and_self, if_true,
      List.take_append_drop, d.ofDigits_figures, hlength]

end Number.Decimal

/-! ### Formulas -/

mutual

/-- What a value can be assigned to. -/
inductive Place where
  | name (text : String)
  | field (owner : Formula) (name : String)
  | index (owner key : Formula)

/-- An expression without the places where its parts stand. -/
inductive Formula where
  | place (place : Place)
  | number (value : Number.Decimal)
  | array (elements : List Formula)
  | call (callee : Formula) (args : List Formula)
  | unary (op : UnaryOp) (operand : Formula)
  | binary (op : BinaryOp) (left right : Formula)
  | assign (target : Place) (value : Formula)

end

mutual

/-- The formula of an expression, if it has no text and no object in it. -/
def Expr.formula? : Expr → Option Formula
  | .var name => some (.place (.name name.text))
  | .field owner name _ => return .place (.field (← owner.formula?) name.text)
  | .index owner key _ => return .place (.index (← owner.formula?) (← key.formula?))
  | .number value _ => some (.number value)
  | .array elements _ => return .array (← Expr.formulas? elements)
  | .call callee args _ => return .call (← callee.formula?) (← Expr.formulas? args)
  | .unary op operand _ => return .unary op (← operand.formula?)
  | .binary op left right => return .binary op (← left.formula?) (← right.formula?)
  | .assign target value => do
    match ← target.formula? with
    | .place place => return .assign place (← value.formula?)
    | _ => none
  | .text .. | .object .. | .member .. => none

def Expr.formulas? : List Expr → Option (List Formula)
  | [] => some []
  | e :: rest => return (← e.formula?) :: (← Expr.formulas? rest)

end

/-! ### Levels and words -/

/-- A token without its place: its kind and its text. -/
abbrev Word := Kind × String

def Token.word (t : Token) : Word :=
  (t.kind, t.text)

def Symbol.word (sign : Symbol) : Word :=
  (.symbol sign, sign.text)

def BinaryOp.sign : BinaryOp → Symbol
  | .add => .plus
  | .sub => .minus
  | .mul => .star
  | .div => .slash
  | .mod => .percent
  | .pow => .power
  | .eq => .equalsEquals
  | .notEq => .notEquals
  | .lt => .less
  | .gt => .greater
  | .ltEq => .lessEquals
  | .gtEq => .greaterEquals
  | .and => .andAnd
  | .or => .orOr

def UnaryOp.sign : UnaryOp → Symbol
  | .negate => .minus
  | .not => .bang

/-- How tightly an operator binds. -/
def BinaryOp.level : BinaryOp → Nat
  | .or => 1
  | .and => 2
  | .eq | .notEq => 3
  | .lt | .gt | .ltEq | .gtEq => 4
  | .add | .sub => 5
  | .mul | .div | .mod => 6
  | .pow => 7

/-- How tightly the left operand has to bind. Operators group to the left, but for powers. -/
def BinaryOp.leftLevel (op : BinaryOp) : Nat :=
  if op = .pow then 8 else op.level

/-- How tightly the right operand has to bind. -/
def BinaryOp.rightLevel (op : BinaryOp) : Nat :=
  if op = .pow then 7 else op.level + 1

/-- How tightly a formula binds: an assignment not at all, a sign more than any operator, and
everything else more than a sign. -/
def Formula.level : Formula → Nat
  | .assign .. => 0
  | .binary op _ _ => op.level
  | .unary .. => 8
  | .place _ | .number _ | .array _ | .call .. => 9

def parenthesized (words : List Word) : List Word :=
  Symbol.openParen.word :: (words ++ [Symbol.closeParen.word])

/-- The words of a part in a position that asks for a level, in parentheses if its own is lower. -/
def atLevel (required own : Nat) (words : List Word) : List Word :=
  if own < required then parenthesized words else words

mutual

def Place.words : Place → List Word
  | .name text => [(.identifier, text)]
  | .field owner name =>
    atLevel 9 owner.level owner.words ++ [Symbol.dot.word, (.identifier, name)]
  | .index owner key =>
    atLevel 9 owner.level owner.words ++
      Symbol.openBracket.word :: (key.words ++ [Symbol.closeBracket.word])

/-- The words of a formula in a position that asks for nothing. -/
def Formula.words : Formula → List Word
  | .place place => place.words
  | .number value => [(.number, value.text)]
  | .array elements =>
    Symbol.openBracket.word :: (Formula.listWords elements ++ [Symbol.closeBracket.word])
  | .call callee args =>
    atLevel 9 callee.level callee.words ++
      Symbol.openParen.word :: (Formula.listWords args ++ [Symbol.closeParen.word])
  | .unary op operand => op.sign.word :: atLevel 8 operand.level operand.words
  | .binary op left right =>
    atLevel op.leftLevel left.level left.words ++
      op.sign.word :: atLevel op.rightLevel right.level right.words
  | .assign target value => target.words ++ Symbol.equals.word :: value.words

/-- Formulas with commas between them. -/
def Formula.listWords : List Formula → List Word
  | [] => []
  | [f] => f.words
  | f :: g :: rest => f.words ++ Symbol.comma.word :: Formula.listWords (g :: rest)

end

/-! ### The first word -/

/-- The kinds of words that a formula can start with. -/
def Formula.starts : List Kind :=
  [.identifier, .number, .symbol .openBracket, .symbol .openParen, .symbol .minus, .symbol .bang]

def Starts (words : List Word) : Prop :=
  ∃ w rest, words = w :: rest ∧ w.1 ∈ Formula.starts

theorem Starts.append {words : List Word} (h : Starts words) (more : List Word) :
    Starts (words ++ more) := by
  obtain ⟨w, rest, rfl, hw⟩ := h
  exact ⟨w, rest ++ more, rfl, hw⟩

theorem Starts.ne_nil {words : List Word} (h : Starts words) : words ≠ [] := by
  obtain ⟨w, rest, rfl, -⟩ := h
  exact nofun

theorem starts_parenthesized (words : List Word) : Starts (parenthesized words) :=
  ⟨_, _, rfl, by decide⟩

theorem Starts.atLevel {words : List Word} (h : Starts words) (required own : Nat) :
    Starts (atLevel required own words) := by
  unfold Sable.atLevel
  split
  · exact starts_parenthesized words
  · exact h

mutual

theorem Place.starts_words : ∀ p : Place, Starts p.words
  | .name _ => ⟨_, _, rfl, by simp [Formula.starts]⟩
  | .field owner _ => (owner.starts_words.atLevel 9 owner.level).append _
  | .index owner _ => (owner.starts_words.atLevel 9 owner.level).append _

theorem Formula.starts_words : ∀ f : Formula, Starts f.words
  | .place p => p.starts_words
  | .number _ => ⟨_, _, rfl, by simp [Formula.starts]⟩
  | .array _ => ⟨_, _, rfl, by decide⟩
  | .call callee _ => (callee.starts_words.atLevel 9 callee.level).append _
  | .unary op _ => ⟨_, _, rfl, by cases op <;> decide⟩
  | .binary op left _ => (left.starts_words.atLevel op.leftLevel left.level).append _
  | .assign target _ => target.starts_words.append _

end

/-! ### The words inside -/

/-- No word ends the file or opens an object. -/
def Braceless (words : List Word) : Prop :=
  ∀ w ∈ words, w.1 ≠ .endOfFile ∧ w.1 ≠ .symbol .openBrace

theorem Braceless.nil : Braceless [] := nofun

theorem Braceless.append {words more : List Word} (h : Braceless words) (h' : Braceless more) :
    Braceless (words ++ more) :=
  List.forall_mem_append.2 ⟨h, h'⟩

theorem Braceless.cons {s : Symbol} {words : List Word} (h : Braceless words)
    (hs : s ≠ .openBrace) : Braceless (s.word :: words) :=
  List.forall_mem_cons.2 ⟨⟨nofun, fun hk => hs (Kind.symbol.inj hk)⟩, h⟩

/-- Words up to a closing sign. -/
theorem Braceless.closed {s : Symbol} {words : List Word} (h : Braceless words)
    (hs : s ≠ .openBrace) : Braceless (words ++ [s.word]) :=
  h.append (Braceless.nil.cons hs)

theorem Braceless.identifier (text : String) : Braceless [(.identifier, text)] := by
  simp [Braceless]

theorem Braceless.atLevel {words : List Word} (h : Braceless words) (required own : Nat) :
    Braceless (atLevel required own words) := by
  unfold Sable.atLevel
  split
  · exact (h.closed (by decide)).cons (by decide)
  · exact h

mutual

theorem Place.braceless : ∀ p : Place, Braceless p.words
  | .name text => .identifier text
  | .field owner name =>
    (owner.braceless.atLevel 9 owner.level).append ((Braceless.identifier name).cons (by decide))
  | .index owner key =>
    (owner.braceless.atLevel 9 owner.level).append
      ((key.braceless.closed (by decide)).cons (by decide))

theorem Formula.braceless : ∀ f : Formula, Braceless f.words
  | .place p => p.braceless
  | .number _ => by simp [Braceless, Formula.words]
  | .array elements => ((Formula.braceless_list elements).closed (by decide)).cons (by decide)
  | .call callee args =>
    (callee.braceless.atLevel 9 callee.level).append
      (((Formula.braceless_list args).closed (by decide)).cons (by decide))
  | .unary op operand =>
    (operand.braceless.atLevel 8 operand.level).cons (by cases op <;> decide)
  | .binary op left right =>
    (left.braceless.atLevel op.leftLevel left.level).append
      ((right.braceless.atLevel op.rightLevel right.level).cons (by cases op <;> decide))
  | .assign target value => target.braceless.append (value.braceless.cons (by decide))

theorem Formula.braceless_list : ∀ fs : List Formula, Braceless (Formula.listWords fs)
  | [] => .nil
  | [f] => f.braceless
  | f :: g :: fs => f.braceless.append ((Formula.braceless_list (g :: fs)).cons (by decide))

end

end Sable
