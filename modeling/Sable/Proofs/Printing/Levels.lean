import Sable.Proofs.Reading.Expressions

/-!
# Levels of expressions

Expressions bind on ten levels, from assignments, the loosest, to calls and members, the tightest.
`Kind.continues?` is the level on which a token goes on with the expression before it. At a kind with
`Kind.Ends` the rule for a level gives what the rule for the next one has read.
-/

namespace Sable

/-- The level on which a token of this kind goes on with the expression in front of it. -/
def Kind.continues? : Kind → Option Nat
  | .symbol .equals | .symbol .plusEquals | .symbol .minusEquals | .symbol .starEquals
  | .symbol .slashEquals => some 0
  | .symbol .orOr | .keyword .orWord => some 1
  | .symbol .andAnd | .keyword .andWord => some 2
  | .symbol .equalsEquals | .symbol .notEquals => some 3
  | .symbol .less | .symbol .greater | .symbol .lessEquals | .symbol .greaterEquals => some 4
  | .symbol .plus | .symbol .minus => some 5
  | .symbol .star | .symbol .slash | .symbol .percent => some 6
  | .symbol .power => some 7
  | .symbol .dot | .symbol .openBracket | .symbol .openParen => some 9
  | _ => none

/-- A token of this kind goes on with no expression of the level or a tighter one. -/
def Kind.Ends (k : Kind) (level : Nat) : Prop :=
  ∀ l, k.continues? = some l → l < level

namespace Kind.Ends

variable {k : Kind} {level level' : Nat}

theorem mono (h : k.Ends level) (hle : level ≤ level') : k.Ends level' :=
  fun l hl => Nat.lt_of_lt_of_le (h l hl) hle

theorem continues?_ne (h : k.Ends level) (hle : level ≤ level') : k.continues? ≠ some level' :=
  fun hk => absurd (h level' hk) (Nat.not_lt.2 hle)

theorem of_none (h : k.continues? = none) : k.Ends level := by
  intro l hl
  rw [h] at hl
  cases hl

end Kind.Ends

/-- The operators of a tier stand on one level. -/
theorem BinaryOp.continues?_of_mem_tiers : ∀ i < 6, ∀ p ∈ BinaryOp.tiers.getD i [],
    p.1.continues? = some (i + 1) := by
  decide

theorem BinaryOp.lookup_eq_none {k : Kind} {i : Nat} (hi : i < 6)
    (h : k.continues? ≠ some (i + 1)) : (BinaryOp.tiers.getD i []).lookup k = none := by
  cases hl : (BinaryOp.tiers.getD i []).lookup k with
  | none => rfl
  | some op =>
    obtain ⟨before, after, htier, -⟩ := List.lookup_eq_some_iff.1 hl
    have hmem : (k, op) ∈ BinaryOp.tiers.getD i [] := by
      rw [htier]
      simp
    exact absurd (continues?_of_mem_tiers i hi (k, op) hmem) h

namespace Parser

variable {reader : TextReader} {nested : Bool → Parser Expr} {operand : Parser Expr} {b : Nat}
  {c c' : Cursor} {e : Expr}

/-! ### Where a rule goes no further -/

theorem members_ends (h : c.here.kind.Ends 9) : members nested b e c = .ok (e, c) := by
  have hne (s : Symbol) (hs : (Kind.symbol s).continues? = some 9) : c.here.kind ≠ .symbol s :=
    fun hk => h.continues?_ne (Nat.le_refl 9) (hk ▸ hs)
  cases b with
  | zero => rfl
  | succ b =>
    have hdot := hne .dot rfl
    have hbracket := hne .openBracket rfl
    have hparen := hne .openParen rfl
    simp only [members, accept_bind, if_neg hdot, kind_bind, onSameLine_bind, hbracket, hparen,
      false_and, if_false, Bool.false_eq_true]
    rfl

theorem tierTail_ends {i : Nat} (hi : i < 6) (h : c.here.kind.continues? ≠ some (i + 1)) :
    tierTail operand (BinaryOp.tiers.getD i []) b e c = .ok (e, c) := by
  cases b with
  | zero => rfl
  | succ b =>
    rw [tierTail, kind_bind, BinaryOp.lookup_eq_none hi h]
    rfl

theorem powers_ends (ho : operand c = .ok (e, c')) (h : c'.here.kind ≠ .symbol .power) :
    powers operand b c = .ok (e, c') := by
  cases b with
  | zero => exact ho
  | succ b =>
    refine bind_eq_ok.2 ⟨e, c', ho, ?_⟩
    rw [accept_bind, if_neg h]
    rfl

theorem signed_unsigned (h : UnaryOp.ofKind? c.here.kind = none) :
    signed operand b c = operand c := by
  cases b with
  | zero => rfl
  | succ b =>
    rw [signed, kind_bind, h]

/-! ### The tiers -/

/-- The rule for the operators of the tiers from the given one on. -/
def tiersFrom (reader : TextReader) (nested : Bool → Parser Expr) (b : Nat) (objects : Bool)
    (i : Nat) : Parser Expr :=
  (BinaryOp.tiers.drop i).foldr (tier b) (Parser.operand reader nested b objects)

variable {objects : Bool}

theorem tiersFrom_eq {i : Nat} (hi : i < 6) : tiersFrom reader nested b objects i =
    tier b (BinaryOp.tiers.getD i []) (tiersFrom reader nested b objects (i + 1)) := by
  have hdrop : ∀ i < 6,
      BinaryOp.tiers.drop i = BinaryOp.tiers.getD i [] :: BinaryOp.tiers.drop (i + 1) := by decide
  rw [tiersFrom, hdrop i hi, List.foldr_cons]
  rfl

theorem tiersFrom_first : tiersFrom reader nested b objects 0 =
    operation reader nested b objects := rfl

/-- What an operand has read is handed on through the tiers. -/
theorem tiersFrom_ends (ho : Parser.operand reader nested b objects c = .ok (e, c')) {i : Nat}
    (hi : i ≤ 6) (h : c'.here.kind.Ends (i + 1)) :
    tiersFrom reader nested b objects i c = .ok (e, c') := by
  induction hd : 6 - i generalizing i with
  | zero =>
    obtain rfl : i = 6 := by omega
    exact ho
  | succ d ih =>
    have hlt : i < 6 := by omega
    rw [tiersFrom_eq hlt]
    refine bind_eq_ok.2 ⟨e, c', ih hlt (h.mono (Nat.le_succ _)) (by omega), ?_⟩
    exact tierTail_ends hlt (h.continues?_ne (Nat.le_refl _))

theorem assignment_ends (ho : operation reader nested b objects c = .ok (e, c'))
    (h : c'.here.kind.Ends 0) : assignment reader nested b objects c = .ok (e, c') := by
  refine bind_eq_ok.2 ⟨e, c', ho, ?_⟩
  have hnone : assignmentOf? c'.here.kind = none := by
    have hne := h.continues?_ne (Nat.le_refl 0)
    generalize c'.here.kind = k at hne
    unfold assignmentOf?
    split <;> first | rfl | exact absurd rfl hne
  rw [kind_bind, hnone]
  rfl

/-- A primary expression in front of a token that goes on with none is an expression by itself. -/
theorem expression_of_primary (hp : primary reader (expression reader b) b objects c = .ok (e, c'))
    (hsign : UnaryOp.ofKind? c.here.kind = none) (h : c'.here.kind.continues? = none) :
    expression reader (b + 1) objects c = .ok (e, c') := by
  have hchain : (primary reader (expression reader b) b objects >>=
      members (expression reader b) b) c = .ok (e, c') :=
    bind_eq_ok.2 ⟨e, c', hp, members_ends (.of_none h)⟩
  have hoperand : Parser.operand reader (expression reader b) b objects c = .ok (e, c') := by
    refine powers_ends ((signed_unsigned hsign).trans hchain) fun hpower => ?_
    rw [hpower] at h
    cases h
  exact assignment_ends (tiersFrom_ends hoperand (Nat.zero_le 6) (.of_none h)) (.of_none h)

end Parser

end Sable
