import Sable.Proofs.Reading.Tokens

/-!
# Reading types and expressions

`Reads` for the rules of annotations, which read tokens of the kinds in `typeKinds` only, and of
expressions, which read a token at least. The error for what is wrong in a literal points at the literal
(`PointsAtLiterals`).
-/

namespace Sable

namespace Parser

variable {n : Nat}

/-! ### Annotations -/

/-- The kinds of tokens that annotations are made of. -/
def typeKinds : List Kind :=
  [.identifier, .keyword .fnWord, .symbol .less, .symbol .greater, .symbol .comma, .symbol .pipe,
   .symbol .openParen, .symbol .closeParen, .symbol .openBracket, .symbol .closeBracket,
   .symbol .arrow]

section Types

variable {inner : Parser TypeExpr} (h : ∀ c, Reads n 0 (· ∈ typeKinds) c (inner c))
include h

theorem reads_unionTail : ∀ (budget : Nat) (c : Cursor),
    Reads n 0 (· ∈ typeKinds) c (unionTail inner budget c)
  | 0, _ => .pure _
  | budget + 1, c => by
    simp only [unionTail, accept_bind]
    split
    · rename_i hc
      refine .advance (by simp [hc, typeKinds]) (.bind (h _) fun _ t _ => ?_)
      exact .bind (reads_unionTail budget t) fun _ _ _ => .pure _
    · exact .pure _

omit h in
theorem reads_brackets : ∀ (budget : Nat) (type : TypeExpr) (c : Cursor),
    Reads n 0 (· ∈ typeKinds) c (brackets budget type c)
  | 0, _, _ => .pure _
  | budget + 1, type, c => by
    simp only [brackets, kind_bind, kindAt_bind, next_bind, ite_run]
    split
    · rename_i hc
      have hc' := Cursor.here_advance hc.1 (by simp) hc.2 (by simp)
      refine .advance (by simp [hc.1, typeKinds]) (.advance (by simp [hc', typeKinds]) ?_)
      exact reads_brackets budget _ _
    · exact .pure _

omit h in
theorem brackets_named : ∀ {budget : Nat} {type : TypeExpr} {c t : Cursor} {name : Name},
    brackets budget type c = .ok (.named name, t) → type = .named name
  | 0, _, _, _, _, h => by
    cases h
    rfl
  | budget + 1, type, c, t, name, h => by
    simp only [brackets, kind_bind, kindAt_bind, next_bind, ite_run] at h
    split at h
    · cases brackets_named h
    · cases h
      rfl

theorem reads_simpleType (budget : Nat) (c : Cursor) :
    Reads n 0 (· ∈ typeKinds) c (simpleType inner budget c) := by
  simp only [simpleType, kind_bind]
  generalize hk : c.here.kind = k
  split
  · refine reads_identifier (by simp [typeKinds]) ?_
    cases Primitive.ofName? c.here.name.text with
    | some type => exact .pure _
    | none =>
      simp only [accept_bind]
      split
      · rename_i hl
        refine .advance (by simp [hl, typeKinds]) ?_
        refine .bind (reads_commaList (by simp [typeKinds]) h budget _) fun _ t _ => ?_
        exact reads_expect (by simp [typeKinds]) (.pure _)
      · exact .pure _
  · refine reads_next (by simp [hk, typeKinds]) (reads_expect (by simp [typeKinds]) ?_)
    refine .bind (reads_listUntil (by simp [typeKinds]) h budget _) fun _ t _ => ?_
    refine reads_expect (by simp [typeKinds]) ?_
    exact .bind (reads_after (by simp [typeKinds]) h) fun _ _ _ => .pure _
  · refine reads_next (by simp [hk, typeKinds]) (.bind (h _) fun _ t _ => ?_)
    exact reads_expect (by simp [typeKinds]) (.pure _)
  · exact .error Cursor.Below.here

theorem reads_unionType (budget : Nat) (c : Cursor) :
    Reads n 0 (· ∈ typeKinds) c (unionType inner budget c) := by
  have hb : ∀ c, Reads n 0 (· ∈ typeKinds) c (bracketType inner budget c) := fun c =>
    .bind (reads_simpleType h budget c) fun _ t _ => reads_brackets budget _ t
  refine .bind (hb c) fun _ t _ => ?_
  simp only [kind_bind, ite_run]
  split
  · exact .bind (reads_unionTail hb budget t) fun _ _ _ => .pure _
  · exact .pure _

end Types

theorem reads_typeExpr : ∀ (budget : Nat) (c : Cursor),
    Reads n 0 (· ∈ typeKinds) c (typeExpr budget c)
  | 0, _ => .error Cursor.Below.here
  | budget + 1, c => reads_unionType (reads_typeExpr budget) budget c

/-- An annotation that is a mere name is one of the tokens. -/
theorem typeExpr_named : ∀ {budget : Nat} {c t : Cursor} {name : Name},
    typeExpr budget c = .ok (.named name, t) → ∃ x ∈ c.rest, x.span = name.span
  | budget + 1, c, t, name, h => by
    obtain ⟨first, u, hfirst, h⟩ := bind_eq_ok.1 h
    simp only [kind_bind, ite_run] at h
    split at h
    · obtain ⟨_, _, _, h⟩ := bind_eq_ok.1 h
      cases h
    cases h
    obtain ⟨type, v, hsimple, h⟩ := bind_eq_ok.1 hfirst
    cases brackets_named h
    simp only [simpleType, kind_bind] at hsimple
    generalize hk : c.here.kind = k at hsimple
    have hmem (hk : c.here.kind ≠ .endOfFile) : c.rest = c.here :: c.advance.rest :=
      Cursor.rest_eq_of_kind rfl hk
    split at hsimple
    · simp only [identifier_bind, if_pos hk] at hsimple
      cases hprimitive : Primitive.ofName? c.here.name.text with
      | some type =>
        rw [hprimitive] at hsimple
        cases hsimple
      | none =>
        simp only [hprimitive, accept_bind] at hsimple
        split at hsimple
        · obtain ⟨_, _, _, h⟩ := bind_eq_ok.1 hsimple
          obtain ⟨_, _, _, h⟩ := bind_eq_ok.1 h
          cases h
        · cases hsimple
          exact ⟨c.here, by rw [hmem (by simp [hk])]; exact List.mem_cons_self, rfl⟩
    · rw [next_bind] at hsimple
      iterate 5 obtain ⟨_, _, _, hsimple⟩ := bind_eq_ok.1 hsimple
      cases hsimple
    · rw [next_bind] at hsimple
      obtain ⟨_, _, hinner, h⟩ := bind_eq_ok.1 hsimple
      obtain ⟨_, _, _, h⟩ := bind_eq_ok.1 h
      cases h
      obtain ⟨x, hx, hspan⟩ := typeExpr_named hinner
      exact ⟨x, by rw [hmem (by simp [hk])]; exact List.mem_cons_of_mem _ hx, hspan⟩
    · cases hsimple

theorem moves_typeExpr (budget : Nat) : Moves n (typeExpr budget) :=
  fun c => (reads_typeExpr budget c).forward

/-! ### Expressions -/

section Operators

variable {operand : Parser Expr} (h : ∀ c, Advances n c (operand c))
include h

theorem forward_tierTail (operators : List (Kind × BinaryOp)) :
    ∀ (budget : Nat) (left : Expr) (c : Cursor), Forward n c (tierTail operand operators budget left c)
  | 0, _, _ => .pure _
  | budget + 1, left, c => by
    simp only [tierTail, kind_bind]
    generalize operators.lookup c.here.kind = op
    cases op with
    | none => exact .pure _
    | some op =>
      refine reads_next trivial (.bind (h _).forward fun _ t _ => ?_)
      exact forward_tierTail operators budget _ t

theorem advances_tier (operators : List (Kind × BinaryOp)) (budget : Nat) (c : Cursor) :
    Advances n c (tier budget operators operand c) :=
  .bind (h c) fun _ t _ => forward_tierTail h operators budget _ t

theorem advances_powers : ∀ (budget : Nat) (c : Cursor), Advances n c (powers operand budget c)
  | 0, c => h c
  | budget + 1, c => by
    refine .bind (h c) fun _ t _ => ?_
    simp only [accept_bind]
    split
    · exact .advance trivial (.bind (advances_powers budget _).forward fun _ _ _ => .pure _)
    · exact .pure _

theorem advances_signed : ∀ (budget : Nat) (c : Cursor), Advances n c (signed operand budget c)
  | 0, c => h c
  | budget + 1, c => by
    simp only [signed, kind_bind]
    cases hk : UnaryOp.ofKind? c.here.kind with
    | none => exact h c
    | some op =>
      have hne : c.here.kind ≠ .endOfFile := fun he => by simp [he, UnaryOp.ofKind?] at hk
      exact advances_next hne (.bind (advances_signed budget _).forward fun _ _ _ => .pure _)

end Operators

/-- The errors of the reader point at the literal that it was given. -/
def PointsAtLiterals (reader : TextReader) : Prop :=
  ∀ text span e, reader text span = .error e → e.span = span

section Expressions

variable {reader : TextReader} {nested : Bool → Parser Expr}
  (h : ∀ (objects : Bool) (c : Cursor), Forward n c (nested objects c))
include h

theorem forward_members : ∀ (budget : Nat) (e : Expr) (c : Cursor),
    Forward n c (members nested budget e c)
  | 0, _, _ => .pure _
  | budget + 1, e, c => by
    simp only [members, kind_bind, onSameLine_bind, accept_bind, ite_run]
    split
    · exact .advance trivial (reads_identifier trivial (forward_members budget _ _))
    · simp only [Bool.false_eq_true, if_false]
      split
      · refine reads_next trivial (.bind (h true _) fun _ t _ => ?_)
        exact reads_expect trivial (forward_members budget _ _)
      · split
        · refine reads_next trivial ?_
          refine .bind (reads_listUntil trivial (h true) budget _) fun _ t _ => ?_
          exact reads_expect trivial (forward_members budget _ _)
        · exact .pure _

theorem forward_properties : ∀ (budget : Nat) (c : Cursor), Forward n c (properties nested budget c)
  | 0, _ => .pure _
  | budget + 1, c => by
    simp only [properties, kind_bind, ite_run]
    split
    · exact .pure _
    · refine reads_identifier trivial (.bind (reads_after trivial (h true)) fun _ t _ => ?_)
      simp only [accept_bind, kind_bind, ite_run]
      split
      · refine .advance trivial ?_
        exact .bind (forward_properties budget _) fun _ _ _ => .pure _
      · split
        · exact .bind (forward_properties budget _) fun _ _ _ => .pure _
        · exact .pure _

theorem advances_objectBody (budget : Nat) (struct : Option Name) (typeArgs : List TypeExpr)
    (start : Span) (c : Cursor) :
    Advances n c (objectBody nested budget struct typeArgs start c) := by
  refine advances_expect (by simp) (.bind (forward_properties h budget _) fun _ t _ => ?_)
  exact reads_expect trivial (.pure _)

omit h in
theorem advances_genericHead (budget : Nat) (c : Cursor) : Advances n c (genericHead budget c) := by
  refine advances_identifier (reads_next trivial ?_)
  have ht : ∀ c, Forward n c (typeExpr budget c) := fun c => (reads_typeExpr budget c).forward
  refine .bind (reads_commaList trivial ht budget _) fun _ t _ => reads_expect trivial ?_
  simp only [kind_bind, ite_run]
  split
  · exact .pure _
  · exact .error Cursor.Below.here

omit h in
/-- Where there is no such head, nothing is read and no error is given. -/
theorem forward_genericHead? (budget : Nat) (c : Cursor) :
    Forward n c (genericHead? budget c) := by
  intro hc
  have hended := (advances_genericHead budget c).forward hc
  unfold genericHead?
  generalize genericHead budget c = r at hended
  cases hended with
  | ok hu hP hi hl => exact .ok hu hP hi hl
  | error _ => exact Reads.ok _ hc

theorem advances_named (budget : Nat) (objects : Bool) (c : Cursor) :
    Advances n c (named nested budget objects c) := by
  have hname : ∀ (second : Kind) (c : Cursor),
      Advances n c (plainName nested budget objects second c) := by
    intro second c
    refine advances_identifier ?_
    simp only [ite_run]
    split
    · exact (advances_objectBody h budget _ _ _ _).forward
    · exact .pure _
  simp only [named, kindAt_bind, ite_run]
  split
  · refine .bind_right (forward_genericHead? budget c) fun head t _ => ?_
    cases head with
    | some head => exact advances_objectBody h budget _ _ _ t
    | none => exact hname _ t
  · exact hname _ c

theorem advances_primary (hreader : PointsAtLiterals reader) (budget : Nat) (objects : Bool)
    (c : Cursor) : Advances n c (primary reader nested budget objects c) := by
  simp only [primary, peek_bind]
  generalize hk : c.here.kind = k
  split
  · refine advances_next (by simp [hk]) ?_
    cases Number.Decimal.ofText? c.here.text with
    | some value => exact .pure _
    | none => exact .error Cursor.Below.passed
  · refine advances_next (by simp [hk]) ?_
    cases hread : reader c.here.text c.here.span with
    | ok e => exact .pure _
    | error e => exact .error fun hc => hreader _ _ _ hread ▸ hc.passed
  · exact advances_named h budget objects c
  · simp only [ite_run]
    split
    · exact advances_objectBody h budget _ _ _ c
    · exact .error Cursor.Below.here
  · refine advances_next (by simp [hk]) ?_
    refine .bind (reads_listUntil trivial (h true) budget _) fun _ t _ => ?_
    exact reads_expect trivial (.pure _)
  · refine advances_next (by simp [hk]) (.bind (h true _) fun _ t _ => ?_)
    exact reads_expect trivial (.pure _)
  · exact .error Cursor.Below.here

theorem advances_assignment (hreader : PointsAtLiterals reader) (budget : Nat) (objects : Bool)
    (c : Cursor) : Advances n c (assignment reader nested budget objects c) := by
  have hp : ∀ c, Advances n c ((primary reader nested budget objects >>= members nested budget) c) :=
    fun c => .bind (advances_primary h hreader budget objects c) fun e t _ =>
      forward_members h budget e t
  have ho : ∀ c, Advances n c (operand reader nested budget objects c) :=
    advances_powers (advances_signed hp budget) budget
  have hf : ∀ (tiers : List (List (Kind × BinaryOp))) (c : Cursor),
      Advances n c (tiers.foldr (tier budget) (operand reader nested budget objects) c) := by
    intro tiers
    induction tiers with
    | nil => exact ho
    | cons operators rest ih => exact advances_tier ih operators budget
  refine .bind (hf BinaryOp.tiers c) fun left t _ => ?_
  simp only [kind_bind]
  cases assignmentOf? t.here.kind with
  | none => exact .pure _
  | some compound =>
    refine reads_next trivial ?_
    simp only [ite_run]
    split
    · refine .bind (h objects _) fun value u _ => ?_
      cases compound with
      | none => exact .pure _
      | some op => exact .pure _
    · exact .error Cursor.Below.passed

end Expressions

theorem advances_expression {reader : TextReader} (hreader : PointsAtLiterals reader) :
    ∀ (budget : Nat) (objects : Bool) (c : Cursor), Advances n c (expression reader budget objects c)
  | 0, _, _ => .error Cursor.Below.here
  | budget + 1, objects, c =>
    advances_assignment (fun b c => (advances_expression hreader budget b c).forward) hreader budget
      objects c

theorem pointsAtLiterals_readLiteral : PointsAtLiterals readLiteral := by
  intro text span e h
  rw [readLiteral, readText] at h
  split at h <;> cases h
  rfl

end Parser

end Sable
