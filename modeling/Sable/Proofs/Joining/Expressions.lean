import Sable.Proofs.Joining.Tokens

/-!
# Annotations and expressions in front of a seam

`Seam.Agree` for every rule of annotations and expressions: it reads the same whether the file ends at
the seam or goes on. The two readings may have different budgets, if both exceed the number of tokens in
front of the seam, and different readers for text literals, if these agree on those tokens.
-/

namespace Sable

open Sable.Parser

namespace Seam

/-! ### Annotations -/

section Types

variable {s : Seam} {n b b' : Nat} {inner inner' : Parser TypeExpr}

theorem agree_unionTail : ∀ {n b b' : Nat}, n ≤ b → n ≤ b' → s.Agree 0 n inner inner' →
    s.Agree 0 n (unionTail inner b) (unionTail inner' b')
  | 0, _, _, _, _, _ => .zero
  | n + 1, b + 1, b' + 1, hb, hb', h => by
    have hinner : s.Agree 0 n inner inner' := h.mono (Nat.le_succ n)
    have hrest := agree_unionTail (Nat.le_of_succ_le_succ hb) (Nat.le_of_succ_le_succ hb') hinner
    exact .accept (by decide) (hinner.bind fun _ => hrest.bind fun _ => .pure _) (.pure _)

theorem agree_brackets : ∀ {n b b' : Nat} (type : TypeExpr), n ≤ b → n ≤ b' →
    s.Agree 0 n (brackets b type) (brackets b' type)
  | 0, _, _, _, _, _ => .zero
  | n + 1, b + 1, b' + 1, type, hb, hb' => by
    refine .kind (fun k m c hm hc hr => ?_) fun k hk => ?_
    · have hlen : 1 ≤ c.rest.length := List.length_pos_iff.2 hr
      simp only [kindAt_bind,
        kindAt_joined (show Kind.IsInner (.symbol .closeBracket) by decide) hlen]
      by_cases hclose : k = .symbol .openBracket ∧ (s.ended c).kindAt 1 = .symbol .closeBracket
      · have hr' := hc.advance_ne_nil (lt_of_kindAt (by decide) hclose.2)
        rw [if_pos hclose, if_pos hclose]
        refine hc.agrees_next hr ((hc.advance hr).agrees_next hr' ?_)
        refine (agree_brackets _ (Nat.le_of_succ_le_succ hb) (Nat.le_of_succ_le_succ hb')
          (m - 1 - 1) _ (by omega) ((hc.advance hr).advance hr')).mono (by omega)
      · rw [if_neg hclose, if_neg hclose]
        exact .ok type hc
    · obtain rfl | rfl := Kind.not_isInner.1 hk <;> exact .pure _

theorem agree_simpleType (hb : n ≤ b) (hb' : n ≤ b') (h : s.Agree 0 n inner inner') :
    s.Agree 1 (n + 1) (simpleType inner b) (simpleType inner' b') := by
  refine .kind (fun k => ?_) fun k hk => ?_
  · split
    · refine (Agree.identifier _).inside.bind fun name => ?_
      cases Primitive.ofName? name.text with
      | some type => exact .pure _
      | none =>
        refine .accept (by decide) ?_ (.pure _)
        refine (Agree.commaList hb hb' h).mono (Nat.sub_le _ _) |>.bind fun _ => ?_
        exact (Agree.expect (by decide)).weak.bind fun _ => .pure _
    · refine AgreeIn.next.bind fun _ => (Agree.expect (by decide)).weak.bind fun _ => ?_
      refine (Agree.listUntil (by decide) hb hb' h).bind fun _ => ?_
      refine (Agree.expect (by decide)).weak.bind fun _ => ?_
      refine (Agree.after (by decide) (h.mono (Nat.sub_le _ _))).bind fun _ => ?_
      exact Agree.lastSpan.bind fun _ => .pure _
    · refine AgreeIn.next.bind fun _ => h.bind fun _ => ?_
      exact (Agree.expect (by decide)).weak.bind fun _ => .pure _
    · exact (Agree.unexpected _).inside
  · obtain rfl | rfl := Kind.not_isInner.1 hk <;> exact .unexpected _

theorem agree_unionType (hb : n ≤ b) (hb' : n ≤ b') (h : s.Agree 0 n inner inner') :
    s.Agree 1 (n + 1) (unionType inner b) (unionType inner' b') := by
  have hbracket : s.Agree 1 (n + 1) (bracketType inner b) (bracketType inner' b') :=
    (agree_simpleType hb hb' h).bind fun type => agree_brackets type hb hb'
  refine hbracket.bind fun first => .ifKind (by decide) ?_ (.pure _)
  have hmember : s.Agree 0 n (bracketType inner b) (bracketType inner' b') :=
    (hbracket.mono (Nat.le_succ n)).weak
  exact ((agree_unionTail hb hb' hmember).bind fun _ => Agree.lastSpan.bind fun _ => .pure _).inside

/-- An annotation is read the same in front of a seam. -/
theorem agree_typeExpr : ∀ {n b b' : Nat}, n ≤ b → n ≤ b' →
    s.Agree 1 n (typeExpr b) (typeExpr b')
  | 0, _, _, _, _ => .zero
  | _ + 1, _ + 1, _ + 1, hb, hb' =>
    agree_unionType (Nat.le_of_succ_le_succ hb) (Nat.le_of_succ_le_succ hb')
      (agree_typeExpr (Nat.le_of_succ_le_succ hb) (Nat.le_of_succ_le_succ hb')).weak

end Types

/-! ### Operators -/

section Operators

variable {s : Seam} {n b b' : Nat} {operand operand' : Parser Expr}

theorem agree_tierTail {operators : List (Kind × BinaryOp)}
    (hops : ∀ k, ¬ k.IsInner → operators.lookup k = none) :
    ∀ {n b b' : Nat} (left : Expr), n ≤ b → n ≤ b' → s.Agree 0 n operand operand' →
      s.Agree 0 n (tierTail operand operators b left) (tierTail operand' operators b' left)
  | 0, _, _, _, _, _, _ => .zero
  | n + 1, b + 1, b' + 1, left, hb, hb', h => by
    have hoperand : s.Agree 0 n operand operand' := h.mono (Nat.le_succ n)
    refine .kind (fun k => ?_) fun k hk => ?_
    · cases operators.lookup k with
      | none => exact (Agree.pure left).inside
      | some op =>
        exact (AgreeIn.next.bind fun _ => hoperand.bind fun right =>
          agree_tierTail hops _ (Nat.le_of_succ_le_succ hb) (Nat.le_of_succ_le_succ hb') hoperand).weak
    · simp only [hops k hk, hops .endOfFile (by decide)]
      exact .pure left

theorem agree_tier {operators : List (Kind × BinaryOp)}
    (hops : ∀ k, ¬ k.IsInner → operators.lookup k = none) (hb : n ≤ b) (hb' : n ≤ b')
    (h : s.Agree 1 (n + 1) operand operand') :
    s.Agree 1 (n + 1) (tier b operators operand) (tier b' operators operand') :=
  h.bind fun left => agree_tierTail hops left hb hb' (h.mono (Nat.le_succ n)).weak

theorem agree_tiers (hb : n ≤ b) (hb' : n ≤ b') (h : s.Agree 1 (n + 1) operand operand') :
    ∀ {tiers : List (List (Kind × BinaryOp))},
      (∀ operators ∈ tiers, ∀ k, ¬ k.IsInner → operators.lookup k = none) →
      s.Agree 1 (n + 1) (tiers.foldr (tier b) operand) (tiers.foldr (tier b') operand')
  | [], _ => h
  | _ :: _, hops =>
    agree_tier (hops _ List.mem_cons_self) hb hb'
      (agree_tiers hb hb' h fun operators ho => hops operators (List.mem_cons_of_mem _ ho))

/-- A rule that begins with an operand fails where no token is left, whatever it does then. -/
theorem agree_of_last {α : Type} {p q : Parser α} (h : s.Agree 1 1 operand operand')
    (hp : ∀ c e, operand c = .error e → p c = .error e)
    (hq : ∀ c e, operand' c = .error e → q c = .error e) : s.Agree 1 1 p q := by
  intro m c hm hc
  have hzero : Agrees s 0 (operand (s.ended c)) (operand' (s.joined c)) :=
    (h m c hm hc).mono (by omega)
  obtain ⟨e, e', he, he'⟩ := hzero.error_of_zero
  rw [hp _ e he, hq _ e' he']
  exact .error e e'

theorem powers_error {c : Cursor} {e : SyntaxError} (h : operand c = .error e) :
    ∀ b, powers operand b c = .error e
  | 0 => h
  | b + 1 => by
    show (operand c >>= _) = _
    rw [h]
    rfl

theorem agree_powers : ∀ {n b b' : Nat}, n ≤ b → n ≤ b' → s.Agree 1 (n + 1) operand operand' →
    s.Agree 1 (n + 1) (powers operand b) (powers operand' b')
  | 0, _, _, _, _, h => agree_of_last h (fun _ _ he => powers_error he _) fun _ _ he => powers_error he _
  | n + 1, b + 1, b' + 1, hb, hb', h => by
    have hrest : s.Agree 1 (n + 1) (powers operand b) (powers operand' b') :=
      agree_powers (Nat.le_of_succ_le_succ hb) (Nat.le_of_succ_le_succ hb') (h.mono (Nat.le_succ _))
    refine h.bind fun base => .accept (by decide) ?_ (.pure base)
    exact ((hrest.mono (Nat.le_succ n)).weak.bind fun _ => .pure _)

theorem signed_error {c : Cursor} {e : SyntaxError} (hk : UnaryOp.ofKind? c.here.kind = none)
    (h : operand c = .error e) : ∀ b, signed operand b c = .error e
  | 0 => h
  | b + 1 => by
    rw [signed, kind_bind, hk]
    exact h

theorem agree_signed : ∀ {n b b' : Nat}, n ≤ b → n ≤ b' → s.Agree 1 (n + 1) operand operand' →
    s.Agree 1 (n + 1) (signed operand b) (signed operand' b')
  | 0, b, b', _, _, h => by
    intro m c hm hc
    have hr : c.rest = [] := List.length_eq_zero_iff.1 (by have := hc.lt; omega)
    have hsign : ∀ k : Kind, ¬ k.IsInner → UnaryOp.ofKind? k = none := by
      intro k hk
      obtain rfl | rfl := Kind.not_isInner.1 hk <;> rfl
    have hzero : Agrees s 0 (operand (s.ended c)) (operand' (s.joined c)) :=
      (h m c hm hc).mono (by omega)
    obtain ⟨e, e', he, he'⟩ := hzero.error_of_zero
    rw [signed_error (hsign _ (by rw [here_ended_nil hr]; exact finish_not_inner)) he,
      signed_error (hsign _ (by rw [here_joined_nil hr]; exact s.next_kind)) he']
    exact .error e e'
  | n + 1, b + 1, b' + 1, hb, hb', h => by
    have hrest : s.Agree 1 (n + 1) (signed operand b) (signed operand' b') :=
      agree_signed (Nat.le_of_succ_le_succ hb) (Nat.le_of_succ_le_succ hb') (h.mono (Nat.le_succ _))
    refine .kind (fun k => ?_) fun k hk => ?_
    · cases UnaryOp.ofKind? k with
      | none => exact h.inside
      | some op => exact AgreeIn.next.bind fun _ => hrest.weak.bind fun _ => .pure _
    · obtain rfl | rfl := Kind.not_isInner.1 hk <;> exact h

end Operators

/-! ### Operands -/

section Operands

variable {s : Seam} {n b b' : Nat} {nested nested' : Bool → Parser Expr}

theorem agree_members : ∀ {n b b' : Nat} (e : Expr), n ≤ b → n ≤ b' →
    (∀ objects, s.Agree 0 n (nested objects) (nested' objects)) →
    s.Agree 0 n (members nested b e) (members nested' b' e)
  | 0, _, _, _, _, _, _ => .zero
  | n + 1, b + 1, b' + 1, e, hb, hb', h => by
    have hb := Nat.le_of_succ_le_succ hb
    have hb' := Nat.le_of_succ_le_succ hb'
    have hnested : ∀ objects, s.Agree 0 n (nested objects) (nested' objects) :=
      fun objects => (h objects).mono (Nat.le_succ n)
    have hrest : ∀ e, s.Agree 0 n (members nested b e) (members nested' b' e) :=
      fun e => agree_members e hb hb' hnested
    refine .accept (by decide) ((Agree.identifier _).weak.bind fun _ => hrest _) ?_
    refine .ifKindOnLine (by decide) (AgreeIn.weak (i := 1) (AgreeIn.next.bind fun _ => ?_)) ?_
    · exact (hnested true).bind fun _ => (Agree.expect (by decide)).weak.bind fun _ => hrest _
    refine .ifKindOnLine (by decide) (AgreeIn.weak (i := 1) (AgreeIn.next.bind fun _ => ?_)) (.pure e)
    refine (Agree.listUntil (by decide) hb hb' (hnested true)).bind fun _ => ?_
    exact (Agree.expect (by decide)).weak.bind fun _ => hrest _

theorem agree_properties : ∀ {n b b' : Nat}, n ≤ b → n ≤ b' →
    s.Agree 0 n (nested true) (nested' true) →
    s.Agree 0 n (properties nested b) (properties nested' b')
  | 0, _, _, _, _, _ => .zero
  | n + 1, b + 1, b' + 1, hb, hb', h => by
    have hnested : s.Agree 0 n (nested true) (nested' true) := h.mono (Nat.le_succ n)
    have hrest := agree_properties (Nat.le_of_succ_le_succ hb) (Nat.le_of_succ_le_succ hb') hnested
    refine .ifKind (by decide) (Agree.pure _).inside (Agree.weak (i := 1) ?_)
    refine (Agree.identifier _).bind fun name => ?_
    refine (Agree.after (by decide) (hnested.mono (Nat.sub_le n 1))).bind fun value => ?_
    have hmore : s.Agree 0 n (do return (name, value) :: (← properties nested b))
        (do return (name, value) :: (← properties nested' b')) := hrest.bind fun _ => .pure _
    refine .accept (by decide) (.kind (fun k => ?_) fun k _ => ?_) ?_
    · exact (hmore.mono (Nat.sub_le n 1)).inside
    · exact hmore.mono (Nat.sub_le n 1)
    · simp only [Bool.false_eq_true, false_or]
      exact .ifKind (by decide) hmore.inside (.pure _)

theorem agree_objectBody (hb : n ≤ b) (hb' : n ≤ b') (h : s.Agree 0 n (nested true) (nested' true))
    (struct : Option Name) (typeArgs : List TypeExpr) (start : Span) :
    s.Agree 1 (n + 1) (objectBody nested b struct typeArgs start)
      (objectBody nested' b' struct typeArgs start) := by
  refine (Agree.expect (by decide)).bind fun _ => (agree_properties hb hb' h).bind fun _ => ?_
  exact (Agree.expect (by decide)).weak.bind fun _ => .pure _

/-- The name and the type arguments of a generic struct, where a token is left behind the name. -/
theorem agrees_genericHead {c : Cursor} {m : Nat} (hb : m - 1 ≤ b) (hb' : m - 1 ≤ b')
    (hc : s.Within m c) (hlen : 1 < c.rest.length) :
    Agrees s m (genericHead b (s.ended c)) (genericHead b' (s.joined c)) := by
  have hr : c.rest ≠ [] := List.ne_nil_of_length_pos (by omega)
  rw [genericHead, genericHead, identifier_bind, identifier_bind, here_ended hr, here_joined hr,
    hc.advance_ended hr, hc.advance_joined hr]
  split
  · refine (hc.advance hr).agrees_next (hc.advance_ne_nil hlen) ?_
    have hargs : s.Agree 0 (m - 1) (commaList (typeExpr b) b) (commaList (typeExpr b') b') :=
      .commaList hb hb' (agree_typeExpr hb hb').weak
    have hclose : s.Agree 0 (m - 1) (do
        let args ← commaList (typeExpr b) b
        let _ ← expect (.symbol .greater)
        if (← kind) = .symbol .openBrace then return (c.here.name, args) else unexpected "an object")
        (do
        let args ← commaList (typeExpr b') b'
        let _ ← expect (.symbol .greater)
        if (← kind) = .symbol .openBrace then return (c.here.name, args)
        else unexpected "an object") :=
      hargs.bind fun _ => (Agree.expect (by decide)).weak.bind fun _ =>
        .ifKind (by decide) (Agree.pure _).inside (.unexpected _)
    have hc' := (hc.advance hr).advance (hc.advance_ne_nil hlen)
    exact (hclose _ _ (by omega) hc').mono (by omega)
  · exact .error _ _

theorem agrees_genericHead? {c : Cursor} {m : Nat} (hc : s.Within m c)
    (h : Agrees s m (genericHead b (s.ended c)) (genericHead b' (s.joined c))) :
    Agrees s m (genericHead? b (s.ended c)) (genericHead? b' (s.joined c)) := by
  unfold genericHead?
  generalize genericHead b (s.ended c) = r at h ⊢
  generalize genericHead b' (s.joined c) = r' at h ⊢
  cases h with
  | ok head hd => exact .ok (some head) hd
  | error e e' => exact .ok none hc

theorem agree_named (hb : n ≤ b) (hb' : n ≤ b') (h : s.Agree 0 n (nested true) (nested' true))
    (objects : Bool) :
    s.AgreeIn 1 (n + 1) (named nested b objects) (named nested' b' objects) := by
  intro m c hm hc hr
  have hlen : 1 ≤ c.rest.length := List.length_pos_iff.2 hr
  simp only [named, kindAt_bind, kindAt_joined (show Kind.IsInner (.symbol .less) by decide) hlen,
    kindAt_joined (show Kind.IsInner (.symbol .openBrace) by decide) hlen]
  have hname : s.Agree 1 (n + 1) (plainName nested b objects ((s.ended c).kindAt 1))
      (plainName nested' b' objects ((s.ended c).kindAt 1)) :=
    (Agree.identifier _).bind fun name =>
      .ite ((agree_objectBody hb hb' h _ _ _).mono (Nat.le_succ n)).weak (.pure _)
  by_cases hless : objects ∧ (s.ended c).kindAt 1 = .symbol .less
  · have hsecond := lt_of_kindAt (by decide) hless.2
    have hhead : Agrees s m (genericHead b (s.ended c)) (genericHead b' (s.joined c)) :=
      agrees_genericHead (by omega) (by omega) hc hsecond
    rw [if_pos hless, if_pos hless]
    refine (agrees_genericHead? hc hhead).bind fun head d hd => ?_
    cases head with
    | some head => exact agree_objectBody hb hb' h _ _ _ m d hm hd
    | none => exact hname m d hm hd
  · rw [if_neg hless, if_neg hless]
    exact hname m c hm hc

variable {reader reader' : TextReader}
  (hreader : ∀ t ∈ s.tokens, ∀ e, reader t.text t.span = .ok e ↔ reader' t.text t.span = .ok e)
include hreader

theorem agree_primary (hb : n ≤ b) (hb' : n ≤ b')
    (h : s.Agree 0 n (nested true) (nested' true)) (objects : Bool) :
    s.Agree 1 (n + 1) (primary reader nested b objects) (primary reader' nested' b' objects) := by
  refine .peek (fun t ht => ?_) fun t t' ht ht' => ?_
  · generalize t.kind = k
    split
    · refine AgreeIn.next.bind fun _ => ?_
      cases Number.Decimal.ofText? t.text with
      | some value => exact .pure _
      | none => exact .fail _ _
    · refine AgreeIn.next.bind fun _ => ?_
      cases hread : reader t.text t.span with
      | ok e =>
        rw [(hreader t ht e).1 hread]
        exact .pure e
      | error e =>
        -- the errors may differ, for the readers need not have the same budget
        cases hread' : reader' t.text t.span with
        | ok e' =>
          rw [(hreader t ht e').2 hread'] at hread
          cases hread
        | error e' => exact fun _ _ _ _ => .error e e'
    · exact agree_named hb hb' h objects
    · exact (Agree.ite (agree_objectBody hb hb' h _ _ _) (.unexpected _)).inside
    · refine AgreeIn.next.bind fun _ => (Agree.listUntil (by decide) hb hb' h).bind fun _ => ?_
      exact (Agree.expect (by decide)).weak.bind fun _ => .pure _
    · refine AgreeIn.next.bind fun _ => h.bind fun _ => ?_
      exact (Agree.expect (by decide)).weak.bind fun _ => .pure _
    · exact (Agree.unexpected _).inside
  · simp only [ht]
    obtain ht' | ht' := Kind.not_isInner.1 ht' <;> simp only [ht'] <;> exact .unexpected _

theorem agree_operation (hb : n ≤ b) (hb' : n ≤ b')
    (h : ∀ objects, s.Agree 0 n (nested objects) (nested' objects)) (objects : Bool) :
    s.Agree 1 (n + 1) (operation reader nested b objects) (operation reader' nested' b' objects) := by
  have hprimary := agree_primary hreader hb hb' (h true) objects
  have hops : ∀ operators ∈ BinaryOp.tiers, ∀ k : Kind, ¬ k.IsInner → operators.lookup k = none := by
    intro operators ho k hk
    obtain rfl | rfl := Kind.not_isInner.1 hk
    · exact (by decide : ∀ operators ∈ BinaryOp.tiers, operators.lookup .endOfFile = none) _ ho
    · exact (by decide : ∀ operators ∈ BinaryOp.tiers, operators.lookup (.symbol .semicolon) = none)
        _ ho
  refine agree_tiers hb hb' (agree_powers hb hb' (agree_signed hb hb' ?_)) hops
  exact hprimary.bind fun e => agree_members e hb hb' h

theorem agree_assignment (hb : n ≤ b) (hb' : n ≤ b')
    (h : ∀ objects, s.Agree 0 n (nested objects) (nested' objects)) (objects : Bool) :
    s.Agree 1 (n + 1) (assignment reader nested b objects) (assignment reader' nested' b' objects) := by
  refine (agree_operation hreader hb hb' h objects).bind fun left => .kind (fun k => ?_) fun k hk => ?_
  · cases assignmentOf? k with
    | none => exact (Agree.pure left).inside
    | some compound =>
      refine AgreeIn.weak (i := 1) (AgreeIn.next.bind fun sign => ?_)
      refine .ite (((h objects).mono (Nat.sub_le n 1)).bind fun value => ?_) (.fail _ _)
      cases compound with
      | none => exact .pure _
      | some op => exact .pure _
  · obtain rfl | rfl := Kind.not_isInner.1 hk <;> exact .pure left

/-- An expression is read the same in front of a seam. -/
theorem agree_expression : ∀ {n b b' : Nat} (objects : Bool), n ≤ b → n ≤ b' →
    s.Agree 1 n (expression reader b objects) (expression reader' b' objects)
  | 0, _, _, _, _, _ => .zero
  | _ + 1, _ + 1, _ + 1, objects, hb, hb' =>
    agree_assignment hreader (Nat.le_of_succ_le_succ hb) (Nat.le_of_succ_le_succ hb')
      (fun objects => (agree_expression objects (Nat.le_of_succ_le_succ hb)
        (Nat.le_of_succ_le_succ hb')).weak) objects

end Operands

end Seam

end Sable
