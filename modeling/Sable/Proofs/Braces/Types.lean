import Sable.Proofs.Reading.Expressions

/-!
# Braces in place of layout

`Kind.braced`, `Token.braced` and `Cursor.braced` put an opening brace for every indent and a closing
brace for every dedent. `Same`: two rules both fail, or read the same, the second with braces in what it
leaves. All rules for annotations are the `Same` as themselves.
-/

namespace Sable

def Kind.braced : Kind → Kind
  | .indent => .symbol .openBrace
  | .dedent => .symbol .closeBrace
  | k => k

def Token.braced (t : Token) : Token :=
  { t with kind := t.kind.braced }

def Cursor.braced (c : Cursor) : Cursor :=
  ⟨c.last, c.rest.map Token.braced⟩

namespace Kind

/-- Neither layout nor a brace. -/
def IsPlain (k : Kind) : Prop :=
  k ∉ [.indent, .dedent, .symbol .openBrace, .symbol .closeBrace]

instance (k : Kind) : Decidable k.IsPlain :=
  inferInstanceAs (Decidable (_ ∉ _))

theorem braced_eq_iff {k k' : Kind} (h : k.IsPlain) : k'.braced = k ↔ k' = k := by
  constructor
  · intro hk
    subst hk
    cases k' with
    | indent => exact absurd (by simp [braced]) h
    | dedent => exact absurd (by simp [braced]) h
    | _ => rfl
  · rintro rfl
    cases k' with
    | indent => exact absurd (by simp) h
    | dedent => exact absurd (by simp) h
    | _ => rfl

theorem IsPlain.braced_eq {k : Kind} (h : k.IsPlain) : k.braced = k :=
  (braced_eq_iff h).2 rfl

@[simp] theorem braced_symbol (s : Symbol) : (Kind.symbol s).braced = .symbol s := rfl

theorem braced_eq_openBrace {k : Kind} :
    k.braced = .symbol .openBrace ↔ k = .symbol .openBrace ∨ k = .indent := by
  cases k <;> simp [braced]

theorem braced_eq_closeBrace {k : Kind} :
    k.braced = .symbol .closeBrace ↔ k = .symbol .closeBrace ∨ k = .dedent := by
  cases k <;> simp [braced]

end Kind

namespace Cursor

variable (c : Cursor)

@[simp] theorem here_braced : c.braced.here = c.here.braced := by
  cases hr : c.rest with
  | nil => simp [here, braced, hr, Token.endOfFile, Token.braced, Kind.braced]
  | cons t ts => simp [here, braced, hr]

@[simp] theorem last_braced : c.braced.last = c.last := rfl

@[simp] theorem onSameLine_braced : c.braced.onSameLine = c.onSameLine := by
  simp [onSameLine, Token.braced]

@[simp] theorem kindAt_braced (n : Nat) : c.braced.kindAt n = (c.kindAt n).braced := by
  unfold kindAt
  cases h : c.rest[n]? with
  | some t => simp [braced, h, Token.braced]
  | none =>
    cases hl : c.rest.getLast? with
    | some t => simp [braced, h, hl, Token.braced]
    | none => simp [braced, h, hl, Kind.braced]

@[simp] theorem advance_braced : c.braced.advance = c.advance.braced := by
  have hk : c.here.braced.kind = .endOfFile ↔ c.here.kind = .endOfFile :=
    Kind.braced_eq_iff (by decide)
  unfold advance
  rw [here_braced]
  by_cases h : c.here.kind = .endOfFile
  · rw [if_pos (hk.2 h), if_pos h]
  · rw [if_neg (mt hk.1 h), if_neg h]
    simp [braced, Token.braced, List.map_tail]

end Cursor

@[simp] theorem Token.kind_braced (t : Token) : t.braced.kind = t.kind.braced := rfl

@[simp] theorem Token.text_braced (t : Token) : t.braced.text = t.text := rfl

@[simp] theorem Token.span_braced (t : Token) : t.braced.span = t.span := rfl

@[simp] theorem Token.name_braced (t : Token) : t.braced.name = t.name := rfl

theorem Token.isWord_braced (t : Token) (word : String) : t.braced.isWord word = t.isWord word := by
  have h : t.kind.braced = .identifier ↔ t.kind = .identifier := Kind.braced_eq_iff (by decide)
  rw [Bool.eq_iff_iff]
  simp [isWord, h]

theorem Token.braced_eq {t : Token} {k : Kind} (h : t.kind = k) (hk : k.IsPlain) : t.braced = t := by
  subst h
  simp [braced, hk.braced_eq]

namespace Parser

variable {β : Type} (c : Cursor)

theorem accept_braced {k : Kind} (hk : k.IsPlain) (f : Bool → Parser β) :
    (accept k >>= f) c.braced =
      if c.here.kind = k then f true c.advance.braced else f false c.braced := by
  simp only [accept_bind, Cursor.here_braced, Token.kind_braced, Kind.braced_eq_iff hk,
    Cursor.advance_braced]

theorem expect_braced {k : Kind} (hk : k.IsPlain) (f : Token → Parser β) :
    (expect k >>= f) c.braced = if c.here.kind = k then f c.here c.advance.braced
      else .error ⟨.unexpected c.here.braced s!"'{k.describe}'", c.here.span⟩ := by
  simp only [expect_bind, Cursor.here_braced, Token.kind_braced, Kind.braced_eq_iff hk,
    Cursor.advance_braced, Token.span_braced]
  split
  · rename_i h
    rw [Token.braced_eq h hk]
  · rfl

theorem identifier_braced (what : String) (f : Name → Parser β) :
    (identifier what >>= f) c.braced =
      if c.here.kind = .identifier then f c.here.name c.advance.braced
      else .error ⟨.unexpected c.here.braced what, c.here.span⟩ := by
  simp only [identifier_bind, Cursor.here_braced, Token.kind_braced, Token.name_braced,
    Kind.braced_eq_iff (show Kind.IsPlain .identifier by decide), Cursor.advance_braced,
    Token.span_braced]

end Parser

/-! ### Reading the same -/

section Same

variable {α β : Type} {p q : Parser α} {f g : α → Parser β} {c c' : Cursor}
  {r r' : Except SyntaxError (α × Cursor)}

/-- Both fail, or both read the same, the second with braces for layout in what it leaves. -/
def Same (r r' : Except SyntaxError (α × Cursor)) : Prop :=
  (∀ a t, r = .ok (a, t) → r' = .ok (a, t.braced)) ∧
    ∀ e, r = .error e → ∃ e', r' = .error e'

theorem Same.ok (a : α) (c : Cursor) : Same (.ok (a, c)) (.ok (a, c.braced)) := by
  constructor
  · intro b t h
    cases h
    rfl
  · intro e h
    cases h

theorem Same.error (e e' : SyntaxError) : Same (α := α) (.error e) (.error e') := by
  constructor
  · intro b t h
    cases h
  · intro _ _
    exact ⟨e', rfl⟩

theorem Same.bind (hp : Same (p c) (q c'))
    (hf : ∀ a t, p c = .ok (a, t) → Same (f a t) (g a t.braced)) :
    Same ((p >>= f) c) ((q >>= g) c') := by
  show Same (p c >>= fun x => f x.1 x.2) (q c' >>= fun x => g x.1 x.2)
  cases hpc : p c with
  | error e =>
    obtain ⟨e', he'⟩ := hp.2 e hpc
    rw [he']
    exact .error e e'
  | ok x =>
    rw [hp.1 x.1 x.2 hpc]
    exact hf x.1 x.2 hpc

theorem Same.ite {P : Prop} [Decidable P] {u u' : Except SyntaxError (α × Cursor)}
    (h : P → Same r r') (h' : ¬ P → Same u u') :
    Same (if P then r else u) (if P then r' else u') := by
  split
  · rename_i hP
    exact h hP
  · rename_i hP
    exact h' hP

end Same

namespace Parser

section Repetitions

variable {α β : Type} {item : Parser α} {k : Kind} {c : Cursor}

theorem same_next {f g : Token → Parser β}
    (h : Same (f c.here c.advance) (g c.here.braced c.advance.braced)) :
    Same ((next >>= f) c) ((next >>= g) c.braced) := by
  rwa [next_bind, next_bind, Cursor.here_braced, Cursor.advance_braced]

theorem same_accept {f g : Bool → Parser β} (hk : k.IsPlain)
    (h : c.here.kind = k → Same (f true c.advance) (g true c.advance.braced))
    (h' : c.here.kind ≠ k → Same (f false c) (g false c.braced)) :
    Same ((accept k >>= f) c) ((accept k >>= g) c.braced) := by
  rw [accept_bind, accept_braced c hk]
  exact .ite h h'

theorem same_expect {f g : Token → Parser β} (hk : k.IsPlain)
    (h : c.here.kind = k → Same (f c.here c.advance) (g c.here c.advance.braced)) :
    Same ((expect k >>= f) c) ((expect k >>= g) c.braced) := by
  rw [expect_bind, expect_braced c hk]
  exact .ite h fun _ => .error _ _

theorem same_identifier {f g : Name → Parser β} {what : String}
    (h : c.here.kind = .identifier →
      Same (f c.here.name c.advance) (g c.here.name c.advance.braced)) :
    Same ((identifier what >>= f) c) ((identifier what >>= g) c.braced) := by
  rw [identifier_bind, identifier_braced]
  exact .ite h fun _ => .error _ _

theorem same_after (hk : k.IsPlain) (h : ∀ c, Same (item c) (item c.braced)) :
    Same (after k item c) (after k item c.braced) := by
  refine same_accept hk (fun _ => ?_) fun _ => ?_
  · exact .bind (h _) fun _ _ _ => .ok _ _
  · exact .ok _ _

theorem same_commaList (h : ∀ c, Same (item c) (item c.braced)) :
    ∀ (budget : Nat) (c : Cursor), Same (commaList item budget c) (commaList item budget c.braced)
  | 0, _ => .ok _ _
  | budget + 1, c => by
    refine .bind (h c) fun a t _ => same_accept (by decide) (fun _ => ?_) fun _ => ?_
    · exact .bind (same_commaList h budget _) fun _ _ _ => .ok _ _
    · exact .ok _ _

theorem same_listUntil (hk : k.IsPlain) (h : ∀ c, Same (item c) (item c.braced)) :
    ∀ (budget : Nat) (c : Cursor),
      Same (listUntil k item budget c) (listUntil k item budget c.braced)
  | 0, _ => .ok _ _
  | budget + 1, c => by
    simp only [listUntil, kind_bind, ite_run, Cursor.here_braced, Token.kind_braced,
      Kind.braced_eq_iff hk]
    refine .ite (fun _ => .ok _ _) fun _ => ?_
    refine .bind (h c) fun a t _ => same_accept (by decide) (fun _ => ?_) fun _ => ?_
    · exact .bind (same_listUntil hk h budget _) fun _ _ _ => .ok _ _
    · exact .ok _ _

end Repetitions

section Types

variable {inner : Parser TypeExpr} (h : ∀ c, Same (inner c) (inner c.braced))
include h

theorem same_unionTail : ∀ (budget : Nat) (c : Cursor),
    Same (unionTail inner budget c) (unionTail inner budget c.braced)
  | 0, _ => .ok _ _
  | budget + 1, c => by
    refine same_accept (by decide) (fun _ => ?_) fun _ => .ok _ _
    exact .bind (h _) fun _ t _ => .bind (same_unionTail budget t) fun _ _ _ => .ok _ _

omit h in
theorem same_brackets : ∀ (budget : Nat) (type : TypeExpr) (c : Cursor),
    Same (brackets budget type c) (brackets budget type c.braced)
  | 0, _, _ => .ok _ _
  | budget + 1, type, c => by
    simp only [brackets, kind_bind, kindAt_bind, next_bind, ite_run, Cursor.here_braced,
      Token.kind_braced, Cursor.kindAt_braced, Cursor.advance_braced, Token.span_braced,
      Kind.braced_eq_iff (show Kind.IsPlain (.symbol .openBracket) by decide),
      Kind.braced_eq_iff (show Kind.IsPlain (.symbol .closeBracket) by decide)]
    exact .ite (fun _ => same_brackets budget _ _) fun _ => .ok _ _

theorem same_simpleType (budget : Nat) (c : Cursor) :
    Same (simpleType inner budget c) (simpleType inner budget c.braced) := by
  simp only [simpleType, kind_bind, Cursor.here_braced, Token.kind_braced]
  generalize hk : c.here.kind = k
  split
  · refine same_identifier fun _ => ?_
    cases Primitive.ofName? c.here.name.text with
    | some type => exact .ok _ _
    | none =>
      refine same_accept (by decide) (fun _ => ?_) fun _ => .ok _ _
      refine .bind (same_commaList h budget _) fun _ t _ => ?_
      exact same_expect (by decide) fun _ => .ok _ _
  · refine same_next (same_expect (by decide) fun _ => ?_)
    refine .bind (same_listUntil (by decide) h budget _) fun _ t _ => ?_
    refine same_expect (by decide) fun _ => ?_
    exact .bind (same_after (by decide) h) fun _ _ _ => .ok _ _
  · refine same_next (.bind (h _) fun _ t _ => ?_)
    exact same_expect (by decide) fun _ => .ok _ _
  · rename_i hi hf ho
    generalize hb : k.braced = b
    split
    · exact absurd ((Kind.braced_eq_iff (by decide)).1 hb) hi
    · exact absurd ((Kind.braced_eq_iff (by decide)).1 hb) hf
    · exact absurd ((Kind.braced_eq_iff (by decide)).1 hb) ho
    · exact .error _ _

theorem same_unionType (budget : Nat) (c : Cursor) :
    Same (unionType inner budget c) (unionType inner budget c.braced) := by
  have hb : ∀ c, Same (bracketType inner budget c) (bracketType inner budget c.braced) := fun c =>
    .bind (same_simpleType h budget c) fun _ t _ => same_brackets budget _ t
  refine .bind (hb c) fun _ t _ => ?_
  simp only [kind_bind, ite_run, Cursor.here_braced, Token.kind_braced,
    Kind.braced_eq_iff (show Kind.IsPlain (.symbol .pipe) by decide)]
  refine .ite (fun _ => ?_) fun _ => .ok _ _
  exact .bind (same_unionTail hb budget t) fun _ _ _ => .ok _ _

end Types

/-- An annotation is read the same with braces for layout. -/
theorem same_typeExpr : ∀ (budget : Nat) (c : Cursor),
    Same (typeExpr budget c) (typeExpr budget c.braced)
  | 0, _ => .error _ _
  | budget + 1, c => same_unionType (same_typeExpr budget) budget c

end Parser

end Sable
