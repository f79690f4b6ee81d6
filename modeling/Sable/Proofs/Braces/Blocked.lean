import Sable.Proofs.Braces.Types

/-!
# Blocked tokens

`TypeLike` and `Blocked` describe lists of tokens that the rules for annotations can read up to an
indent. In `Name<T> {` the brace opens an object. With an indent in its place `<` is a comparison, and
what follows the name is `Blocked`: no rule reads past the indent. `BlockedBefore`: a list from which a
rule leaves a blocked one is blocked.
-/

namespace Sable

open Sable.Parser

/-- Tokens that annotations are made of, up to an indent. -/
inductive TypeLike : List Token → Prop
  | indent {t : Token} {ts : List Token} (h : t.kind = .indent) : TypeLike (t :: ts)
  | cons {t : Token} {ts : List Token} (h : t.kind ∈ typeKinds) (hts : TypeLike ts) :
      TypeLike (t :: ts)

def Symbol.closer? : Symbol → Option Symbol
  | .openParen => some .closeParen
  | .openBracket => some .closeBracket
  | _ => none

def Symbol.IsCloser (s : Symbol) : Prop :=
  s = .closeParen ∨ s = .closeBracket

/-- Tokens that annotations are made of, up to a comparison with an indent behind it, or up to a
function type. The list holds the signs that close what is open, innermost first. -/
inductive Blocked : List Symbol → List Token → Prop
  | word {st : List Symbol} {t : Token} {ts : List Token}
      (h : t.kind ∈ [.identifier, .symbol .less, .symbol .greater, .symbol .comma, .symbol .pipe])
      (hts : Blocked st ts) : Blocked st (t :: ts)
  | opening {st : List Symbol} {t : Token} {ts : List Token} {s s' : Symbol}
      (h : t.kind = .symbol s) (hs : s.closer? = some s') (hts : Blocked (s' :: st) ts) :
      Blocked st (t :: ts)
  | closing {st : List Symbol} {t : Token} {ts : List Token} {s : Symbol}
      (h : t.kind = .symbol s) (hs : s.IsCloser) (hts : Blocked st ts) : Blocked (s :: st) (t :: ts)
  | function {st : List Symbol} {t u : Token} {ts : List Token} (h : t.kind = .keyword .fnWord)
      (hu : u.kind = .symbol .openParen) (hts : TypeLike ts) : Blocked st (t :: u :: ts)
  | wall {st : List Symbol} {t u : Token} {ts : List Token} (h : t.kind = .symbol .greater)
      (hu : u.kind = .indent) : Blocked st (t :: u :: ts)

/-! ### Tokens of annotations up to an indent -/

namespace TypeLike

theorem indent_notMem : Kind.indent ∉ typeKinds := by decide

theorem append {used ts : List Token} (hu : ∀ x ∈ used, x.kind ∈ typeKinds) (h : TypeLike ts) :
    TypeLike (used ++ ts) := by
  induction used with
  | nil => exact h
  | cons x used ih =>
    exact .cons (hu x (by simp)) (ih fun y hy => hu y (List.mem_cons_of_mem _ hy))

theorem of_append {used ts : List Token} (hu : ∀ x ∈ used, x.kind ∈ typeKinds)
    (h : TypeLike (used ++ ts)) : TypeLike ts := by
  induction used with
  | nil => exact h
  | cons x used ih =>
    refine ih (fun y hy => hu y (List.mem_cons_of_mem _ hy)) ?_
    cases h with
    | indent hx => exact absurd (hx ▸ hu x (by simp)) indent_notMem
    | cons _ hts => exact hts

theorem here {c : Cursor} (h : TypeLike c.rest) :
    c.here.kind = .indent ∨ c.here.kind ∈ typeKinds := by
  cases hr : c.rest with
  | nil => rw [hr] at h; cases h
  | cons t ts =>
    rw [hr] at h
    have ht : c.here = t := by simp [Cursor.here, hr]
    rw [ht]
    cases h with
    | indent hx => exact .inl hx
    | cons hx _ => exact .inr hx

theorem advance {c : Cursor} (h : TypeLike c.rest) (hk : c.here.kind ≠ .indent) :
    TypeLike c.advance.rest := by
  have hne : c.here.kind ≠ .endOfFile := by
    intro he
    rcases h.here with hi | hi
    · exact hk hi
    · exact absurd (he ▸ hi) (by decide)
  rw [Cursor.rest_eq_of_kind rfl hne] at h
  generalize c.here = x at h hk
  generalize c.advance.rest = ts at h ⊢
  cases h with
  | indent hx => exact absurd hx hk
  | cons _ hts => exact hts

end TypeLike

/-! ### The head of what is blocked -/

namespace Blocked

variable {st : List Symbol} {t : Token} {ts : List Token} {c : Cursor}

theorem kind_mem (h : Blocked st ts) : ∃ t us, ts = t :: us ∧ t.kind ∈ typeKinds := by
  cases h with
  | word h hts =>
    refine ⟨_, _, rfl, ?_⟩
    revert h
    generalize Token.kind _ = k
    simp only [typeKinds, List.mem_cons, List.not_mem_nil, or_false]
    rintro (rfl | rfl | rfl | rfl | rfl) <;> simp
  | opening h hs hts =>
    refine ⟨_, _, rfl, ?_⟩
    rw [h]
    unfold Symbol.closer? at hs
    split at hs <;> simp [typeKinds] at hs ⊢
  | closing h hs hts =>
    refine ⟨_, _, rfl, ?_⟩
    rw [h]
    rcases hs with rfl | rfl <;> decide
  | function h hu hts => exact ⟨_, _, rfl, by rw [h]; decide⟩
  | wall h hu => exact ⟨_, _, rfl, by rw [h]; decide⟩

theorem here_mem (h : Blocked st c.rest) : c.here.kind ∈ typeKinds := by
  obtain ⟨t, us, hr, ht⟩ := h.kind_mem
  simpa [Cursor.here, hr] using ht

theorem rest_eq (h : Blocked st c.rest) : c.rest = c.here :: c.advance.rest :=
  Cursor.rest_eq_of_kind rfl fun he => by simpa [he, typeKinds] using h.here_mem

/-- A word in front is read off, unless it is the comparison in front of the indent. -/
theorem advance (h : Blocked st c.rest)
    (hk : c.here.kind ∈ [.identifier, .symbol .less, .symbol .comma, .symbol .greater]) :
    Blocked st c.advance.rest ∨
      c.here.kind = .symbol .greater ∧ c.advance.here.kind = .indent := by
  have hr := h.rest_eq
  rw [hr] at h
  generalize hc : c.here = x at h hk ⊢
  generalize hts : c.advance.rest = ts at h ⊢
  cases h with
  | word _ hts => exact .inl hts
  | opening h hs _ =>
    simp only [h, List.mem_cons, List.not_mem_nil, Kind.symbol.injEq, reduceCtorEq, false_or,
      or_false] at hk
    rcases hk with rfl | rfl | rfl <;> cases hs
  | closing h hs _ =>
    rw [h] at hk
    rcases hs with rfl | rfl <;> simp at hk
  | function h _ _ => simp [h] at hk
  | wall h hu => exact .inr ⟨h, by simpa [Cursor.here, hts] using hu⟩

theorem opened {s s' : Symbol} (h : Blocked st c.rest) (hk : c.here.kind = .symbol s)
    (hs : s.closer? = some s') : Blocked (s' :: st) c.advance.rest := by
  have hr := h.rest_eq
  rw [hr] at h
  generalize c.here = x at h hk
  generalize c.advance.rest = ts at h ⊢
  cases h with
  | word h _ =>
    rw [hk] at h
    unfold Symbol.closer? at hs
    split at hs <;> simp at h hs
  | opening h hs' hts =>
    obtain rfl := Kind.symbol.inj (hk.symm.trans h)
    obtain rfl := Option.some.inj (hs.symm.trans hs')
    exact hts
  | closing h hs' _ =>
    obtain rfl := Kind.symbol.inj (hk.symm.trans h)
    rcases hs' with rfl | rfl <;> cases hs
  | function h _ _ => cases hk.symm.trans h
  | wall h _ =>
    obtain rfl := Kind.symbol.inj (hk.symm.trans h)
    cases hs

theorem closed {s : Symbol} (h : Blocked st c.rest) (hk : c.here.kind = .symbol s)
    (hs : s.IsCloser) : ∃ st', st = s :: st' ∧ Blocked st' c.advance.rest := by
  have hr := h.rest_eq
  rw [hr] at h
  generalize c.here = x at h hk
  generalize c.advance.rest = ts at h ⊢
  cases h with
  | word h _ =>
    rw [hk] at h
    rcases hs with rfl | rfl <;> simp at h
  | opening h hs' _ =>
    obtain rfl := Kind.symbol.inj (hk.symm.trans h)
    rcases hs with rfl | rfl <;> cases hs'
  | closing h _ hts =>
    obtain rfl := Kind.symbol.inj (hk.symm.trans h)
    exact ⟨_, rfl, hts⟩
  | function h _ _ => cases hk.symm.trans h
  | wall h _ =>
    obtain rfl := Kind.symbol.inj (hk.symm.trans h)
    rcases hs with hs | hs <;> cases hs

theorem function_inv (h : Blocked st c.rest) (hk : c.here.kind = .keyword .fnWord) :
    c.advance.here.kind = .symbol .openParen := by
  have hr := h.rest_eq
  rw [hr] at h
  generalize c.here = x at h hk
  generalize hts : c.advance.rest = ts at h
  cases h with
  | word h _ => simp [hk] at h
  | opening h _ _ => cases hk.symm.trans h
  | closing h _ _ => cases hk.symm.trans h
  | function _ hu _ => simpa [Cursor.here, hts] using hu
  | wall h _ => cases hk.symm.trans h

theorem typeLike (h : Blocked st ts) : TypeLike ts := by
  have hmem : ∀ {st t ts}, Blocked st (t :: ts) → t.kind ∈ typeKinds := by
    intro st t ts h
    obtain ⟨_, _, heq, ht⟩ := h.kind_mem
    cases heq
    exact ht
  induction h with
  | word h hts ih => exact .cons (hmem (.word h hts)) ih
  | opening h hs hts ih => exact .cons (hmem (.opening h hs hts)) ih
  | closing h hs hts ih => exact .cons (hmem (.closing h hs hts)) ih
  | function h hu hts =>
    exact .cons (by rw [h]; decide) (.cons (by rw [hu]; decide) hts)
  | wall h hu => exact .cons (by rw [h]; decide) (.indent hu)

end Blocked

/-! ### Annotations in front of what is blocked -/

section Before

variable {α β : Type} {p : Parser α} {f : α → Parser β} {c : Cursor}
  {r : Except SyntaxError (α × Cursor)}

/-- If what reading leaves is blocked, so is what there was. -/
def BlockedBefore (c : Cursor) (r : Except SyntaxError (α × Cursor)) : Prop :=
  ∀ st a t, r = .ok (a, t) → Blocked st t.rest → Blocked st c.rest

theorem BlockedBefore.error (e : SyntaxError) :
    BlockedBefore c (.error e : Except SyntaxError (α × Cursor)) := by
  intro st a t h
  cases h

theorem BlockedBefore.ok (a : α) : BlockedBefore c (.ok (a, c)) := by
  intro st b t h hb
  cases h
  exact hb

theorem BlockedBefore.bind (hp : BlockedBefore c (p c))
    (hf : ∀ a t, p c = .ok (a, t) → BlockedBefore t (f a t)) : BlockedBefore c ((p >>= f) c) := by
  intro st b u h hb
  obtain ⟨a, t, h1, h2⟩ := bind_eq_ok.1 h
  exact hp st a t h1 (hf a t h1 st b u h2 hb)

theorem BlockedBefore.word {k : Kind} (hc : c.here.kind = k)
    (hk : k ∈ [.identifier, .symbol .less, .symbol .greater, .symbol .comma, .symbol .pipe])
    (h : BlockedBefore c.advance r) : BlockedBefore c r := by
  intro st a t hr hb
  rw [Cursor.rest_eq_of_kind hc (by rintro rfl; simp at hk)]
  exact .word (hc ▸ hk) (h st a t hr hb)

end Before

/-- Something between a sign and its closer is blocked with what stands behind it. -/
theorem Blocked.enclose {st : List Symbol} {s s' : Symbol} {c t : Cursor}
    (hc : c.here.kind = .symbol s) (hs : s.closer? = some s') (ht : t.here.kind = .symbol s')
    (hi : ∀ st, Blocked st t.rest → Blocked st c.advance.rest) (h : Blocked st t.advance.rest) :
    Blocked st c.rest := by
  have hs' : s'.IsCloser := by
    unfold Symbol.closer? at hs
    split at hs <;> simp at hs <;> subst hs <;> simp [Symbol.IsCloser]
  rw [Cursor.rest_eq_of_kind hc (by simp)]
  refine .opening hc hs (hi _ ?_)
  rw [Cursor.rest_eq_of_kind ht (by simp)]
  exact .closing ht hs' h

namespace Parser

section Types

variable {α : Type} {item : Parser α} {inner : Parser TypeExpr}

theorem before_commaList (h : ∀ c, BlockedBefore c (item c)) :
    ∀ (budget : Nat) (c : Cursor), BlockedBefore c (commaList item budget c)
  | 0, _ => .ok _
  | budget + 1, c => by
    refine .bind (h c) fun a t _ => ?_
    simp only [accept_bind]
    split
    · rename_i ht
      exact .word ht (by simp) (.bind (before_commaList h budget _) fun _ _ _ => .ok _)
    · exact .ok _

theorem before_unionTail (h : ∀ c, BlockedBefore c (inner c)) :
    ∀ (budget : Nat) (c : Cursor), BlockedBefore c (unionTail inner budget c)
  | 0, _ => .ok _
  | budget + 1, c => by
    simp only [unionTail, accept_bind]
    split
    · rename_i hc
      refine .word hc (by simp) (.bind (h _) fun _ t _ => ?_)
      exact .bind (before_unionTail h budget t) fun _ _ _ => .ok _
    · exact .ok _

theorem before_brackets : ∀ (budget : Nat) (type : TypeExpr) (c : Cursor),
    BlockedBefore c (brackets budget type c)
  | 0, _, _ => .ok _
  | budget + 1, type, c => by
    simp only [brackets, kind_bind, kindAt_bind, next_bind, ite_run]
    split
    · rename_i hc
      have hc' := Cursor.here_advance hc.1 (by simp) hc.2 (by simp)
      intro st a t hr hb
      exact .enclose hc.1 rfl hc' (fun _ h => h) (before_brackets budget _ _ st a t hr hb)
    · exact .ok _

theorem before_simpleType (hr : ∀ {n} c, Reads n 0 (· ∈ typeKinds) c (inner c))
    (h : ∀ c, BlockedBefore c (inner c)) (budget : Nat) (c : Cursor) :
    BlockedBefore c (simpleType inner budget c) := by
  -- A function type may hold arrows, so that only the kinds of its tokens are known.
  have hfn : c.here.kind = .keyword .fnWord → c.advance.here.kind = .symbol .openParen →
      BlockedBefore c (simpleType inner budget c) := by
    intro hf ho st a t ht hb
    obtain ⟨used, hu, hk, -⟩ := Reads.exists_used (reads_simpleType hr budget c) ht
    have hall := TypeLike.append hk hb.typeLike
    have h1 := Cursor.rest_eq_of_kind hf (by simp)
    have h2 := Cursor.rest_eq_of_kind ho (by simp)
    simp only [unread_cursor] at hu hall
    rw [← hu] at hall
    rw [h1, h2]
    exact .function hf ho ((hall.advance (by simp [hf])).advance (by simp [ho]))
  simp only [simpleType, kind_bind] at hfn ⊢
  generalize hk : c.here.kind = k at hfn ⊢
  split
  · simp only [identifier_bind, if_pos hk]
    refine .word hk (by simp) ?_
    cases Primitive.ofName? c.here.name.text with
    | some type => exact .ok _
    | none =>
      simp only [accept_bind]
      split
      · rename_i hl
        refine .word hl (by simp) (.bind (before_commaList h budget _) fun _ t _ => ?_)
        simp only [expect_bind]
        split
        · rename_i hg
          exact .word hg (by simp) (.ok _)
        · exact .error _
      · exact .ok _
  · by_cases ho : c.advance.here.kind = .symbol .openParen
    · exact hfn rfl ho
    · simp only [next_bind, expect_bind, if_neg ho]
      exact .error _
  · intro st a t ht hb
    rw [next_bind] at ht
    obtain ⟨type, u, hu, ht⟩ := bind_eq_ok.1 ht
    rw [expect_bind] at ht
    split at ht
    · rename_i hc
      cases ht
      exact .enclose hk rfl hc (fun st => h _ st _ _ hu) hb
    · cases ht
  · exact .error _

theorem before_unionType (hr : ∀ {n} c, Reads n 0 (· ∈ typeKinds) c (inner c))
    (h : ∀ c, BlockedBefore c (inner c)) (budget : Nat) (c : Cursor) :
    BlockedBefore c (unionType inner budget c) := by
  have hb : ∀ c, BlockedBefore c (bracketType inner budget c) := fun c =>
    .bind (before_simpleType hr h budget c) fun _ t _ => before_brackets budget _ t
  refine .bind (hb c) fun _ t _ => ?_
  simp only [kind_bind, ite_run]
  split
  · exact .bind (before_unionTail hb budget t) fun _ _ _ => .ok _
  · exact .ok _

theorem before_typeExpr : ∀ (budget : Nat) (c : Cursor), BlockedBefore c (typeExpr budget c)
  | 0, _ => .error _
  | budget + 1, c => before_unionType (reads_typeExpr budget) (before_typeExpr budget) budget c

end Types

/-! ### Type arguments in front of an object -/

theorem genericHead_eq {budget : Nat} {c : Cursor} (h : c.here.kind = .identifier) :
    genericHead budget c = (do
      let args ← commaList (typeExpr budget) budget
      let _ ← expect (.symbol .greater)
      if (← kind) = .symbol .openBrace then return (c.here.name, args)
      else unexpected "an object" : Parser (Name × List TypeExpr)) c.advance.advance := by
  simp only [genericHead, identifier_bind, next_bind, if_pos h]

theorem genericHead_ok {budget : Nat} {c t : Cursor} {head : Name × List TypeExpr}
    (h : genericHead budget c = .ok (head, t)) : c.here.kind = .identifier ∧
      ∃ u, commaList (typeExpr budget) budget c.advance.advance = .ok (head.2, u) ∧
        u.here.kind = .symbol .greater ∧ t = u.advance ∧ t.here.kind = .symbol .openBrace ∧
          head.1 = c.here.name := by
  by_cases hi : c.here.kind = .identifier
  · rw [genericHead_eq hi] at h
    obtain ⟨args, u, hu, h⟩ := bind_eq_ok.1 h
    simp only [expect_bind, kind_bind, ite_run] at h
    split at h
    · rename_i hg
      split at h
      · rename_i ho
        cases h
        exact ⟨hi, u, hu, hg, rfl, ho, rfl⟩
      · cases h
    · cases h
  · simp only [genericHead, identifier_bind, if_neg hi] at h
    cases h

/-- Type arguments are not those of an object if there is nothing but annotations up to an indent. -/
theorem genericHead_typeLike {budget : Nat} {c t : Cursor} {head : Name × List TypeExpr}
    (h : TypeLike c.rest) (hk : c.kindAt 1 = .symbol .less) :
    genericHead budget c ≠ .ok (head, t) := by
  intro hg
  obtain ⟨hi, u, hu, hgt, rfl, ho, -⟩ := genericHead_ok hg
  have hl := Cursor.here_advance hi (by simp) hk (by simp)
  have hargs : TypeLike c.advance.advance.rest :=
    (h.advance (by simp [hi])).advance (by simp [hl])
  obtain ⟨used, hused, hkinds, -⟩ :=
    Reads.exists_used (reads_commaList (by decide) (reads_typeExpr budget) budget _) hu
  have hrest : TypeLike u.rest := TypeLike.of_append hkinds (hused ▸ hargs)
  rcases (hrest.advance (by simp [hgt])).here with hi | hi <;> simp [ho, typeKinds] at hi

/-- Where only braces make an object of a name with type arguments behind it, what follows the name
is blocked. -/
theorem blocked_of_genericHead {budget : Nat} {c t : Cursor} {head : Name × List TypeExpr}
    (hc : ∀ t, genericHead budget c ≠ .ok (head, t))
    (hb : genericHead budget c.braced = .ok (head, t)) (hk : c.kindAt 1 = .symbol .less) :
    Blocked [] c.advance.rest := by
  obtain ⟨hi, v, hv, hgt, rfl, ho, hname⟩ := genericHead_ok hb
  simp only [Cursor.here_braced, Token.kind_braced, Cursor.advance_braced] at hi hv hname
  rw [Kind.braced_eq_iff (by decide)] at hi
  have hl := Cursor.here_advance hi (by simp) hk (by simp)
  -- The arguments are read the same without the braces.
  have hsame := same_commaList (same_typeExpr budget) budget c.advance.advance
  obtain ⟨u, hu, rfl⟩ : ∃ u, commaList (typeExpr budget) budget c.advance.advance = .ok (head.2, u) ∧
      v = u.braced := by
    cases hu : commaList (typeExpr budget) budget c.advance.advance with
    | error e =>
      obtain ⟨e', he'⟩ := hsame.2 e hu
      rw [he'] at hv
      cases hv
    | ok x =>
      obtain ⟨h1, h2⟩ := Prod.mk.inj (Except.ok.inj (hv.symm.trans (hsame.1 x.1 x.2 hu)))
      exact ⟨x.2, by rw [h1], h2⟩
  simp only [Cursor.here_braced, Token.kind_braced, Cursor.advance_braced] at hgt ho
  rw [Kind.braced_eq_iff (by decide)] at hgt
  rcases Kind.braced_eq_openBrace.1 ho with ho | ho
  · refine absurd ?_ (hc u.advance)
    have hhead : (c.here.name, head.2) = head := by
      rw [← Token.name_braced, ← hname]
    rw [genericHead_eq hi]
    refine bind_eq_ok.2 ⟨head.2, u, hu, ?_⟩
    simp only [expect_bind, if_pos hgt, kind_bind, ite_run, if_pos ho, hhead]
    rfl
  · have hwall : Blocked [] u.rest := by
      rw [Cursor.rest_eq_of_kind hgt (by simp), Cursor.rest_eq_of_kind ho (by simp)]
      exact .wall hgt ho
    rw [Cursor.rest_eq_of_kind hl (by simp)]
    exact .word (by simp [hl]) (before_commaList (before_typeExpr budget) budget _ _ _ _ hu hwall)

end Parser

end Sable
