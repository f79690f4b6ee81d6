import Sable.Proofs.Braces.Blocked

/-!
# Expressions with braces in place of layout

`Follows T`: what a rule reads, it reads with braces for layout too, unless it ends where `T` holds. For
expressions `T` is `Doomed`: in front of an indent or of a `Blocked` list, where a brace may open an
object. `Tame` excludes this.
-/

namespace Sable

open Sable.Parser

section Follows

variable {σ α β : Type} [Located σ] {p q : StateT σ (Except SyntaxError) α}
  {f g : α → StateT σ (Except SyntaxError) β} {s : σ} {r r' : Except SyntaxError (α × σ)}
  {objects : Bool}

/-- The kind of the next token. -/
def ahead (s : σ) : Kind :=
  (Located.cursor s).here.kind

@[simp] theorem ahead_cursor (c : Cursor) : ahead c = c.here.kind := rfl

/-- The same place, with braces for layout in what is left. -/
def rebraced (s : σ) : σ :=
  Located.moved s (Located.cursor s).braced

@[simp] theorem rebraced_cursor (c : Cursor) : rebraced c = c.braced := rfl

/-- Objects may stand here, and the tokens ahead are `Blocked` or begin with an indent, so that no
rule reads a whole expression from them. -/
def Doomed (objects : Bool) (s : σ) : Prop :=
  objects = true ∧ (Blocked [] (unread s) ∨ ahead s = .indent)

/-- What `r` has read, `r'` has read with braces for layout, unless `r` ends where `T` holds. -/
def Follows (T : σ → Prop) (r r' : Except SyntaxError (α × σ)) : Prop :=
  ∀ a t, r = .ok (a, t) → T t ∨ r' = .ok (a, rebraced t)

/-- `Follows` with `Doomed` for `T`; and where the tokens ahead were blocked or began with an
indent, those left by `r` are so too. -/
structure Tame (objects : Bool) (s : σ) (r r' : Except SyntaxError (α × σ)) : Prop where
  follows : Follows (Doomed objects) r r'
  blocked : ∀ a t st, r = .ok (a, t) → Blocked st (unread s) → Blocked st (unread t)
  indent : ∀ a t, r = .ok (a, t) → ahead s = .indent → ahead t = .indent

/-- `p` reads nothing where a block opens or closes by layout, or closes by a brace. -/
def Refuses (p : StateT σ (Except SyntaxError) α) : Prop :=
  ∀ s, ahead s ∈ [.indent, .dedent, .symbol .closeBrace] → ∀ a t, p s ≠ .ok (a, t)

theorem Follows.error {T : σ → Prop} (e : SyntaxError) :
    Follows T (.error e : Except SyntaxError (α × σ)) r' := by
  intro a t h
  cases h

theorem Follows.ok {T : σ → Prop} (a : α) : Follows T (.ok (a, s)) (.ok (a, rebraced s)) := by
  intro b t h
  cases h
  exact .inr rfl

theorem Follows.bind {T : σ → Prop} (hp : Follows T (p s) (q (rebraced s)))
    (hf : ∀ a t, p s = .ok (a, t) → Follows T (f a t) (g a (rebraced t)))
    (hT : ∀ a t b u, p s = .ok (a, t) → f a t = .ok (b, u) → T t → T u) :
    Follows T ((p >>= f) s) ((q >>= g) (rebraced s)) := by
  intro b u h
  obtain ⟨a, t, h1, h2⟩ := bind_eq_ok.1 h
  rcases hp a t h1 with ht | hq
  · exact .inl (hT a t b u h1 h2 ht)
  · rcases hf a t h1 b u h2 with hu | hg
    · exact .inl hu
    · exact .inr (bind_eq_ok.2 ⟨a, _, hq, hg⟩)

theorem Follows.map {T : σ → Prop} {f : α → β} (hp : Follows T (p s) (q (rebraced s))) :
    Follows T ((p >>= fun a => Pure.pure (f a)) s) ((q >>= fun a => Pure.pure (f a)) (rebraced s)) :=
  .bind hp (fun _ _ _ => .ok _) fun _ _ _ _ _ h ht => by
    cases h
    exact ht

theorem Tame.error (e : SyntaxError) : Tame objects s (.error e : Except SyntaxError (α × σ)) r' where
  follows := .error e
  blocked _ _ _ h := by cases h
  indent _ _ h := by cases h

theorem Tame.ok (a : α) : Tame objects s (.ok (a, s)) (.ok (a, rebraced s)) where
  follows := .ok a
  blocked b t st h := by
    cases h
    exact id
  indent b t h := by
    cases h
    exact id

theorem Tame.bind (hp : Tame objects s (p s) (q (rebraced s)))
    (hf : ∀ a t, p s = .ok (a, t) → Tame objects t (f a t) (g a (rebraced t))) :
    Tame objects s ((p >>= f) s) ((q >>= g) (rebraced s)) where
  follows := by
    refine .bind hp.follows (fun a t h => (hf a t h).follows) fun a t b u h1 h2 ht => ?_
    refine ⟨ht.1, ht.2.imp ?_ ?_⟩
    · exact (hf a t h1).blocked b u [] h2
    · exact (hf a t h1).indent b u h2
  blocked b u st h hb := by
    obtain ⟨a, t, h1, h2⟩ := bind_eq_ok.1 h
    exact (hf a t h1).blocked b u st h2 (hp.blocked a t st h1 hb)
  indent b u h hi := by
    obtain ⟨a, t, h1, h2⟩ := bind_eq_ok.1 h
    exact (hf a t h1).indent b u h2 (hp.indent a t h1 hi)

/-- In front of a token that is neither an indent nor part of an annotation, only what is read
counts. -/
theorem Tame.of_follows (hk : ahead s ∉ typeKinds) (hi : ahead s ≠ .indent)
    (h : Follows (Doomed objects) r r') : Tame objects s r r' where
  follows := h
  blocked _ _ _ _ hb := absurd hb.here_mem hk
  indent _ _ _ hs := absurd hs hi

theorem Tame.ite {P : Prop} [Decidable P] {u u' : Except SyntaxError (α × σ)}
    (h : P → Tame objects s r r') (h' : ¬ P → Tame objects s u u') :
    Tame objects s (if P then r else u) (if P then r' else u') := by
  split
  · rename_i hP
    exact h hP
  · rename_i hP
    exact h' hP

theorem Refuses.bind (h : Refuses p) : Refuses (p >>= f) := by
  intro s hs b u hu
  obtain ⟨a, t, ht, -⟩ := bind_eq_ok.1 hu
  exact h s hs a t ht

end Follows

/-! ### One token at a time -/

section Steps

variable {α β : Type} {c : Cursor} {objects : Bool} {k : Kind}

/-- A word of an annotation is read, unless it is a comparison with an indent behind it from which
something would be read. -/
theorem Tame.word {r r' : Except SyntaxError (α × Cursor)}
    (hc : c.here.kind ∈ [.identifier, .symbol .less, .symbol .comma, .symbol .greater])
    (h : Tame objects c.advance r r')
    (hr : c.here.kind = .symbol .greater → c.advance.here.kind = .indent → ∀ a t, r ≠ .ok (a, t)) :
    Tame objects c r r' where
  follows := h.follows
  blocked a t st ht hb := by
    rcases Blocked.advance (c := c) hb hc with hb | ⟨hg, hi⟩
    · exact h.blocked a t st ht hb
    · exact absurd ht (hr hg hi a t)
  indent a t _ hi := by
    rw [show c.here.kind = .indent from hi] at hc
    simp at hc

/-- Neither layout nor a brace, and if part of an annotation, a word other than a comparison. -/
def Kind.Passes (k : Kind) : Prop :=
  k.IsPlain ∧ (k ∈ [.identifier, .symbol .less, .symbol .comma] ∨ k ∉ typeKinds)

instance (k : Kind) : Decidable k.Passes :=
  inferInstanceAs (Decidable (_ ∧ (_ ∈ _ ∨ _ ∉ _)))

theorem Kind.IsPlain.ne_indent (h : k.IsPlain) : k ≠ .indent := by
  rintro rfl
  exact h (by simp)

theorem Tame.advance {r r' : Except SyntaxError (α × Cursor)} (hc : c.here.kind = k)
    (hk : k.Passes) (h : Tame objects c.advance r r') : Tame objects c r r' := by
  rcases hk.2 with hw | hw
  · refine .word (hc ▸ List.mem_append_left [Kind.symbol .greater] hw) h fun hg => ?_
    rw [← hc, hg] at hw
    simp at hw
  · refine .of_follows ?_ ?_ h.follows
    · rwa [ahead_cursor, hc]
    · rw [ahead_cursor, hc]
      exact hk.1.ne_indent

theorem tame_accept {f g : Bool → Parser β} (hk : k.Passes)
    (h : c.here.kind = k → Tame objects c.advance (f true c.advance) (g true c.advance.braced))
    (h' : c.here.kind ≠ k → Tame objects c (f false c) (g false c.braced)) :
    Tame objects c ((accept k >>= f) c) ((accept k >>= g) c.braced) := by
  rw [accept_bind, accept_braced c hk.1]
  exact .ite (fun hc => .advance hc hk (h hc)) h'

theorem tame_identifier {f g : Name → Parser β} {what : String}
    (h : c.here.kind = .identifier →
      Tame objects c.advance (f c.here.name c.advance) (g c.here.name c.advance.braced)) :
    Tame objects c ((identifier what >>= f) c) ((identifier what >>= g) c.braced) := by
  rw [identifier_bind, identifier_braced]
  exact .ite (fun hc => .advance hc (by decide) (h hc)) fun _ => .error _

theorem tame_next {f g : Token → Parser β} (hc : c.here.kind = k) (hk : k.Passes)
    (h : Tame objects c.advance (f c.here c.advance) (g c.here c.advance.braced)) :
    Tame objects c ((next >>= f) c) ((next >>= g) c.braced) := by
  rw [next_bind, next_bind, Cursor.here_braced, Cursor.advance_braced, Token.braced_eq hc hk.1]
  exact .advance hc hk h

/-- Where `Doomed` holds, the next token is no closer and not the end of the file. -/
theorem Doomed.ahead_ne {σ : Type} [Located σ] {s : σ} (h : Doomed objects s)
    (hk : k ∈ [.symbol .closeParen, .symbol .closeBracket, .symbol .closeBrace, .dedent,
      .endOfFile]) :
    ahead s ≠ k := by
  rintro rfl
  rcases h.2 with hb | hi
  · have hmem := hb.here_mem
    have hclosed : ∀ x : Symbol, x.IsCloser → ahead s ≠ .symbol x := by
      intro x hx hs
      obtain ⟨_, hnil, -⟩ := Blocked.closed (c := Located.cursor s) hb hs hx
      cases hnil
    simp only [List.mem_cons, List.not_mem_nil, or_false] at hk
    rcases hk with hk | hk | hk | hk | hk
    · exact hclosed _ (.inl rfl) hk
    · exact hclosed _ (.inr rfl) hk
    all_goals
      rw [show (Located.cursor s).here.kind = _ from hk] at hmem
      simp [typeKinds] at hmem
  · simp [hi] at hk

/-- What stands in front of a closer is read the same, since `Doomed` does not hold there. -/
theorem Follows.closing {T : Cursor → Prop} {inner inner' : Parser α} {f g : α → Token → Parser β}
    {s : Symbol} (hs : s ∈ [.closeParen, .closeBracket, .closeBrace])
    (hi : Follows (Doomed true) (inner c) (inner' c.braced))
    (hf : ∀ a (t : Cursor), Follows T (f a t.here t.advance) (g a t.here.braced t.advance.braced)) :
    Follows T ((inner >>= fun a => expect (.symbol s) >>= f a) c)
      ((inner' >>= fun a => expect (.symbol s) >>= g a) c.braced) := by
  intro b u h
  obtain ⟨a, t, h1, h2⟩ := bind_eq_ok.1 h
  rw [expect_bind] at h2
  split at h2
  · rename_i ht
    have hk : Kind.symbol s ∈
        [.symbol .closeParen, .symbol .closeBracket, .symbol .closeBrace, .dedent, .endOfFile] := by
      simpa using hs
    have hq := (hi a t h1).resolve_left fun hd => hd.ahead_ne hk ht
    refine (hf a t b u h2).imp_right fun hg => bind_eq_ok.2 ⟨a, t.braced, hq, ?_⟩
    rw [expect_bind, Cursor.here_braced, Token.kind_braced, ht, Kind.braced_symbol, if_pos rfl,
      Cursor.advance_braced]
    exact hg
  · cases h2

/-- What stands between a sign and its closer is read the same. -/
theorem tame_enclosed {inner inner' : Parser α} {f g : α → Token → Parser β} {s s' : Symbol}
    (hc : c.here.kind = .symbol s) (hs : s.closer? = some s')
    (hi : Tame true c.advance (inner c.advance) (inner' c.advance.braced))
    (hf : ∀ a (t : Cursor), Tame objects t.advance (f a t.here t.advance)
      (g a t.here.braced t.advance.braced)) :
    Tame objects c ((next >>= fun _ => inner >>= fun a => expect (.symbol s') >>= f a) c)
      ((next >>= fun _ => inner' >>= fun a => expect (.symbol s') >>= g a) c.braced) := by
  have hs' : s'.IsCloser := by
    unfold Symbol.closer? at hs
    split at hs <;> simp at hs <;> subst hs <;> simp [Symbol.IsCloser]
  rw [next_bind, next_bind, Cursor.advance_braced]
  constructor
  · refine .closing ?_ hi.follows fun a t => (hf a t).follows
    rcases hs' with rfl | rfl <;> simp
  · intro b u st h hb
    obtain ⟨a, t, h1, h2⟩ := bind_eq_ok.1 h
    rw [expect_bind] at h2
    split at h2
    · rename_i ht
      have hin := hi.blocked a t _ h1 (hb.opened hc hs)
      obtain ⟨_, hst, hout⟩ := Blocked.closed (c := t) hin ht hs'
      cases hst
      exact (hf a t).blocked b u st h2 hout
    · cases h2
  · intro b u _ hind
    cases hc.symm.trans (show c.here.kind = .indent from hind)

end Steps

namespace Parser

section Repetitions

variable {α : Type} {item : Parser α} {objects : Bool} {k : Kind}

theorem tame_after {rule : Parser α} (hk : k.IsPlain) (hk' : k ∉ typeKinds) {c : Cursor}
    (h : ∀ c, Follows (Doomed objects) (rule c) (rule c.braced)) :
    Tame objects c (after k rule c) (after k rule c.braced) := by
  simp only [after, accept_bind, accept_braced c hk]
  refine .ite (fun hc => ?_) fun _ => .ok _
  refine .of_follows ?_ ?_ (.map (h _))
  · rwa [ahead_cursor, hc]
  · rw [ahead_cursor, hc]
    exact hk.ne_indent

theorem tame_listUntil (hk : k.IsPlain) (h : ∀ c, Tame objects c (item c) (item c.braced)) :
    ∀ (budget : Nat) (c : Cursor),
      Tame objects c (listUntil k item budget c) (listUntil k item budget c.braced)
  | 0, _ => .ok _
  | budget + 1, c => by
    simp only [listUntil, kind_bind, ite_run, Cursor.here_braced, Token.kind_braced,
      Kind.braced_eq_iff hk]
    refine .ite (fun _ => .ok _) fun _ => ?_
    refine .bind (h c) fun a t _ => tame_accept (by decide) (fun _ => ?_) fun _ => .ok _
    exact .bind (tame_listUntil hk h budget _) fun _ _ _ => .ok _

theorem tame_commaList (h : ∀ c, Tame objects c (item c) (item c.braced)) :
    ∀ (budget : Nat) (c : Cursor),
      Tame objects c (commaList item budget c) (commaList item budget c.braced)
  | 0, _ => .ok _
  | budget + 1, c => by
    refine .bind (h c) fun a t _ => tame_accept (by decide) (fun _ => ?_) fun _ => .ok _
    exact .bind (tame_commaList h budget _) fun _ _ _ => .ok _

end Repetitions

section Operators

variable {operand : Parser Expr} {objects : Bool} {operators : List (Kind × BinaryOp)}
  (h : ∀ c, Tame objects c (operand c) (operand c.braced)) (hr : Refuses operand)

theorem lookup_braced (hops : ∀ x ∈ operators, x.1.IsPlain) (k : Kind) :
    operators.lookup k.braced = operators.lookup k := by
  by_cases hk : k.IsPlain
  · rw [hk.braced_eq]
  · have hnone : ∀ k : Kind, ¬ k.IsPlain → operators.lookup k = none := by
      intro k hk
      rw [List.lookup_eq_none_iff]
      intro x hx
      have hne : k ≠ x.1 := by
        rintro rfl
        exact hk (hops x hx)
      simpa using hne
    have hb : ¬ k.braced.IsPlain := fun hb => hk (by
      have := (Kind.braced_eq_iff hb).1 rfl
      rwa [this])
    rw [hnone _ hk, hnone _ hb]

include h hr

theorem tame_tierTail (hops : ∀ x ∈ operators, x.1 = .symbol .greater ∨ x.1.Passes) :
    ∀ (budget : Nat) (left : Expr) (c : Cursor),
      Tame objects c (tierTail operand operators budget left c)
        (tierTail operand operators budget left c.braced)
  | 0, _, _ => .ok _
  | budget + 1, left, c => by
    have hplain : ∀ x ∈ operators, x.1.IsPlain := fun x hx =>
      (hops x hx).elim (fun hg => hg ▸ by decide) And.left
    simp only [tierTail, kind_bind, Cursor.here_braced, Token.kind_braced,
      lookup_braced hplain]
    cases hop : operators.lookup c.here.kind with
    | none => exact .ok _
    | some op =>
      have hmem : (c.here.kind, op) ∈ operators := by
        obtain ⟨l, l', hl, -⟩ := List.lookup_eq_some_iff.1 hop
        rw [hl]
        simp
      have hrest : Tame objects c.advance
          ((operand >>= fun right => tierTail operand operators budget (.binary op left right))
            c.advance)
          ((operand >>= fun right => tierTail operand operators budget (.binary op left right))
            c.advance.braced) :=
        .bind (h _) fun _ t _ => tame_tierTail hops budget _ t
      simp only [next_bind, Cursor.advance_braced]
      rcases hops _ hmem with hg | hk
      · refine .word (by simp [show c.here.kind = _ from hg]) hrest fun _ hi => ?_
        exact hr.bind c.advance (by simp [hi])
      · exact .advance rfl hk hrest

theorem tame_tier (hops : ∀ x ∈ operators, x.1 = .symbol .greater ∨ x.1.Passes) (budget : Nat)
    (c : Cursor) : Tame objects c (tier budget operators operand c)
      (tier budget operators operand c.braced) :=
  .bind (h c) fun _ t _ => tame_tierTail h hr hops budget _ t

omit hr in
theorem tame_powers : ∀ (budget : Nat) (c : Cursor),
    Tame objects c (powers operand budget c) (powers operand budget c.braced)
  | 0, c => h c
  | budget + 1, c => by
    refine .bind (h c) fun _ t _ => tame_accept (by decide) (fun _ => ?_) fun _ => .ok _
    exact .bind (tame_powers budget _) fun _ _ _ => .ok _

omit hr in
theorem tame_signed : ∀ (budget : Nat) (c : Cursor),
    Tame objects c (signed operand budget c) (signed operand budget c.braced)
  | 0, c => h c
  | budget + 1, c => by
    have hsign : ∀ k : Kind, UnaryOp.ofKind? k.braced = UnaryOp.ofKind? k := by
      intro k
      cases k <;> rfl
    simp only [signed, kind_bind, Cursor.here_braced, Token.kind_braced, hsign]
    cases hop : UnaryOp.ofKind? c.here.kind with
    | none => exact h c
    | some op =>
      have hk : c.here.kind.Passes := by
        generalize c.here.kind = k at hop
        unfold UnaryOp.ofKind? at hop
        split at hop
        · decide
        · decide
        · decide
        · cases hop
      exact tame_next rfl hk (.bind (tame_signed budget _) fun _ _ _ => .ok _)

omit h in
theorem refuses_powers : ∀ budget, Refuses (powers operand budget)
  | 0 => hr
  | _ + 1 => hr.bind

omit h in
theorem refuses_signed : ∀ budget, Refuses (signed operand budget)
  | 0 => hr
  | budget + 1 => by
    intro c hc a t ht
    have hnone : UnaryOp.ofKind? c.here.kind = none := by
      simp only [ahead_cursor, List.mem_cons, List.not_mem_nil, or_false] at hc
      rcases hc with hc | hc | hc <;> rw [hc] <;> rfl
    simp only [signed, kind_bind, hnone] at ht
    exact hr c hc a t ht

end Operators

/-! ### Objects -/

section Expressions

variable {reader : TextReader} {nested : Bool → Parser Expr}
  (h : ∀ (objects : Bool) (c : Cursor), Tame objects c (nested objects c) (nested objects c.braced))
include h

theorem tame_members {objects : Bool} : ∀ (budget : Nat) (e : Expr) (c : Cursor),
    Tame objects c (members nested budget e c) (members nested budget e c.braced)
  | 0, _, _ => .ok _
  | budget + 1, e, c => by
    refine tame_accept (by decide) (fun _ => ?_) fun _ => ?_
    · exact tame_identifier fun _ => tame_members budget _ _
    · simp only [Bool.false_eq_true, if_false, kind_bind, onSameLine_bind, ite_run,
        Cursor.here_braced, Token.kind_braced, Cursor.onSameLine_braced,
        Kind.braced_eq_iff (show Kind.IsPlain (.symbol .openBracket) by decide),
        Kind.braced_eq_iff (show Kind.IsPlain (.symbol .openParen) by decide)]
      refine .ite (fun hc => ?_) fun _ => .ite (fun hc => ?_) fun _ => .ok _
      · exact tame_enclosed hc.1 rfl (h true _) fun _ t => tame_members budget _ _
      · exact tame_enclosed hc.1 rfl (tame_listUntil (by decide) (h true) budget _)
          fun _ t => tame_members budget _ _

theorem tame_properties : ∀ (budget : Nat) (c : Cursor),
    Tame true c (properties nested budget c) (properties nested budget c.braced)
  | 0, _ => .ok _
  | budget + 1, c => by
    simp only [properties, kind_bind, ite_run, Cursor.here_braced, Token.kind_braced]
    by_cases hclose : c.here.kind = .symbol .closeBrace
    · rw [if_pos hclose, if_pos (by rw [hclose, Kind.braced_symbol])]
      exact .ok _
    · rw [if_neg hclose]
      by_cases hi : c.here.kind = .identifier
      · rw [if_neg (by simp [hi, Kind.braced])]
        refine tame_identifier fun _ => ?_
        refine .bind (tame_after (by decide) (by decide) fun c => (h true c).follows) fun _ t _ => ?_
        have hrest : ∀ c a, Tame true c
            ((properties nested budget >>= fun rest => pure (a :: rest)) c)
            ((properties nested budget >>= fun rest => pure (a :: rest)) c.braced) :=
          fun c _ => .bind (tame_properties budget c) fun _ _ _ => .ok _
        refine tame_accept (by decide) (fun _ => ?_) fun _ => ?_
        · simp only [kind_bind, true_or, if_true]
          exact hrest _ _
        · simp only [kind_bind, ite_run, Bool.false_eq_true, false_or, Cursor.here_braced,
            Token.kind_braced, Kind.braced_eq_iff (show Kind.IsPlain .identifier by decide)]
          exact .ite (fun _ => hrest _ _) fun _ => .ok _
      · rw [identifier_bind, if_neg hi]
        exact .error _

theorem tame_objectBody {objects : Bool} (budget : Nat) (struct : Option Name)
    (typeArgs : List TypeExpr) (start : Span) (c : Cursor) :
    Tame objects c (objectBody nested budget struct typeArgs start c)
      (objectBody nested budget struct typeArgs start c.braced) := by
  by_cases hc : c.here.kind = .symbol .openBrace
  · refine .of_follows (by simp [hc, typeKinds]) (by simp [hc]) ?_
    rw [objectBody, expect_bind, if_pos hc, expect_bind, Cursor.here_braced, Token.kind_braced, hc,
      Kind.braced_symbol, if_pos rfl, Cursor.advance_braced]
    exact .closing (by simp) (tame_properties h budget c.advance).follows fun _ _ => .ok _
  · rw [objectBody, expect_bind, if_neg hc]
    exact .error _

omit h in
/-- Type arguments in front of an object are read the same. -/
theorem genericHead_braced {budget : Nat} {c t : Cursor} {head : Name × List TypeExpr}
    (hg : genericHead budget c = .ok (head, t)) :
    genericHead budget c.braced = .ok (head, t.braced) := by
  obtain ⟨hi, u, hu, hgt, rfl, ho, hname⟩ := genericHead_ok hg
  have hi' : c.braced.here.kind = .identifier := by
    rw [Cursor.here_braced, Token.kind_braced, hi]
    rfl
  have hhead : (c.here.name, head.2) = head := by rw [← hname]
  rw [genericHead_eq hi']
  simp only [Cursor.advance_braced, Cursor.here_braced, Token.name_braced]
  have hargs := (same_commaList (same_typeExpr budget) budget _).1 _ _ hu
  refine bind_eq_ok.2 ⟨head.2, u.braced, hargs, ?_⟩
  rw [expect_braced u (by decide), if_pos hgt]
  simp only [kind_bind, ite_run, Cursor.here_braced, Token.kind_braced, ho, Kind.braced_symbol,
    if_true, hhead]
  rfl

omit h in
theorem named_of_head {budget : Nat} {c t : Cursor} {head : Name × List TypeExpr}
    (hl : c.kindAt 1 = .symbol .less) (hg : genericHead budget c = .ok (head, t)) :
    named nested budget true c =
      objectBody nested budget (some head.1) head.2 head.1.span t := by
  have hg' : genericHead? budget c = .ok (some head, t) := by simp only [genericHead?, hg]
  simp only [named, kindAt_bind, hl, and_self, if_true]
  show (genericHead? budget c >>= _) = _
  rw [hg']
  rfl

omit h in
theorem named_of_no_head {budget : Nat} {objects : Bool} {c : Cursor}
    (hg : objects = true → c.kindAt 1 = .symbol .less → ∃ e, genericHead budget c = .error e) :
    named nested budget objects c =
      if c.here.kind = .identifier then
        if objects = true ∧ c.kindAt 1 = .symbol .openBrace then
          objectBody nested budget (some c.here.name) [] c.here.name.span c.advance
        else .ok (.var c.here.name, c.advance)
      else .error ⟨.unexpected c.here "a struct name", c.here.span⟩ := by
  refine Eq.trans (b := plainName nested budget objects (c.kindAt 1) c) ?_ ?_
  · simp only [named, kindAt_bind]
    by_cases hl : objects = true ∧ c.kindAt 1 = .symbol .less
    · obtain ⟨e, he⟩ := hg hl.1 hl.2
      have hg' : genericHead? budget c = .ok (none, c) := by simp only [genericHead?, he]
      rw [if_pos hl]
      show (genericHead? budget c >>= _) = _
      rw [hg']
      rfl
    · rw [if_neg hl]
      rfl
  · simp only [plainName, identifier_bind, ite_run]
    rfl

omit h in
/-- A name that is a variable is still read as one with braces for layout, unless it ends where
`Doomed` holds. -/
theorem named_var_braced {budget : Nat} {objects : Bool} {c : Cursor}
    (hi : c.here.kind = .identifier)
    (hg : objects = true → c.kindAt 1 = .symbol .less → ∃ e, genericHead budget c = .error e)
    (ho : ¬ (objects = true ∧ c.kindAt 1 = .symbol .openBrace)) :
    Doomed objects c.advance ∨ named nested budget objects c.braced =
      .ok (.var c.here.name, c.advance.braced) := by
  by_cases hind : objects = true ∧ c.kindAt 1 = .indent
  · exact .inl ⟨hind.1, .inr (Cursor.here_advance hi (by simp) hind.2 (by simp))⟩
  -- with braces the type arguments may be found where the indent hid them
  by_cases hb : objects = true ∧ c.kindAt 1 = .symbol .less ∧
      ∃ x, genericHead budget c.braced = .ok x
  · obtain ⟨hobj, hl, ⟨head, t⟩, hx⟩ := hb
    obtain ⟨e, he⟩ := hg hobj hl
    refine .inl ⟨hobj, .inl (blocked_of_genericHead (fun t ht => ?_) hx hl)⟩
    rw [he] at ht
    cases ht
  · right
    have hno : objects = true → c.braced.kindAt 1 = .symbol .less →
        ∃ e, genericHead budget c.braced = .error e := by
      intro hobj hl
      rw [Cursor.kindAt_braced, Kind.braced_eq_iff (by decide)] at hl
      cases hx : genericHead budget c.braced with
      | error e => exact ⟨e, rfl⟩
      | ok x => exact absurd ⟨hobj, hl, x, hx⟩ hb
    have ho' : ¬ (objects = true ∧ c.braced.kindAt 1 = .symbol .openBrace) := by
      rintro ⟨hobj, hk⟩
      rw [Cursor.kindAt_braced] at hk
      rcases Kind.braced_eq_openBrace.1 hk with hk | hk
      · exact ho ⟨hobj, hk⟩
      · exact hind ⟨hobj, hk⟩
    rw [named_of_no_head hno, if_pos (by simp [hi, Kind.braced]), if_neg ho', Cursor.here_braced,
      Cursor.advance_braced, Token.name_braced]

/-- A name opens an object only with braces if type arguments and an indent follow it, or an indent
at once. -/
theorem tame_named (budget : Nat) (objects : Bool) (c : Cursor) :
    Tame objects c (named nested budget objects c) (named nested budget objects c.braced) := by
  by_cases hhead : ∃ x, objects = true ∧ c.kindAt 1 = .symbol .less ∧ genericHead budget c = .ok x
  · obtain ⟨⟨head, t⟩, rfl, hl, hg⟩ := hhead
    have hl' : c.braced.kindAt 1 = .symbol .less := by
      rw [Cursor.kindAt_braced, hl, Kind.braced_symbol]
    rw [named_of_head hl hg, named_of_head hl' (genericHead_braced hg)]
    -- type arguments were found, so what stands there is not blocked
    constructor
    · exact (tame_objectBody h budget _ _ _ t).follows
    · exact fun _ _ _ _ hb => absurd hg (genericHead_typeLike hb.typeLike hl)
    · intro _ _ _ hi
      cases (genericHead_ok hg).1.symm.trans (show c.here.kind = .indent from hi)
  · have hno : objects = true → c.kindAt 1 = .symbol .less →
        ∃ e, genericHead budget c = .error e := by
      intro ho hl
      cases hg : genericHead budget c with
      | error e => exact ⟨e, rfl⟩
      | ok x => exact absurd ⟨x, ho, hl, hg⟩ hhead
    rw [named_of_no_head hno]
    by_cases hi : c.here.kind = .identifier
    · rw [if_pos hi]
      refine .advance hi (by decide) ?_
      by_cases ho : objects = true ∧ c.kindAt 1 = .symbol .openBrace
      · have hl' : ¬ c.braced.kindAt 1 = .symbol .less := by
          rw [Cursor.kindAt_braced, ho.2]
          decide
        rw [if_pos ho, named_of_no_head fun _ hl => absurd hl hl', if_pos (by simp [hi, Kind.braced]),
          if_pos ⟨ho.1, by rw [Cursor.kindAt_braced, ho.2]; rfl⟩, Cursor.here_braced,
          Cursor.advance_braced, Token.name_braced]
        exact tame_objectBody h budget _ _ _ _
      · rw [if_neg ho]
        refine ⟨?_, fun _ _ _ he => by cases he; exact id, fun _ _ he => by cases he; exact id⟩
        intro e t het
        cases het
        exact named_var_braced hi (fun h1 h2 => hno h1 h2) ho
    · rw [if_neg hi]
      exact .error _

theorem tame_primary (budget : Nat) (objects : Bool) (c : Cursor) :
    Tame objects c (primary reader nested budget objects c)
      (primary reader nested budget objects c.braced) := by
  simp only [primary, peek_bind, Cursor.here_braced, Token.kind_braced, Token.text_braced,
    Token.span_braced]
  generalize hk : c.here.kind = k
  split
  · refine tame_next hk (by decide) ?_
    cases Number.Decimal.ofText? c.here.text with
    | some value => exact .ok _
    | none => exact .error _
  · refine tame_next hk (by decide) ?_
    cases reader c.here.text c.here.span with
    | ok e => exact .ok _
    | error e => exact .error _
  · exact tame_named h budget objects c
  · simp only [Kind.braced_symbol, ite_run]
    exact .ite (fun _ => tame_objectBody h budget _ _ _ c) fun _ => .error _
  · exact tame_enclosed hk rfl (tame_listUntil (by decide) (h true) budget _) fun _ _ => .ok _
  · exact tame_enclosed hk rfl (h true _) fun _ _ => .ok _
  · exact .error _

omit h in
theorem refuses_primary (budget : Nat) (objects : Bool) :
    Refuses (primary reader nested budget objects) := by
  intro c hc a t ht
  simp only [primary, peek_bind] at ht
  simp only [ahead_cursor, List.mem_cons, List.not_mem_nil, or_false] at hc
  rcases hc with hc | hc | hc <;> rw [hc] at ht <;> cases ht

omit h in
theorem refuses_operand (budget : Nat) (objects : Bool) :
    Refuses (operand reader nested budget objects) :=
  refuses_powers (refuses_signed (refuses_primary budget objects).bind budget) budget

theorem tame_assignment (budget : Nat) (objects : Bool) (c : Cursor) :
    Tame objects c (assignment reader nested budget objects c)
      (assignment reader nested budget objects c.braced) := by
  have hp : ∀ c, Tame objects c ((primary reader nested budget objects >>= members nested budget) c)
      ((primary reader nested budget objects >>= members nested budget) c.braced) :=
    fun c => .bind (tame_primary h budget objects c) fun e t _ => tame_members h budget e t
  have ho : ∀ c, Tame objects c (operand reader nested budget objects c)
      (operand reader nested budget objects c.braced) :=
    tame_powers (tame_signed hp budget) budget
  have hr : Refuses (operand reader nested budget objects) := refuses_operand budget objects
  -- by induction on the tiers of operators, from the operands outwards
  have hf : ∀ tiers : List (List (Kind × BinaryOp)),
      (∀ operators ∈ tiers, ∀ x ∈ operators, x.1 = .symbol .greater ∨ x.1.Passes) →
      Refuses (tiers.foldr (tier budget) (operand reader nested budget objects)) ∧
      ∀ c, Tame objects c (tiers.foldr (tier budget) (operand reader nested budget objects) c)
        (tiers.foldr (tier budget) (operand reader nested budget objects) c.braced) := by
    intro tiers hops
    induction tiers with
    | nil => exact ⟨hr, ho⟩
    | cons operators rest ih =>
      obtain ⟨ihr, iht⟩ := ih fun operators hm => hops operators (List.mem_cons_of_mem _ hm)
      exact ⟨ihr.bind, tame_tier iht ihr (hops operators (by simp)) budget⟩
  have hassign : ∀ k : Kind, assignmentOf? k.braced = assignmentOf? k := by
    intro k
    cases k <;> rfl
  refine .bind ((hf BinaryOp.tiers (by decide)).2 c) fun left t _ => ?_
  simp only [kind_bind, rebraced_cursor, Cursor.here_braced, Token.kind_braced, hassign]
  cases hop : assignmentOf? t.here.kind with
  | none => exact .ok _
  | some compound =>
    have hk : t.here.kind.Passes := by
      generalize t.here.kind = k at hop
      unfold assignmentOf? at hop
      split at hop
      · decide
      · decide
      · decide
      · decide
      · decide
      · cases hop
    refine tame_next rfl hk ?_
    simp only [ite_run]
    refine .ite (fun _ => .bind (h objects _) fun value u _ => ?_) fun _ => .error _
    cases compound with
    | none => exact .ok _
    | some op => exact .ok _

omit h in
theorem refuses_assignment (budget : Nat) (objects : Bool) :
    Refuses (assignment reader nested budget objects) := by
  have hf : ∀ tiers : List (List (Kind × BinaryOp)),
      Refuses (tiers.foldr (tier budget) (operand reader nested budget objects)) := by
    intro tiers
    induction tiers with
    | nil => exact refuses_operand budget objects
    | cons operators rest ih => exact ih.bind
  exact (hf BinaryOp.tiers).bind

end Expressions

/-- An expression is read the same with braces for layout, unless it ends where `Doomed` holds. -/
theorem tame_expression (reader : TextReader) : ∀ (budget : Nat) (objects : Bool) (c : Cursor),
    Tame objects c (expression reader budget objects c) (expression reader budget objects c.braced)
  | 0, _, _ => .error _
  | budget + 1, objects, c =>
    tame_assignment (fun objects c => tame_expression reader budget objects c) budget objects c

theorem refuses_expression (reader : TextReader) : ∀ (budget : Nat) (objects : Bool),
    Refuses (expression reader budget objects)
  | 0, _ => fun _ _ _ _ h => by cases h
  | budget + 1, objects => refuses_assignment budget objects

end Parser

end Sable
