import Sable.Proofs.Braces.Expressions
import Sable.Proofs.Reading.Statements

/-!
# Programs with braces in place of layout

`Alike p q`: what `p` reads, `q` reads with braces for layout; `Stable p` is `Alike p p`. Blocks and
statements are stable. An expression in a block may be `Doomed`, but then the block is not closed, and a
program is read up to the end of the file, where nothing is doomed.
-/

namespace Sable

open Sable.Parser

section Alike

variable {σ α β : Type} [Located σ] {m : α → α} {p q p' q' : StateT σ (Except SyntaxError) α}
  {f g : α → StateT σ (Except SyntaxError) β}

/-- What `p` reads, `q` reads with braces for layout, where `m` tells what becomes of the result. -/
def AlikeUpTo (m : α → α) (p q : StateT σ (Except SyntaxError) α) : Prop :=
  ∀ s a t, p s = .ok (a, t) → q (rebraced s) = .ok (m a, rebraced t)

/-- What `p` reads, `q` reads with braces for layout. -/
abbrev Alike (p q : StateT σ (Except SyntaxError) α) : Prop :=
  AlikeUpTo id p q

/-- What `p` reads, it reads with braces for layout. -/
abbrev Stable (p : StateT σ (Except SyntaxError) α) : Prop :=
  Alike p p

theorem Alike.follows {T : σ → Prop} (h : Alike p q) (s : σ) : Follows T (p s) (q (rebraced s)) :=
  fun a t ht => .inr (h s a t ht)

theorem AlikeUpTo.pure (a : α) :
    AlikeUpTo m (Pure.pure a : StateT σ (Except SyntaxError) α) (Pure.pure (m a)) := by
  intro s b t h
  cases h
  rfl

theorem AlikeUpTo.bind (hp : AlikeUpTo m p q) (hf : ∀ a, Alike (f a) (g (m a))) :
    Alike (p >>= f) (q >>= g) := by
  intro s b u h
  obtain ⟨a, t, h1, h2⟩ := bind_eq_ok.1 h
  exact bind_eq_ok.2 ⟨m a, _, hp s a t h1, hf a t b u h2⟩

theorem AlikeUpTo.ite {P P' : Prop} [Decidable P] [Decidable P'] (hP : P ↔ P')
    (h : AlikeUpTo m p q) (h' : AlikeUpTo m p' q') :
    AlikeUpTo m (if P then p else p') (if P' then q else q') := by
  by_cases hp : P
  · rwa [if_pos hp, if_pos (hP.1 hp)]
  · rwa [if_neg hp, if_neg (mt hP.2 hp)]

theorem AlikeUpTo.of_tame (h : ∀ s, Tame false s (p s) (q (rebraced s))) : Alike p q := by
  intro s a t ht
  refine ((h s).follows a t ht).resolve_left fun hd => ?_
  cases hd.1

theorem AlikeUpTo.lift {p q : Parser α} (h : AlikeUpTo m p q) :
    AlikeUpTo m (liftM p : Reader α) (liftM q) := by
  intro o a t ht
  obtain ⟨c, hc, rfl⟩ := lift_eq_ok.1 ht
  exact lift_eq_ok.2 ⟨c.braced, h o.cursor a c hc, rfl⟩

theorem Tame.lift {p q : Parser α} {o : Progress} {objects : Bool}
    (h : Tame objects o.cursor (p o.cursor) (q o.cursor.braced)) :
    Tame objects o ((liftM p : Reader α) o) ((liftM q : Reader α) (rebraced o)) where
  follows a t ht := by
    obtain ⟨c, hc, rfl⟩ := lift_eq_ok.1 ht
    exact (h.follows a c hc).imp id fun hq => lift_eq_ok.2 ⟨c.braced, hq, rfl⟩
  blocked a t st ht hb := by
    obtain ⟨c, hc, rfl⟩ := lift_eq_ok.1 ht
    exact h.blocked a c st hc hb
  indent a t ht hi := by
    obtain ⟨c, hc, rfl⟩ := lift_eq_ok.1 ht
    exact h.indent a c hc hi

theorem Refuses.lift {p : Parser α} (h : Refuses p) : Refuses (liftM p : Reader α) := by
  intro o ho a t ht
  obtain ⟨c, hc, rfl⟩ := lift_eq_ok.1 ht
  exact h o.cursor ho a c hc

theorem Tame.of_ne {s : σ} {objects : Bool} {r r' : Except SyntaxError (α × σ)}
    (h : ∀ a t, r ≠ .ok (a, t)) : Tame objects s r r' where
  follows a t ht := absurd ht (h a t)
  blocked a t _ ht := absurd ht (h a t)
  indent a t ht := absurd ht (h a t)

theorem lift_atWord_bind (word : String) (f : Bool → Reader β) (o : Progress) :
    (liftM (atWord word) >>= f) o = f (o.cursor.here.isWord word) o := rfl

@[simp] theorem cursor_rebraced (o : Progress) : (rebraced o).cursor = o.cursor.braced := rfl

@[simp] theorem ahead_progress (o : Progress) : ahead o = o.cursor.here.kind := rfl

end Alike

/-! ### Primitive rules -/

namespace Parser

variable {α β : Type} {k : Kind}

theorem stable_unexpected (what : String) : Stable (unexpected what : Parser α) := by
  intro c a t h
  cases h

theorem stable_fail (cause : SyntaxCause) (span : Span) :
    Stable (fail cause span : Parser α) := by
  intro c a t h
  cases h

theorem stable_lastSpan : Stable lastSpan := by
  intro c a t h
  cases h
  rfl

theorem stable_onSameLine : Stable onSameLine := by
  intro c a t h
  cases h
  show Except.ok (c.braced.onSameLine, c.braced) = _
  rw [Cursor.onSameLine_braced]
  rfl

theorem stable_atWord (word : String) : Stable (atWord word) := by
  intro c a t h
  cases h
  show Except.ok (c.braced.here.isWord word, c.braced) = _
  rw [Cursor.here_braced, Token.isWord_braced]
  rfl

theorem alike_peek : AlikeUpTo Token.braced peek peek := by
  intro c a t h
  cases h
  show Except.ok (c.braced.here, c.braced) = _
  rw [Cursor.here_braced]
  rfl

theorem alike_kind : AlikeUpTo Kind.braced kind kind := by
  intro c a t h
  cases h
  show Except.ok (c.braced.here.kind, c.braced) = _
  rw [Cursor.here_braced]
  rfl

theorem alike_kindAt (n : Nat) : AlikeUpTo Kind.braced (kindAt n) (kindAt n) := by
  intro c a t h
  cases h
  show Except.ok (c.braced.kindAt n, c.braced) = _
  rw [Cursor.kindAt_braced]
  rfl

theorem alike_next : AlikeUpTo Token.braced next next := by
  intro c a t h
  cases h
  show Except.ok (c.braced.here, c.braced.advance) = _
  rw [Cursor.here_braced, Cursor.advance_braced]
  rfl

theorem stable_accept (hk : k.IsPlain) : Stable (accept k) :=
  .bind alike_kind fun _ => .ite (Kind.braced_eq_iff hk).symm (.bind alike_next fun _ => .pure _)
    (.pure _)

theorem alike_expect (k : Kind) : AlikeUpTo Token.braced (expect k) (expect k.braced) := by
  intro c a t h
  rw [expect_eq] at h ⊢
  split at h
  · rename_i hc
    cases h
    rw [rebraced_cursor, Cursor.here_braced, Token.kind_braced, hc, if_pos rfl,
      Cursor.advance_braced]
    rfl
  · cases h

theorem stable_identifier (what : String) : Stable (identifier what) :=
  .bind alike_kind fun _ => .ite (Kind.braced_eq_iff (by decide)).symm
    (.bind alike_next fun _ => .pure _) (stable_unexpected _)

theorem stable_after {rule : Parser α} (hk : k.IsPlain) (h : Stable rule) :
    Stable (after k rule) :=
  .bind (stable_accept hk) fun _ => .ite Iff.rfl (.bind h fun _ => .pure _) (.pure _)

theorem stable_commaList {item : Parser α} (h : Stable item) :
    ∀ budget, Stable (commaList item budget)
  | 0 => .pure _
  | budget + 1 => .bind h fun _ => .bind (stable_accept (by decide)) fun _ =>
    .ite Iff.rfl (.bind (stable_commaList h budget) fun _ => .pure _) (.pure _)

theorem stable_typeExpr (budget : Nat) : Stable (typeExpr budget) :=
  fun c a t h => (same_typeExpr budget c).1 a t h

theorem refuses_identifier (what : String) : Refuses (identifier what) := by
  intro c hc a t ht
  rw [identifier_eq] at ht
  simp only [ahead_cursor, List.mem_cons, List.not_mem_nil, or_false] at hc
  rcases hc with hc | hc | hc <;> simp [hc] at ht

end Parser

namespace Reader

/-! ### Blocks -/

section Blocks

variable {α β : Type} {rule : Reader Stmt} {item : Reader α}

theorem alike_openBlock {f g : Kind → Reader β}
    (h : ∀ close, close ∈ [.dedent, .symbol .closeBrace] → Alike (f close) (g close.braced)) :
    Alike (liftM openBlock >>= f) (liftM openBlock >>= g) := by
  intro o b u hu
  obtain ⟨close, t, ht, hu⟩ := bind_eq_ok.1 hu
  obtain ⟨c, hc, rfl⟩ := lift_eq_ok.1 ht
  have hopen : close ∈ [.dedent, .symbol .closeBrace] ∧
      openBlock o.cursor.braced = .ok (close.braced, c.braced) := by
    simp only [openBlock, accept_bind, ite_run, if_true, Bool.false_eq_true, if_false] at hc
    simp only [openBlock, accept_bind, ite_run, if_true, Bool.false_eq_true, if_false,
      Cursor.here_braced, Token.kind_braced, Kind.braced_eq_openBrace, Cursor.advance_braced]
    split at hc
    · rename_i hk
      cases hc
      rw [if_pos (.inl hk)]
      exact ⟨by simp, rfl⟩
    · split at hc
      · rename_i hk
        cases hc
        rw [if_pos (.inr hk)]
        exact ⟨by simp, rfl⟩
      · cases hc
  refine bind_eq_ok.2 ⟨close.braced, _, lift_eq_ok.2 ⟨c.braced, hopen.2, rfl⟩, ?_⟩
  exact h close hopen.1 _ b u hu

/-- Only what a statement refuses closes a block with braces for layout and not without. -/
theorem braced_eq_close {k close : Kind} (hclose : close ∈ [.dedent, .symbol .closeBrace, .endOfFile])
    (hk : k.braced = close.braced) (hne : k ≠ close) :
    k ∈ [.indent, .dedent, .symbol .closeBrace] := by
  simp only [List.mem_cons, List.not_mem_nil, or_false] at hclose
  rcases hclose with rfl | rfl | rfl
  · rcases Kind.braced_eq_closeBrace.1 hk with rfl | rfl <;> simp
  · rcases Kind.braced_eq_closeBrace.1 hk with rfl | rfl <;> simp
  · exact absurd ((Kind.braced_eq_iff (by decide)).1 hk) hne

theorem tame_statementsUntil {close : Kind}
    (hclose : close ∈ [.dedent, .symbol .closeBrace, .endOfFile])
    (h : ∀ o, Tame true o (rule o) (rule (rebraced o))) (hr : Refuses rule) :
    ∀ (budget : Nat) (o : Progress), Tame true o (statementsUntil close rule budget o)
      (statementsUntil close.braced rule budget (rebraced o))
  | 0, _ => .ok _
  | budget + 1, o => by
    have hend : o.cursor.here.kind.braced = .endOfFile ↔ o.cursor.here.kind = .endOfFile :=
      Kind.braced_eq_iff (by decide)
    have hsemi : o.cursor.here.kind.braced = .symbol .semicolon ↔
        o.cursor.here.kind = .symbol .semicolon := Kind.braced_eq_iff (by decide)
    simp only [statementsUntil, lift_kind_bind, ite_run, lift_accept_bind, cursor_rebraced,
      Cursor.here_braced, Token.kind_braced, Cursor.advance_braced, hend, hsemi, if_true,
      Bool.false_eq_true, if_false]
    by_cases hk : o.cursor.here.kind = close ∨ o.cursor.here.kind = .endOfFile
    · rw [if_pos hk, if_pos (hk.imp_left fun hk => hk ▸ rfl)]
      exact .ok _
    rw [if_neg hk]
    obtain ⟨hkc, hke⟩ := not_or.1 hk
    by_cases hb : o.cursor.here.kind.braced = close.braced
    · have hrefuse := braced_eq_close hclose hb hkc
      refine .of_ne fun a t ht => ?_
      rw [if_neg (fun hs => by simp [hs] at hrefuse)] at ht
      exact hr.bind o hrefuse a t ht
    · rw [if_neg (not_or.2 ⟨hb, hke⟩)]
      refine .ite (fun hs => ?_) fun _ => ?_
      · refine .of_follows ?_ ?_ ?_
        · simp [ahead_progress, hs, typeKinds]
        · simp [ahead_progress, hs]
        · exact (tame_statementsUntil hclose h hr budget _).follows
      · refine .bind (h o) fun _ t _ => ?_
        exact .bind (tame_statementsUntil hclose h hr budget t) fun _ _ _ => .ok _

/-- A block is read the same, since `Doomed` holds in front of no token that closes one. -/
theorem stable_block (h : ∀ o, Tame true o (rule o) (rule (rebraced o))) (hr : Refuses rule)
    (budget : Nat) : Stable (block rule budget) := by
  refine alike_openBlock fun close hclose => ?_
  intro o body u hu
  obtain ⟨stmts, t, ht, hu⟩ := bind_eq_ok.1 hu
  obtain ⟨last, v, hv, hu⟩ := bind_eq_ok.1 hu
  have hlast : ahead t = close := by
    obtain ⟨c, hc, -⟩ := lift_eq_ok.1 hv
    rw [expect_eq] at hc
    split at hc
    · assumption
    · cases hc
  have hclose' : close ∈ [.dedent, .symbol .closeBrace, .endOfFile] :=
    List.mem_append_left [Kind.endOfFile] hclose
  have hstmts := ((tame_statementsUntil hclose' h hr budget o).follows stmts t ht).resolve_left
    fun hd => hd.ahead_ne (by
      simp only [List.mem_cons, List.not_mem_nil, or_false] at hclose
      rcases hclose with rfl | rfl <;> simp) hlast
  cases hu
  exact bind_eq_ok.2 ⟨_, _, hstmts, bind_eq_ok.2 ⟨_, _, (alike_expect close).lift t last u hv, rfl⟩⟩

theorem alike_itemsUntil {close : Kind} (hclose : close ∈ [.dedent, .symbol .closeBrace])
    (h : Stable item) (hr : Refuses item) :
    ∀ budget, Alike (itemsUntil close item budget) (itemsUntil close.braced item budget)
  | 0 => .pure _
  | budget + 1 => by
    intro o items u hu
    have hend : o.cursor.here.kind.braced = .endOfFile ↔ o.cursor.here.kind = .endOfFile :=
      Kind.braced_eq_iff (by decide)
    have hsep : o.cursor.here.kind.braced = .symbol .comma ∨
        o.cursor.here.kind.braced = .symbol .semicolon ↔
        o.cursor.here.kind = .symbol .comma ∨ o.cursor.here.kind = .symbol .semicolon :=
      or_congr (Kind.braced_eq_iff (by decide)) (Kind.braced_eq_iff (by decide))
    simp only [itemsUntil, lift_kind_bind, ite_run] at hu
    simp only [itemsUntil, lift_kind_bind, ite_run, cursor_rebraced, Cursor.here_braced,
      Token.kind_braced, hend, hsep]
    split at hu
    · rename_i hk
      cases hu
      rw [if_pos (hk.imp_left fun hk => hk ▸ rfl)]
      rfl
    rename_i hk
    obtain ⟨hkc, hke⟩ := not_or.1 hk
    by_cases hb : o.cursor.here.kind.braced = close.braced
    · have hrefuse := braced_eq_close (List.mem_append_left [Kind.endOfFile] hclose) hb hkc
      rw [if_neg (by rintro (hs | hs) <;> simp [hs] at hrefuse)] at hu
      exact absurd hu (hr.bind o hrefuse items u)
    · rw [if_neg (not_or.2 ⟨hb, hke⟩)]
      split at hu
      · rename_i hs
        rw [if_pos hs]
        have hrest := alike_itemsUntil hclose h hr budget
        exact AlikeUpTo.bind (.lift alike_next) (fun _ => hrest) o items u hu
      · rename_i hs
        rw [if_neg hs]
        refine AlikeUpTo.bind h (fun first => ?_) o items u hu
        exact .bind (alike_itemsUntil hclose h hr budget) fun _ => .pure _

theorem stable_itemBlock (h : Stable item) (hr : Refuses item) (budget : Nat) :
    Stable (itemBlock item budget) :=
  .bind (.lift alike_peek) fun _ => alike_openBlock fun close hclose =>
    .bind (alike_itemsUntil hclose h hr budget) fun _ =>
      .bind (.lift (alike_expect close)) fun _ => .pure _

end Blocks

/-! ### Heads of statements -/

theorem stable_condition (budget : Nat) : Stable (condition budget) :=
  .of_tame fun c => tame_expression readLiteral budget false c

theorem tame_binding (budget : Nat) (objects : Bool) (modifier : Modifier) (c : Cursor) :
    Tame objects c (binding budget objects modifier c)
      (binding budget objects modifier c.braced) := by
  refine tame_identifier fun _ => ?_
  refine .bind (tame_after (by decide) (by decide) (stable_typeExpr budget).follows)
    fun type t _ => ?_
  refine .bind (tame_after (by decide) (by decide)
    fun c => (tame_expression readLiteral budget objects c).follows) fun value u _ => ?_
  simp only [ite_run]
  exact .ite (fun _ => .error _) fun _ => .ok _

theorem tame_bindings (budget : Nat) (objects : Bool) (modifier : Modifier) (c : Cursor) :
    Tame objects c (bindings budget objects modifier c) (bindings budget objects modifier c.braced) :=
  .bind (tame_commaList (tame_binding budget objects modifier) budget c) fun _ _ _ => .ok _

/-- Declared variables, in front of the word that declares them. -/
theorem tame_varDecl (budget : Nat) (objects : Bool) {c : Cursor} {k : Kind} (hc : c.here.kind = k)
    (hk : isBinder k) :
    Tame objects c (varDecl budget objects c) (varDecl budget objects c.braced) := by
  have hp : k.Passes := by
    unfold isBinder at hk
    split at hk
    · decide
    · decide
    · decide
    · decide
    · cases hk
  refine tame_next hc hp ?_
  simp only [ite_run]
  refine .ite (fun _ => ?_) fun _ => tame_bindings budget objects _ _
  exact tame_accept (by decide) (fun _ => tame_bindings budget objects _ _)
    fun _ => tame_bindings budget objects _ _

theorem stable_varDecl (budget : Nat) : Stable (varDecl budget false) := by
  refine .bind alike_next fun word => ?_
  have hmod : ∀ isMut, modifierOf word.kind.braced isMut = modifierOf word.kind isMut := by
    intro isMut
    cases word.kind <;> rfl
  have hdecls : ∀ modifier, Stable (bindings budget false modifier) :=
    fun modifier => .of_tame (tame_bindings budget false modifier)
  simp only [Token.kind_braced, hmod]
  refine .ite (Kind.braced_eq_iff (by decide)).symm ?_ (hdecls _)
  exact .bind (stable_accept (by decide)) fun _ => hdecls _

theorem stable_typeParams (budget : Nat) : Stable (typeParams budget) := by
  refine .bind (stable_accept (by decide)) fun _ => .ite Iff.rfl ?_ (.pure _)
  refine .bind (stable_commaList ?_ budget) fun _ => .bind (alike_expect _) fun _ => .pure _
  exact .bind (stable_identifier _) fun _ =>
    .bind (stable_after (by decide) (stable_typeExpr budget)) fun _ => .pure _

theorem stable_receiver (budget : Nat) : Stable (receiver budget) := by
  refine .bind (stable_atWord _) fun _ => .ite Iff.rfl ?_ (.pure _)
  refine .bind alike_next fun _ =>
    .bind (stable_after (by decide) (stable_typeExpr budget)) fun _ => ?_
  refine .bind alike_kind fun k => .ite ?_ ?_ (.pure _)
  · exact not_congr (Kind.braced_eq_iff (by decide)).symm
  · exact .bind (alike_expect _) fun _ => .pure _

theorem stable_params (budget : Nat) : Stable (params budget) := by
  have hparam : ∀ c, Tame true c (param budget c) (param budget c.braced) := by
    intro c
    refine tame_identifier fun _ => ?_
    refine .bind (tame_after (by decide) (by decide) (stable_typeExpr budget).follows)
      fun type t _ => ?_
    exact .bind (tame_after (by decide) (by decide)
      fun c => (tame_expression readLiteral budget true c).follows) fun _ _ _ => .ok _
  intro c a t h
  have hclosing : Follows (fun _ => False) (params budget c) (params budget c.braced) :=
    .closing (by simp) (tame_listUntil (by decide) hparam budget c).follows fun _ _ => .ok _
  exact (hclosing a t h).resolve_left id

theorem stable_startsIteration : Stable startsIteration := by
  refine .bind (alike_kindAt 0) fun _ => .ite (Kind.braced_eq_iff (by decide)).symm ?_ (.pure _)
  refine .bind (alike_kindAt 1) fun _ => .ite (Kind.braced_eq_iff (by decide)).symm (.pure _) ?_
  refine .bind (alike_kindAt 1) fun _ => .bind (alike_kindAt 2) fun _ => ?_
  refine .bind (alike_kindAt 3) fun _ => ?_
  simp only [Kind.braced_eq_iff (show Kind.IsPlain (.symbol .comma) by decide),
    Kind.braced_eq_iff (show Kind.IsPlain .identifier by decide),
    Kind.braced_eq_iff (show Kind.IsPlain (.keyword .inWord) by decide)]
  exact .pure _

theorem stable_startsRange : Stable startsRange := by
  refine .bind (alike_kindAt 1) fun k => .bind (stable_atWord _) fun _ => ?_
  cases k <;> exact .pure _

theorem stable_range (budget : Nat) : Stable (range budget) := by
  have hstop : ∀ (start : Expr) (inclusive : Bool), Stable (rangeFrom budget start inclusive) :=
    fun start inclusive =>
    .bind alike_next fun _ => .bind (stable_condition budget) fun _ =>
      .bind (stable_atWord _) fun _ => .ite Iff.rfl
        (.bind alike_next fun _ => .bind (stable_condition budget) fun _ => .pure _) (.pure _)
  exact .bind (stable_condition budget) fun start => .bind (stable_atWord _) fun _ =>
    .bind (stable_atWord _) fun _ => .ite Iff.rfl (hstop start false) <|
      .ite Iff.rfl (hstop start true)
        (.bind (stable_unexpected _) fun inclusive => hstop start inclusive)

theorem stable_jumpTo (make : Nat → Option Name → Span → Stmt) (loops : List Enclosing)
    (start : Span) (label : Option Name) : Stable (jumpTo make loops start label) := by
  unfold jumpTo
  dsimp only
  split
  · exact .pure _
  · intro o a t h
    cases h

theorem stable_jump (make : Nat → Option Name → Span → Stmt) (loops : List Enclosing) :
    Stable (jump make loops) := by
  refine .bind alike_next fun _ => .bind alike_kind fun _ => .bind stable_onSameLine fun _ => ?_
  refine .ite (and_congr (Kind.braced_eq_iff (by decide)).symm Iff.rfl) ?_
    (stable_jumpTo make loops _ _)
  exact .bind (stable_identifier _) fun _ => stable_jumpTo make loops _ _

theorem stable_getterHead (budget : Nat) : Stable (getterHead budget) :=
  .bind alike_next fun _ => .bind (stable_identifier _) fun _ => .bind (alike_expect _) fun _ =>
    .bind (stable_typeExpr budget) fun _ => .pure _

/-! ### Declarations of types -/

theorem stable_requirement (budget : Nat) : Stable (requirement budget) :=
  .bind (stable_accept (by decide)) fun _ => .ite Iff.rfl
    (.bind (stable_identifier _) fun _ => .bind (alike_expect _) fun _ =>
      .bind (stable_receiver budget) fun _ => .bind (stable_params budget) fun _ =>
        .bind (stable_after (by decide) (stable_typeExpr budget)) fun _ => .pure _)
    (.bind (stable_atWord _) fun _ => .ite Iff.rfl
      (.bind (stable_getterHead budget) fun _ => .pure _) (stable_unexpected _))

theorem refuses_requirement (budget : Nat) : Refuses (requirement budget) := by
  intro c hc a t ht
  simp only [ahead_cursor, List.mem_cons, List.not_mem_nil, or_false] at hc
  simp only [requirement, accept_bind, atWord_bind, ite_run, Token.isWord] at ht
  rcases hc with hc | hc | hc <;> simp [hc, unexpected_eq] at ht

theorem stable_typeDef (budget : Nat) : Stable (typeDef budget) := by
  have hfield : Stable (fieldDecl budget) :=
    .bind (stable_identifier _) fun _ => .bind (stable_accept (by decide)) fun _ =>
      .bind (alike_expect _) fun _ => .bind (stable_typeExpr budget) fun _ => .pure _
  have hstruct : Stable (structDef budget) :=
    .bind (stable_itemBlock (.lift hfield) (Refuses.lift (refuses_identifier _).bind) budget)
      fun _ => .pure _
  refine .bind (.lift (stable_accept (by decide))) fun _ => .ite Iff.rfl hstruct <|
    .bind (.lift (stable_accept (by decide))) fun _ => .ite Iff.rfl
      (.bind (stable_itemBlock (.lift (stable_requirement budget))
        (refuses_requirement budget).lift budget) fun _ => .pure _) <|
      .bind (.lift (stable_accept (by decide))) fun _ => .ite Iff.rfl
        (.lift (stable_typeExpr budget))
        (.bind (.lift alike_kind) fun k => .ite ?_ hstruct (.lift (stable_unexpected _)))
  rw [Kind.braced_eq_openBrace]
  cases k <;> simp [Kind.braced]

theorem stable_typeDecl (budget : Nat) : Stable (typeDecl budget) :=
  .bind (.lift (alike_expect _)) fun _ => .bind (.lift (stable_identifier _)) fun _ =>
    .bind (.lift (stable_typeParams budget)) fun _ => .bind (stable_typeDef budget) fun _ => .pure _

theorem stable_knowsAlias (name : String) : Stable (knowsAlias name) := by
  intro o a t h
  cases h
  rfl

theorem stable_addAlias (name : String) : Stable (addAlias name) := by
  intro o a t h
  cases h
  rfl

theorem stable_aliasDecl (budget : Nat) : Stable (aliasDecl budget) := by
  have hlast : ∀ (name : Name) (start : Span) (target : TypeExpr),
      Stable (aliasOf name target (start.upTo target.span)) := fun name _ _ =>
    .bind (stable_addAlias _) fun _ => .pure _
  refine .bind (.lift (alike_expect _)) fun start => .bind (.lift (stable_identifier _)) fun name =>
    .bind (.lift (alike_expect _)) fun _ => .bind (.lift (stable_typeExpr budget)) fun target => ?_
  cases target with
  | named other =>
    refine .bind (stable_knowsAlias _) fun _ => .ite Iff.rfl ?_ (hlast name _ _)
    exact .bind (.lift (stable_fail _ _)) fun _ => hlast name _ _
  | _ => exact hlast name _ _

/-! ### Compound statements -/

section Compound

variable {rule : List Enclosing → Reader Stmt}
  (h : ∀ loops o, Tame true o (rule loops o) (rule loops (rebraced o)))
  (hr : ∀ loops, Refuses (rule loops))
include h hr

theorem stable_function (budget : Nat) (isMethod : Bool) :
    Stable (function rule budget isMethod) := by
  have hbody : ∀ (start : Span) (name : Name) (params : List TypeParam) (receiver : Option Name),
      Stable (functionFrom rule budget start name params receiver) :=
    fun _ _ _ _ => .bind (.lift (stable_params budget)) fun _ =>
      .bind (.lift (stable_after (by decide) (stable_typeExpr budget))) fun _ =>
        .bind (stable_block (h []) (hr []) budget) fun _ =>
          .bind (.lift stable_lastSpan) fun _ => .pure _
  refine .bind (.lift (alike_expect _)) fun _ => .bind (.lift (stable_identifier _)) fun _ =>
    .bind (.lift (stable_typeParams budget)) fun _ => .bind (.lift (alike_expect _)) fun _ => ?_
  exact .ite Iff.rfl (.bind (.lift (stable_receiver budget)) fun _ => hbody _ _ _ _) (hbody _ _ _ _)

theorem stable_elseTail (loops : List Enclosing) (bound : Nat) :
    ∀ budget, Stable (elseTail (rule loops) bound budget)
  | 0 => .pure _
  | budget + 1 =>
    .bind (.lift (stable_accept (by decide))) fun _ => .ite Iff.rfl
      (.bind (.lift (stable_accept (by decide))) fun _ => .ite Iff.rfl
        (.bind (.lift (stable_condition bound)) fun _ =>
          .bind (stable_block (h loops) (hr loops) bound) fun _ =>
            .bind (stable_elseTail loops bound budget) fun _ => .pure _)
        (.bind (stable_block (h loops) (hr loops) bound) fun _ => .pure _))
      (.pure _)

theorem stable_ifElse (loops : List Enclosing) (budget : Nat) : Stable (ifElse (rule loops) budget) :=
  .bind (.lift (alike_expect _)) fun _ => .bind (.lift (stable_condition budget)) fun _ =>
    .bind (stable_block (h loops) (hr loops) budget) fun _ =>
      .bind (stable_elseTail h hr loops budget budget) fun _ => .pure _

omit h hr in
theorem stable_newLoop : Stable newLoop := by
  intro o a t h
  cases h
  rfl

theorem stable_whileLoop (budget : Nat) (loops : List Enclosing) :
    Stable (whileLoop rule budget loops) :=
  .bind (.lift (alike_expect _)) fun _ => .bind stable_newLoop fun _ =>
    .bind (.lift (stable_condition budget)) fun _ =>
      .bind (stable_block (h _) (hr _) budget) fun _ => .pure _

omit h hr in
theorem stable_iteration {body : Reader (List Stmt)} (hb : Stable body) (budget id : Nat)
    (label : Option Name) : Stable (iteration body budget id label) :=
  .bind (.lift (stable_identifier _)) fun _ =>
    .bind (.lift (stable_after (by decide) (stable_identifier _))) fun _ =>
      .bind (.lift (alike_expect _)) fun _ => .bind (.lift stable_startsRange) fun _ => .ite Iff.rfl
        (.bind (.lift alike_next) fun _ => .bind (.lift (stable_range budget)) fun _ =>
          .bind hb fun _ => .pure _)
        (.bind (.lift (stable_condition budget)) fun _ => .bind hb fun _ => .pure _)

omit h hr in
theorem stable_stepped {body : Reader (List Stmt)} (hb : Stable body) (budget id : Nat)
    (label : Option Name) (init : Stmt) : Stable (stepped body budget id label init) :=
  .bind (.lift (alike_expect _)) fun _ => .bind (.lift (stable_condition budget)) fun _ =>
    .bind (.lift (alike_expect _)) fun _ => .bind (.lift (stable_condition budget)) fun _ =>
      .bind hb fun _ => .pure _

theorem stable_forLoop (budget : Nat) (loops : List Enclosing) :
    Stable (forLoop rule budget loops) := by
  have hhead : ∀ label : Option Name, Stable (loopHead rule budget loops label) := by
    intro label
    refine .bind stable_newLoop fun id => .bind (.lift alike_kind) fun first => ?_
    have hb : Stable (block (rule (⟨id, label.map (·.text)⟩ :: loops)) budget) :=
      stable_block (h _) (hr _) budget
    have hopen : first = .symbol .openBrace ∨ first = .indent ↔
        first.braced = .symbol .openBrace ∨ first.braced = .indent := by
      cases first <;> simp [Kind.braced]
    have hbinder : isBinder first = isBinder first.braced := by
      cases first <;> rfl
    refine .ite hopen (.bind hb fun _ => .pure _) (.bind (.lift stable_startsIteration) fun _ => ?_)
    refine .ite Iff.rfl (stable_iteration hb budget id label) (.ite (by rw [hbinder]) ?_ ?_)
    · exact .bind (.lift (stable_varDecl budget)) fun _ => stable_stepped hb budget id label _
    · exact .bind (.lift (stable_condition budget)) fun _ => .bind (.lift alike_kind) fun _ =>
        .ite (Kind.braced_eq_iff (by decide)).symm (stable_stepped hb budget id label _)
          (.bind hb fun _ => .pure _)
  refine .bind (.lift (alike_expect _)) fun _ => .bind (.lift (stable_atWord _)) fun _ =>
    .bind (.lift (alike_kindAt _)) fun _ => ?_
  refine .ite (and_congr Iff.rfl (Kind.braced_eq_iff (by decide)).symm) ?_ (hhead none)
  exact .bind (.lift alike_next) fun _ => .bind (.lift (stable_identifier _)) fun _ => hhead _

theorem stable_implementation (budget : Nat) : Stable (implementation rule budget) :=
  .bind (.lift alike_kind) fun _ => .ite (Kind.braced_eq_iff (by decide)).symm
    (.bind (stable_function h hr budget true) fun _ => .pure _)
    (.bind (.lift (stable_atWord _)) fun _ => .ite Iff.rfl
      (.bind (.lift (stable_getterHead budget)) fun _ =>
        .bind (stable_block (h []) (hr []) budget) fun _ => .pure _)
      (.lift (stable_unexpected _)))

omit h hr in
theorem refuses_implementation (budget : Nat) : Refuses (implementation rule budget) := by
  intro o ho a t ht
  have hfn : o.cursor.here.kind ≠ .keyword .fnWord := fun hk => by simp [hk] at ho
  have hword : o.cursor.here.isWord "get" = false := by
    have : o.cursor.here.kind ≠ .identifier := fun hk => by simp [hk] at ho
    simp [Token.isWord, this]
  simp only [implementation, lift_kind_bind, lift_atWord_bind, if_neg hfn, hword,
    Bool.false_eq_true, if_false] at ht
  cases ht

theorem stable_fulfillment (budget : Nat) : Stable (fulfillment rule budget) :=
  .bind (.lift (alike_expect _)) fun _ => .bind (.lift (stable_identifier _)) fun _ =>
    .bind (.lift (alike_expect _)) fun _ => .bind (.lift (stable_identifier _)) fun _ =>
      .bind (stable_itemBlock (stable_implementation h hr budget) (refuses_implementation budget)
        budget) fun _ => .pure _

omit h hr in
/-- A return, in front of its word. -/
theorem tame_ret (budget : Nat) {c : Cursor} (hc : c.here.kind = .keyword .returnWord) :
    Tame true c (ret budget c) (ret budget c.braced) := by
  refine tame_next hc (by decide) ?_
  simp only [kind_bind, onSameLine_bind, ite_run, Cursor.here_braced, Token.kind_braced,
    Cursor.onSameLine_braced]
  have hvalue : Tame true c.advance
      ((do
        let value ← expr budget true
        return .ret (some value) (c.here.span.upTo value.span) : Parser Stmt) c.advance)
      ((do
        let value ← expr budget true
        return .ret (some value) (c.here.span.upTo value.span) : Parser Stmt) c.advance.braced) :=
    .bind (tame_expression readLiteral budget true _) fun _ _ _ => .ok _
  cases c.advance.here.kind <;> exact .ite (fun _ => hvalue) fun _ => .ok _

omit h hr in
theorem function_name {budget : Nat} {isMethod : Bool} {o t : Progress} {f : Function}
    (hf : function rule budget isMethod o = .ok (f, t)) :
    o.cursor.advance.here.kind = .identifier := by
  obtain ⟨start, u, hu, hf⟩ := bind_eq_ok.1 hf
  obtain ⟨c, hc, rfl⟩ := lift_eq_ok.1 hu
  obtain ⟨name, v, hv, -⟩ := bind_eq_ok.1 hf
  obtain ⟨d, hd, -⟩ := lift_eq_ok.1 hv
  rw [expect_eq] at hc
  split at hc
  · cases hc
    rw [identifier_eq] at hd
    split at hd
    · assumption
    · cases hd
  · cases hc

theorem tame_statementWith (budget : Nat) (loops : List Enclosing) (o : Progress) :
    Tame true o (statementWith rule budget loops o)
      (statementWith rule budget loops (rebraced o)) := by
  have hjump (make : Nat → Option Name → Span → Stmt) :
      Stable (liftM (jump make loops) : Reader Stmt) :=
    .lift (stable_jump make loops)
  simp only [statementWith, lift_kind_bind, cursor_rebraced, Cursor.here_braced, Token.kind_braced]
  generalize hk : o.cursor.here.kind = k
  have hexpr : Tame true o ((do return .expr (← expr budget true) : Reader Stmt) o)
      ((do return .expr (← expr budget true) : Reader Stmt) (rebraced o)) :=
    .bind (.lift (tame_expression readLiteral budget true _)) fun _ _ _ => .ok _
  have hkey {r r'} (hkw : k ∉ typeKinds) (hi : k ≠ .indent) (hf : Follows (Doomed true) r r') :
      Tame (α := Stmt) true o r r' :=
    .of_follows (by rwa [ahead_progress, hk]) (by rwa [ahead_progress, hk]) hf
  by_cases hp : k.IsPlain
  case neg =>
    simp only [Kind.IsPlain, Decidable.not_not, List.mem_cons, List.not_mem_nil, or_false] at hp
    rcases hp with rfl | rfl | rfl | rfl <;> exact hexpr
  rw [hp.braced_eq]
  split
  · exact .lift (tame_varDecl budget true hk rfl)
  · exact .lift (tame_varDecl budget true hk rfl)
  · exact .lift (tame_varDecl budget true hk rfl)
  · exact .lift (tame_varDecl budget true hk rfl)
  · refine ⟨(stable_function h hr budget false).follows o |>.map, fun a t st ht hb => ?_, ?_⟩
    · -- What is blocked may start with a function type, but a function has a name.
      obtain ⟨f, u, hf, -⟩ := bind_eq_ok.1 ht
      have hopen := Blocked.function_inv (c := o.cursor) hb hk
      cases hopen.symm.trans (function_name hf)
    · intro _ _ _ hi
      cases hk.symm.trans hi
  · exact .lift (tame_ret budget hk)
  · exact hkey (by decide) (by simp) ((stable_ifElse h hr loops budget).follows o)
  · exact hkey (by decide) (by simp) ((stable_whileLoop h hr budget loops).follows o)
  · exact hkey (by decide) (by simp) ((stable_forLoop h hr budget loops).follows o)
  · exact hkey (by decide) (by simp) ((hjump .leave).follows o)
  · exact hkey (by decide) (by simp) ((hjump .skip).follows o)
  · exact hkey (by decide) (by simp) ((stable_typeDecl budget).follows o)
  · exact hkey (by decide) (by simp) ((stable_aliasDecl budget).follows o)
  · exact hkey (by decide) (by simp) ((stable_fulfillment h hr budget).follows o)
  · exact hexpr

omit h hr in
theorem refuses_statementWith (budget : Nat) (loops : List Enclosing) :
    Refuses (statementWith rule budget loops) := by
  intro o ho a t ht
  have hexpr : Refuses (do return .expr (← expr budget true) : Reader Stmt) :=
    (refuses_expression readLiteral budget true).lift.bind
  refine hexpr o ho a t ?_
  simp only [ahead_progress, List.mem_cons, List.not_mem_nil, or_false] at ho
  simp only [statementWith, lift_kind_bind] at ht
  rcases ho with ho | ho | ho <;> rw [ho] at ht <;> exact ht

end Compound

theorem refuses_statement : ∀ (budget : Nat) (loops : List Enclosing),
    Refuses (statement budget loops)
  | 0, _ => fun _ _ _ _ h => by cases h
  | budget + 1, loops => refuses_statementWith budget loops

/-- A statement is read the same with braces for layout, unless it ends where `Doomed` holds. -/
theorem tame_statement : ∀ (budget : Nat) (loops : List Enclosing) (o : Progress),
    Tame true o (statement budget loops o) (statement budget loops (rebraced o))
  | 0, _, _ => .error _
  | budget + 1, loops, o =>
    tame_statementWith (tame_statement budget) (refuses_statement budget) budget loops o

end Reader

theorem Cursor.ofTokens_braced (tokens : List Token) :
    Cursor.ofTokens (tokens.map Token.braced) = (Cursor.ofTokens tokens).braced := by
  unfold ofTokens
  rw [List.getLast?_map]
  cases tokens.getLast? with
  | none => rfl
  | some t =>
    have hend : t.braced.kind = .endOfFile ↔ t.kind = .endOfFile := Kind.braced_eq_iff (by decide)
    simp only [Option.map_some, hend]
    split
    · cases tokens <;> rfl
    · cases tokens <;> simp [braced, Token.braced, Token.endOfFile, Kind.braced]

/-- A program is read the same with an opening brace for every indent and a closing brace for every
dedent. -/
theorem Program.ofTokens_in_braces {file : String} {tokens : List Token} {p : Program}
    (h : Program.ofTokens file tokens = .ok p) :
    Program.ofTokens file (tokens.map Token.braced) = .ok p := by
  obtain ⟨hfile, t, hp⟩ := Program.ofTokens_eq_ok.1 h
  refine Program.ofTokens_eq_ok.2 ⟨hfile, rebraced t, ?_⟩
  rw [Cursor.ofTokens_braced]
  generalize Cursor.ofTokens tokens = c at hp ⊢
  have hlen : c.braced.rest.length = c.rest.length := by simp [Cursor.braced]
  have hend := Reader.statementsUntil_ends (Reader.advances_statement _ _) (Nat.lt_succ_self _) hp
  have hclose : Kind.endOfFile ∈ [.dedent, .symbol .closeBrace, .endOfFile] := by simp
  have hsame := Reader.tame_statementsUntil hclose (Reader.tame_statement (c.rest.length + 1) [])
    (Reader.refuses_statement _ []) (c.rest.length + 1) ⟨c, 0, []⟩
  rw [hlen]
  exact (hsame.follows p.body t hp).resolve_left fun hd => hd.ahead_ne (by simp) (hend.elim id id)

/-- A loop with an indented body, which holds a condition with its block in braces. -/
def mixedLayout : List Token :=
  [⟨.keyword .forWord, "for", .nowhere⟩, ⟨.identifier, "x", .nowhere⟩,
   ⟨.keyword .inWord, "in", .nowhere⟩, ⟨.identifier, "xs", .nowhere⟩, ⟨.indent, "", .nowhere⟩,
   ⟨.keyword .ifWord, "if", .nowhere⟩, ⟨.identifier, "x", .nowhere⟩,
   ⟨.symbol .less, "<", .nowhere⟩, ⟨.identifier, "y", .nowhere⟩,
   ⟨.symbol .openBrace, "\x7b", .nowhere⟩, ⟨.keyword .skipWord, "skip", .nowhere⟩,
   ⟨.symbol .closeBrace, "\x7d", .nowhere⟩, ⟨.dedent, "", .nowhere⟩]

theorem mixedLayout_in_braces :
    ∃ p, Program.ofTokens "main" mixedLayout = .ok p ∧
      Program.ofTokens "main" (mixedLayout.map Token.braced) = .ok p := by
  have hok : (Program.ofTokens "main" mixedLayout).isOk := by decide +kernel
  cases hp : Program.ofTokens "main" mixedLayout with
  | error e => simp [hp, Except.isOk, Except.toBool] at hok
  | ok p => exact ⟨p, rfl, Program.ofTokens_in_braces hp⟩

end Sable
