import Sable.Proofs.Reading.Expressions

/-!
# Tokens in front of a seam

A `Seam` is a list of tokens that is read once with the end of the file behind it (`ended`) and once
with a semicolon and more (`joined`). `Seam.Agree`: two rules read the same tokens in front of the seam
and give the same result, or both fail. No token behind the seam is of a kind with `Kind.IsInner`.
-/

namespace Sable

/-- A kind that cannot stand behind a seam. -/
def Kind.IsInner (k : Kind) : Prop :=
  k ∉ [.endOfFile, .symbol .semicolon]

instance (k : Kind) : Decidable k.IsInner :=
  inferInstanceAs (Decidable (_ ∉ _))

theorem Kind.IsInner.ne_endOfFile {k : Kind} (h : k.IsInner) : k ≠ .endOfFile := by
  rintro rfl
  exact h (by simp)

theorem Kind.not_isInner {k : Kind} : ¬ k.IsInner ↔ k = .endOfFile ∨ k = .symbol .semicolon := by
  unfold IsInner
  rw [Decidable.not_not, List.mem_cons, List.mem_singleton]

theorem Token.isWord_eq_false {t : Token} (h : ¬ t.kind.IsInner) (word : String) :
    t.isWord word = false := by
  have hne : t.kind ≠ .identifier := by
    intro hi
    rw [hi] at h
    exact h (by decide)
  simp [isWord, hne]

/-- Tokens, the end of the file that follows them in one place, and what follows them in another. -/
structure Seam where
  tokens : List Token
  finish : Token
  next : Token
  rest : List Token
  tokens_kind : ∀ t ∈ tokens, t.kind ≠ .endOfFile
  finish_kind : finish.kind = .endOfFile
  next_kind : ¬ next.kind.IsInner

namespace Seam

variable (s : Seam)

/-- The cursor in front of the same tokens where the file ends at the seam. -/
def ended (c : Cursor) : Cursor :=
  ⟨c.last, c.rest ++ [s.finish]⟩

/-- The cursor in front of the same tokens where more follows the seam. -/
def joined (c : Cursor) : Cursor :=
  ⟨c.last, c.rest ++ s.next :: s.rest⟩

/-- A cursor with fewer than `n` tokens to the seam. -/
structure Within (n : Nat) (c : Cursor) : Prop where
  suffix : c.rest <:+ s.tokens
  lt : c.rest.length < n

variable {s} {n m : Nat} {c : Cursor}

theorem Within.mono (h : s.Within m c) (hn : m ≤ n) : s.Within n c :=
  ⟨h.suffix, Nat.lt_of_lt_of_le h.lt hn⟩

theorem finish_not_inner : ¬ s.finish.kind.IsInner := by
  rw [s.finish_kind]
  decide

/-! ### Cursors at a seam -/

theorem here_ended (h : c.rest ≠ []) : (s.ended c).here = c.here := by
  obtain ⟨t, ts, hr⟩ := List.exists_cons_of_ne_nil h
  simp [ended, Cursor.here, hr]

theorem here_joined (h : c.rest ≠ []) : (s.joined c).here = c.here := by
  obtain ⟨t, ts, hr⟩ := List.exists_cons_of_ne_nil h
  simp [joined, Cursor.here, hr]

theorem here_ended_nil (h : c.rest = []) : (s.ended c).here = s.finish := by
  simp [ended, Cursor.here, h]

theorem here_joined_nil (h : c.rest = []) : (s.joined c).here = s.next := by
  simp [joined, Cursor.here, h]

theorem Within.kind_ne (hc : s.Within n c) (h : c.rest ≠ []) : c.here.kind ≠ .endOfFile := by
  obtain ⟨t, ts, hr⟩ := List.exists_cons_of_ne_nil h
  have hmem : t ∈ s.tokens := hc.suffix.subset (by simp [hr])
  simpa [Cursor.here, hr] using s.tokens_kind t hmem

theorem Within.here_mem (hc : s.Within n c) (h : c.rest ≠ []) : c.here ∈ s.tokens := by
  have hr := Cursor.rest_eq_of_kind rfl (hc.kind_ne h)
  exact hc.suffix.subset (by rw [hr]; exact List.mem_cons_self)

theorem Within.advance (hc : s.Within n c) (h : c.rest ≠ []) : s.Within (n - 1) c.advance := by
  have hr := Cursor.rest_eq_of_kind rfl (hc.kind_ne h)
  have hlt := hc.lt
  rw [hr, List.length_cons] at hlt
  exact ⟨.trans ⟨[c.here], hr.symm⟩ hc.suffix, by omega⟩

theorem Within.advance_ne_nil (hc : s.Within n c) (h : 1 < c.rest.length) : c.advance.rest ≠ [] := by
  have hr := Cursor.rest_eq_of_kind rfl (hc.kind_ne (List.ne_nil_of_length_pos (by omega)))
  intro hnil
  rw [hr, hnil, List.length_singleton] at h
  exact Nat.lt_irrefl 1 h

theorem Within.advance_ended (hc : s.Within n c) (h : c.rest ≠ []) :
    (s.ended c).advance = s.ended c.advance := by
  have hk := hc.kind_ne h
  obtain ⟨t, ts, hr⟩ := List.exists_cons_of_ne_nil h
  rw [Cursor.advance, here_ended h, if_neg hk, Cursor.advance, if_neg hk]
  simp [ended, hr]

theorem Within.advance_joined (hc : s.Within n c) (h : c.rest ≠ []) :
    (s.joined c).advance = s.joined c.advance := by
  have hk := hc.kind_ne h
  obtain ⟨t, ts, hr⟩ := List.exists_cons_of_ne_nil h
  rw [Cursor.advance, here_joined h, if_neg hk, Cursor.advance, if_neg hk]
  simp [joined, hr]

theorem onSameLine_joined (h : c.rest ≠ []) : (s.joined c).onSameLine = (s.ended c).onSameLine := by
  rw [Cursor.onSameLine, Cursor.onSameLine, here_ended h, here_joined h]
  rfl

/-- Behind the seam neither token is of an inner kind, in front of it both cursors see the same. -/
theorem kind_joined {k : Kind} (hk : k.IsInner) :
    (s.joined c).here.kind = k ↔ (s.ended c).here.kind = k := by
  by_cases h : c.rest = []
  · rw [here_joined_nil h, here_ended_nil h]
    constructor
    · rintro rfl
      exact absurd hk s.next_kind
    · rintro rfl
      exact absurd hk finish_not_inner
  · rw [here_joined h, here_ended h]

theorem ne_nil_of_kind {k : Kind} (hk : k ≠ .endOfFile) (h : (s.ended c).here.kind = k) :
    c.rest ≠ [] := by
  intro hr
  rw [here_ended_nil hr, s.finish_kind] at h
  exact hk h.symm

/-- The same for a token further on that is not beyond the seam. -/
theorem kindAt_joined {k : Kind} {i : Nat} (hk : k.IsInner) (hi : i ≤ c.rest.length) :
    (s.joined c).kindAt i = k ↔ (s.ended c).kindAt i = k := by
  rcases Nat.lt_or_eq_of_le hi with hlt | rfl
  · have hsome : c.rest[i]? = some c.rest[i] := List.getElem?_eq_getElem hlt
    simp [Cursor.kindAt, joined, ended, List.getElem?_append_left hlt, hsome]
  · have hend : (s.ended c).kindAt c.rest.length = s.finish.kind := by
      simp [Cursor.kindAt, ended]
    have hjoin : (s.joined c).kindAt c.rest.length = s.next.kind := by
      simp [Cursor.kindAt, joined]
    rw [hend, hjoin]
    constructor
    · rintro rfl
      exact absurd hk s.next_kind
    · rintro rfl
      exact absurd hk finish_not_inner

theorem kindAt_joined_mem {ks : List Kind} {i : Nat} (hks : ∀ k ∈ ks, k.IsInner)
    (hi : i ≤ c.rest.length) : (s.joined c).kindAt i ∈ ks ↔ (s.ended c).kindAt i ∈ ks := by
  constructor
  · intro h
    rwa [(kindAt_joined (hks _ h) hi).1 rfl]
  · intro h
    rwa [(kindAt_joined (hks _ h) hi).2 rfl]

/-- A token of an inner kind is in front of the seam. -/
theorem lt_of_kindAt {k : Kind} {i : Nat} (hk : k.IsInner) (h : (s.ended c).kindAt i = k) :
    i < c.rest.length := by
  refine Nat.lt_of_not_le fun hi => ?_
  have hend : (s.ended c).kindAt i = s.finish.kind := by
    rw [Cursor.kindAt, ended]
    rcases Nat.lt_or_eq_of_le hi with hlt | rfl
    · have hnone : (c.rest ++ [s.finish])[i]? = none := by
        rw [List.getElem?_eq_none_iff, List.length_append, List.length_singleton]
        omega
      simp [hnone]
    · simp
  rw [hend] at h
  exact finish_not_inner (h ▸ hk)

end Seam

/-! ### Reading in front of a seam -/

open Sable.Parser

section Agrees

variable {α β : Type} {s : Seam} {i n m : Nat} {r r' : Except SyntaxError (α × Cursor)}
  {p q p' q' : Parser α} {f g : α → Parser β} {c c' : Cursor}

/-- Both fail, or both read the same and leave fewer than `n` tokens in front of the seam. -/
inductive Agrees (s : Seam) (n : Nat) :
    Except SyntaxError (α × Cursor) → Except SyntaxError (α × Cursor) → Prop
  | ok (a : α) {d : Cursor} (h : s.Within n d) : Agrees s n (.ok (a, s.ended d)) (.ok (a, s.joined d))
  | error (e e' : SyntaxError) : Agrees s n (.error e) (.error e')

theorem Agrees.mono (h : Agrees s m r r') (hn : m ≤ n) : Agrees s n r r' := by
  cases h with
  | ok a hd => exact .ok a (hd.mono hn)
  | error e e' => exact .error e e'

theorem Agrees.bind (hp : Agrees s m (p c) (q c'))
    (hf : ∀ a d, s.Within m d → Agrees s n (f a (s.ended d)) (g a (s.joined d))) :
    Agrees s n ((p >>= f) c) ((q >>= g) c') := by
  show Agrees s n (p c >>= fun x => f x.1 x.2) (q c' >>= fun x => g x.1 x.2)
  generalize p c = r at hp ⊢
  generalize q c' = r' at hp ⊢
  cases hp with
  | ok a hd => exact hf a _ hd
  | error e e' => exact .error e e'

/-- Nothing is read where no token is left. -/
theorem Agrees.error_of_zero (h : Agrees s 0 r r') : ∃ e e', r = .error e ∧ r' = .error e' := by
  cases h with
  | ok a hd => exact absurd hd.lt (Nat.not_lt_zero _)
  | error e e' => exact ⟨e, e', rfl, rfl⟩

/-- With fewer than `n` tokens to the seam, `p` and `q` read the same, and at least `i` tokens. -/
def Seam.Agree (s : Seam) (i n : Nat) (p q : Parser α) : Prop :=
  ∀ m c, m ≤ n → s.Within m c → Agrees s (m - i) (p (s.ended c)) (q (s.joined c))

/-- The same with a token at least in front of the seam. -/
def Seam.AgreeIn (s : Seam) (i n : Nat) (p q : Parser α) : Prop :=
  ∀ m c, m ≤ n → s.Within m c → c.rest ≠ [] → Agrees s (m - i) (p (s.ended c)) (q (s.joined c))

theorem Seam.Agree.inside (h : s.Agree i n p q) : s.AgreeIn i n p q :=
  fun m c hm hc _ => h m c hm hc

theorem Seam.Agree.zero : s.Agree i 0 p q := by
  intro m c hm hc
  exact absurd hc.lt (by omega)

theorem Seam.Agree.mono (h : s.Agree i n p q) (hm : m ≤ n) : s.Agree i m p q :=
  fun k c hk hc => h k c (Nat.le_trans hk hm) hc

theorem Seam.Agree.weak (h : s.Agree i n p q) : s.Agree 0 n p q :=
  fun m c hm hc => (h m c hm hc).mono (Nat.sub_le m i)

theorem Seam.AgreeIn.weak (h : s.AgreeIn i n p q) : s.AgreeIn 0 n p q :=
  fun m c hm hc hr => (h m c hm hc hr).mono (Nat.sub_le m i)

theorem Seam.Agree.pure (a : α) : s.Agree 0 n (Pure.pure a) (Pure.pure a) :=
  fun _ _ _ hc => .ok a hc

theorem Seam.Agree.unexpected (what : String) :
    s.Agree i n (Parser.unexpected what : Parser α) (Parser.unexpected what) :=
  fun _ _ _ _ => .error _ _

theorem Seam.Agree.fail (cause : SyntaxCause) (span : Span) :
    s.Agree i n (Parser.fail cause span : Parser α) (Parser.fail cause span) :=
  fun _ _ _ _ => .error _ _

theorem Seam.Agree.bind (hp : s.Agree i n p q) (hf : ∀ a, s.Agree 0 (n - i) (f a) (g a)) :
    s.Agree i n (p >>= f) (q >>= g) :=
  fun m c hm hc => (hp m c hm hc).bind fun a d hd => hf a _ d (Nat.sub_le_sub_right hm i) hd

theorem Seam.AgreeIn.bind (hp : s.AgreeIn i n p q) (hf : ∀ a, s.Agree 0 (n - i) (f a) (g a)) :
    s.AgreeIn i n (p >>= f) (q >>= g) :=
  fun m c hm hc hr => (hp m c hm hc hr).bind fun a d hd => hf a _ d (Nat.sub_le_sub_right hm i) hd

theorem Seam.Agree.ite {P : Prop} [Decidable P] (h : s.Agree i n p q) (h' : s.Agree i n p' q') :
    s.Agree i n (if P then p else p') (if P then q else q') := by
  split
  · exact h
  · exact h'

theorem Seam.AgreeIn.ite {P : Prop} [Decidable P] (h : s.AgreeIn i n p q)
    (h' : s.AgreeIn i n p' q') : s.AgreeIn i n (if P then p else p') (if P then q else q') := by
  split
  · exact h
  · exact h'

end Agrees

/-! ### Primitive rules -/

section Primitive

variable {α β : Type} {s : Seam} {i n : Nat} {k : Kind} {p q p' q' : Parser α}

theorem Seam.Within.agrees_next {f g : Token → Parser α} {c : Cursor} {m : Nat} (hc : s.Within m c)
    (hr : c.rest ≠ []) (h : Agrees s n (f c.here (s.ended c.advance)) (g c.here (s.joined c.advance))) :
    Agrees s n ((Parser.next >>= f) (s.ended c)) ((Parser.next >>= g) (s.joined c)) := by
  rwa [next_bind, next_bind, here_ended hr, here_joined hr, hc.advance_ended hr, hc.advance_joined hr]

theorem Seam.AgreeIn.next : s.AgreeIn 1 n Parser.next Parser.next := by
  intro m c _ hc hr
  show Agrees s (m - 1) (.ok ((s.ended c).here, (s.ended c).advance))
    (.ok ((s.joined c).here, (s.joined c).advance))
  rw [here_ended hr, here_joined hr, hc.advance_ended hr, hc.advance_joined hr]
  exact .ok _ (hc.advance hr)

theorem Seam.Agree.lastSpan : s.Agree 0 n Parser.lastSpan Parser.lastSpan :=
  fun _ c _ hc => .ok c.last hc

theorem Seam.AgreeIn.onSameLine : s.AgreeIn 0 n Parser.onSameLine Parser.onSameLine := by
  intro m c _ hc hr
  show Agrees s (m - 0) (.ok ((s.ended c).onSameLine, s.ended c))
    (.ok ((s.joined c).onSameLine, s.joined c))
  rw [onSameLine_joined hr]
  exact .ok _ hc

/-- A rule that goes by the token in front, where it does the same at the end of the file as at a
semicolon. -/
theorem Seam.Agree.peek {f g : Token → Parser β} (h : ∀ t ∈ s.tokens, s.AgreeIn i n (f t) (g t))
    (hend : ∀ t t', t.kind = .endOfFile → ¬ t'.kind.IsInner → s.Agree i n (f t) (g t')) :
    s.Agree i n (Parser.peek >>= f) (Parser.peek >>= g) := by
  intro m c hm hc
  rw [peek_bind, peek_bind]
  by_cases hr : c.rest = []
  · rw [here_ended_nil hr, here_joined_nil hr]
    exact hend _ _ s.finish_kind s.next_kind m c hm hc
  · rw [here_ended hr, here_joined hr]
    exact h _ (hc.here_mem hr) m c hm hc hr

/-- A rule that goes by the kind in front, where it does the same at the end of the file as at a
semicolon. -/
theorem Seam.Agree.kind {f g : Kind → Parser β} (h : ∀ k, s.AgreeIn i n (f k) (g k))
    (hend : ∀ k, ¬ k.IsInner → s.Agree i n (f .endOfFile) (g k)) :
    s.Agree i n (Parser.kind >>= f) (Parser.kind >>= g) := by
  refine Agree.peek (f := fun t => f t.kind) (g := fun t => g t.kind) (fun t _ => h t.kind) ?_
  intro t t' ht ht'
  rw [ht]
  exact hend t'.kind ht'

theorem Seam.Agree.ifKind (hk : k.IsInner) (h : s.AgreeIn i n p q) (h' : s.Agree i n p' q') :
    s.Agree i n (do if (← Parser.kind) = k then p else p')
      (do if (← Parser.kind) = k then q else q') := by
  refine .kind (fun k' => .ite h h'.inside) fun k' hk' => ?_
  rw [if_neg hk.ne_endOfFile.symm, if_neg (by rintro rfl; exact hk' hk)]
  exact h'

/-- A token that has to be on the line of the one before it. -/
theorem Seam.Agree.ifKindOnLine (hk : k.IsInner) (h : s.AgreeIn i n p q) (h' : s.Agree i n p' q') :
    s.Agree i n (do if (← Parser.kind) = k ∧ (← Parser.onSameLine) then p else p')
      (do if (← Parser.kind) = k ∧ (← Parser.onSameLine) then q else q') := by
  refine .kind (fun k' m c hm hc hr => ?_) fun k' hk' m c hm hc => ?_
  · rw [onSameLine_bind, onSameLine_bind, onSameLine_joined hr]
    exact AgreeIn.ite h h'.inside m c hm hc hr
  · rw [onSameLine_bind, onSameLine_bind, if_neg fun h => hk.ne_endOfFile h.1.symm,
      if_neg (by rintro ⟨rfl, -⟩; exact hk' hk)]
    exact h' m c hm hc

/-- Both readings give the same answer to `test`, and they say yes only in front of the seam. -/
def Seam.Tests (s : Seam) (test : Parser Bool) : Prop :=
  ∀ c, ∃ yes : Bool, test (s.ended c) = .ok (yes, s.ended c) ∧
    test (s.joined c) = .ok (yes, s.joined c) ∧ (yes = true → c.rest ≠ [])

theorem Seam.tests_atWord (word : String) : s.Tests (Parser.atWord word) := by
  intro c
  have hrun (c : Cursor) : Parser.atWord word c = .ok (c.here.isWord word, c) := rfl
  rw [hrun, hrun]
  by_cases hr : c.rest = []
  · refine ⟨false, ?_, ?_, nofun⟩
    · rw [here_ended_nil hr, Token.isWord_eq_false finish_not_inner]
    · rw [here_joined_nil hr, Token.isWord_eq_false s.next_kind]
  · refine ⟨c.here.isWord word, ?_, ?_, fun _ => hr⟩
    · rw [here_ended hr]
    · rw [here_joined hr]

theorem Seam.Agree.test {test : Parser Bool} {f g : Bool → Parser β} (ht : s.Tests test)
    (h : s.AgreeIn i n (f true) (g true)) (h' : s.Agree i n (f false) (g false)) :
    s.Agree i n (test >>= f) (test >>= g) := by
  intro m c hm hc
  obtain ⟨yes, hended, hjoined, hyes⟩ := ht c
  show Agrees s _ (test (s.ended c) >>= _) (test (s.joined c) >>= _)
  rw [hended, hjoined]
  cases yes with
  | true => exact h m c hm hc (hyes rfl)
  | false => exact h' m c hm hc

theorem Seam.AgreeIn.test {test : Parser Bool} {f g : Bool → Parser β} (ht : s.Tests test)
    (h : ∀ yes, s.AgreeIn i n (f yes) (g yes)) : s.AgreeIn i n (test >>= f) (test >>= g) := by
  intro m c hm hc hr
  obtain ⟨yes, hended, hjoined, -⟩ := ht c
  show Agrees s _ (test (s.ended c) >>= _) (test (s.joined c) >>= _)
  rw [hended, hjoined]
  exact h yes m c hm hc hr

theorem Seam.Agree.accept {f g : Bool → Parser β} (hk : k.IsInner)
    (h : s.Agree (i - 1) (n - 1) (f true) (g true)) (h' : s.Agree i n (f false) (g false)) :
    s.Agree i n (Parser.accept k >>= f) (Parser.accept k >>= g) := by
  intro m c hm hc
  rw [accept_bind, accept_bind]
  by_cases hend : (s.ended c).here.kind = k
  · have hr := ne_nil_of_kind hk.ne_endOfFile hend
    rw [if_pos hend, if_pos ((kind_joined hk).2 hend), hc.advance_ended hr, hc.advance_joined hr]
    exact (h (m - 1) _ (by omega) (hc.advance hr)).mono (by omega)
  · rw [if_neg hend, if_neg (mt (kind_joined hk).1 hend)]
    exact h' m c hm hc

theorem Seam.Agree.expect (hk : k.IsInner) : s.Agree 1 n (Parser.expect k) (Parser.expect k) := by
  refine .ifKind hk .next (.unexpected _)

/-- Any token may be asked for in front of the seam. -/
theorem Seam.AgreeIn.expect : s.AgreeIn 1 n (Parser.expect k) (Parser.expect k) := by
  intro m c hm hc hr
  rw [expect_eq, expect_eq, here_ended hr, here_joined hr, hc.advance_ended hr, hc.advance_joined hr]
  split
  · exact .ok _ (hc.advance hr)
  · exact .error _ _

theorem Seam.Agree.identifier (what : String) :
    s.Agree 1 n (Parser.identifier what) (Parser.identifier what) :=
  .ifKind (by decide) (AgreeIn.next.bind fun _ => .pure _) (.unexpected _)

theorem Seam.Agree.after (hk : k.IsInner) (h : s.Agree 0 (n - 1) p q) :
    s.Agree 0 n (Parser.after k p) (Parser.after k q) :=
  .accept hk (h.bind fun _ => .pure _) (.pure _)

theorem Seam.Agree.commaList : ∀ {n b b' : Nat}, n ≤ b → n ≤ b' → s.Agree 0 n p q →
    s.Agree 0 n (Parser.commaList p b) (Parser.commaList q b')
  | 0, _, _, _, _, _ => .zero
  | n + 1, b + 1, b' + 1, hb, hb', h => by
    have hrest : s.Agree 0 n (Parser.commaList p b) (Parser.commaList q b') :=
      .commaList (Nat.le_of_succ_le_succ hb) (Nat.le_of_succ_le_succ hb') (h.mono (Nat.le_succ n))
    exact h.bind fun _ => .accept (by decide) (hrest.bind fun _ => .pure _) (.pure _)

theorem Seam.Agree.listUntil (hk : k.IsInner) : ∀ {n b b' : Nat}, n ≤ b → n ≤ b' →
    s.Agree 0 n p q → s.Agree 0 n (Parser.listUntil k p b) (Parser.listUntil k q b')
  | 0, _, _, _, _, _ => .zero
  | n + 1, b + 1, b' + 1, hb, hb', h => by
    have hrest : s.Agree 0 n (Parser.listUntil k p b) (Parser.listUntil k q b') :=
      .listUntil hk (Nat.le_of_succ_le_succ hb) (Nat.le_of_succ_le_succ hb')
        (h.mono (Nat.le_succ n))
    refine .ifKind hk (Agree.pure _).inside ?_
    exact h.bind fun _ => .accept (by decide) (hrest.bind fun _ => .pure _) (.pure _)

end Primitive

end Sable
