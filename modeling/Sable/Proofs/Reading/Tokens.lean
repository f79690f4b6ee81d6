import Sable.Proofs.Reading.Parts

/-!
# Reading moves forward

`Reads`: what a rule leaves unread is the end of what it was given, `i` tokens further on at least, and
its error points at tokens that were ahead. Equations for the primitive rules at a cursor, and one lemma
for each way to combine rules.
-/

namespace Sable

/-- Anything in which the grammar keeps its place among the tokens, and which can be moved to
another place. -/
class Located (σ : Type) where
  cursor : σ → Cursor
  moved : σ → Cursor → σ
  cursor_moved : ∀ s c, cursor (moved s c) = c

instance : Located Cursor where
  cursor := id
  moved _ c := c
  cursor_moved _ _ := rfl

instance : Located Progress where
  cursor := Progress.cursor
  moved o c := { o with cursor := c }
  cursor_moved _ _ := rfl

/-- The tokens still to be read. -/
def unread {σ : Type} [Located σ] (s : σ) : List Token :=
  (Located.cursor s).rest

@[simp] theorem unread_cursor (c : Cursor) : unread c = c.rest := rfl

@[simp] theorem unread_progress (o : Progress) : unread o = o.cursor.rest := rfl

section Rules

variable {σ ε α β : Type}

theorem mapError_eq_ok {x : Except ε α} {f : ε → β} {a : α} : x.mapError f = .ok a ↔ x = .ok a := by
  cases x with
  | error e => exact ⟨nofun, nofun⟩
  | ok b =>
    show Except.ok b = Except.ok a ↔ Except.ok b = Except.ok a
    rw [Except.ok.injEq, Except.ok.injEq]

theorem bind_eq_ok {p : StateT σ (Except ε) α} {f : α → StateT σ (Except ε) β} {s u : σ} {b : β} :
    (p >>= f) s = .ok (b, u) ↔ ∃ a t, p s = .ok (a, t) ∧ f a t = .ok (b, u) := by
  show (p s >>= fun x => f x.1 x.2) = _ ↔ _
  cases p s with
  | error e => simp [bind, Except.bind]
  | ok x =>
    constructor
    · exact fun h => ⟨x.1, x.2, rfl, h⟩
    · rintro ⟨a, t, h, hf⟩
      cases h
      exact hf

theorem ite_run (P : Prop) [Decidable P] (p q : StateT σ (Except ε) α) (s : σ) :
    (if P then p else q) s = if P then p s else q s := by
  split <;> rfl

end Rules

/-! ### The cursor -/

namespace Cursor

variable {c : Cursor} {k : Kind}

theorem rest_eq_of_kind (h : c.here.kind = k) (hk : k ≠ .endOfFile) :
    c.rest = c.here :: c.advance.rest := by
  cases hr : c.rest with
  | nil =>
    have : c.here.kind = .endOfFile := by simp [here, hr, Token.endOfFile]
    exact absurd (h ▸ this) hk
  | cons t ts =>
    have ht : c.here = t := by simp [here, hr]
    have hne : ¬ t.kind = .endOfFile := by rw [← ht, h]; exact hk
    simp [advance, ht, hne, hr]

theorem advance_eq_of_end (h : c.here.kind = .endOfFile) : c.advance = c := by
  simp [advance, h]

/-- A token ahead of another kind than the one in front is the one that comes after it. -/
theorem here_advance {k' : Kind} (h : c.here.kind = k) (hk : k ≠ .endOfFile)
    (h' : c.kindAt 1 = k') (hne : k ≠ k') : c.advance.here.kind = k' := by
  have hr := rest_eq_of_kind h hk
  rw [kindAt, hr] at h'
  cases ha : c.advance.rest with
  | nil =>
    simp only [ha] at h'
    exact absurd (h.symm.trans (by simpa using h')) hne
  | cons t ts =>
    simp only [ha] at h'
    simpa [here, ha] using h'

end Cursor

/-! ### What the primitive rules do -/

namespace Parser

variable {α β : Type} (c : Cursor)

theorem peek_bind (f : Token → Parser β) : (peek >>= f) c = f c.here c := rfl

theorem kind_bind (f : Kind → Parser β) : (kind >>= f) c = f c.here.kind c := rfl

theorem kindAt_bind (n : Nat) (f : Kind → Parser β) : (kindAt n >>= f) c = f (c.kindAt n) c := rfl

theorem next_bind (f : Token → Parser β) : (next >>= f) c = f c.here c.advance := rfl

theorem onSameLine_bind (f : Bool → Parser β) : (onSameLine >>= f) c = f c.onSameLine c := rfl

theorem atWord_bind (word : String) (f : Bool → Parser β) :
    (atWord word >>= f) c = f (c.here.isWord word) c := rfl

theorem unexpected_eq (what : String) :
    (unexpected what : Parser α) c = .error ⟨.unexpected c.here what, c.here.span⟩ := rfl

theorem accept_eq (k : Kind) :
    accept k c = if c.here.kind = k then .ok (true, c.advance) else .ok (false, c) := by
  unfold accept
  rw [kind_bind]
  split <;> rfl

theorem accept_bind (k : Kind) (f : Bool → Parser β) :
    (accept k >>= f) c = if c.here.kind = k then f true c.advance else f false c := by
  show (accept k c >>= fun x => f x.1 x.2) = _
  rw [accept_eq]
  split <;> rfl

theorem expect_eq (k : Kind) :
    expect k c = if c.here.kind = k then .ok (c.here, c.advance)
      else .error ⟨.unexpected c.here s!"'{k.describe}'", c.here.span⟩ := by
  unfold expect
  rw [kind_bind]
  split <;> rfl

theorem expect_bind (k : Kind) (f : Token → Parser β) :
    (expect k >>= f) c = if c.here.kind = k then f c.here c.advance
      else .error ⟨.unexpected c.here s!"'{k.describe}'", c.here.span⟩ := by
  show (expect k c >>= fun x => f x.1 x.2) = _
  rw [expect_eq]
  split <;> rfl

theorem identifier_eq (what : String) :
    identifier what c = if c.here.kind = .identifier then .ok (c.here.name, c.advance)
      else .error ⟨.unexpected c.here what, c.here.span⟩ := by
  unfold identifier
  rw [kind_bind]
  split <;> rfl

theorem identifier_bind (what : String) (f : Name → Parser β) :
    (identifier what >>= f) c = if c.here.kind = .identifier then f c.here.name c.advance
      else .error ⟨.unexpected c.here what, c.here.span⟩ := by
  show (identifier what c >>= fun x => f x.1 x.2) = _
  rw [identifier_eq]
  split <;> rfl

end Parser

/-! ### Where tokens stand -/

/-- Neither end of the span is more than `n` bytes into the text. -/
structure Span.Below (n : Nat) (s : Span) : Prop where
  start : s.start.offset ≤ n
  stop : s.stop.offset ≤ n

/-- The tokens still to be read are not more than `n` bytes into the text, nor is the last one that
was read. -/
structure Cursor.Below (n : Nat) (c : Cursor) : Prop where
  last : c.last.Below n
  rest : ∀ t ∈ c.rest, t.span.Below n

theorem Span.Below.upTo {n : Nat} {s t : Span} (hs : s.Below n) (ht : t.Below n) :
    (s.upTo t).Below n :=
  ⟨hs.start, ht.stop⟩

theorem Span.Below.mono {n m : Nat} {s : Span} (h : s.Below n) (hm : n ≤ m) : s.Below m :=
  ⟨Nat.le_trans h.start hm, Nat.le_trans h.stop hm⟩

namespace Cursor

variable {n : Nat} {c : Cursor}

theorem Below.here (h : c.Below n) : c.here.span.Below n := by
  unfold Cursor.here
  cases hrest : c.rest with
  | nil => exact h.last
  | cons t rest => exact h.rest t (by rw [hrest]; exact List.mem_cons_self)

theorem Below.advance (h : c.Below n) : c.advance.Below n := by
  unfold Cursor.advance
  split
  · exact h
  · exact ⟨h.here, fun t ht => h.rest t (List.mem_of_mem_tail ht)⟩

/-- The token that was passed is the last one that was read. -/
theorem Below.passed (h : c.advance.Below n) : c.here.span.Below n := by
  unfold Cursor.advance at h
  split at h
  · exact h.here
  · exact h.last

theorem exists_below (c : Cursor) : ∃ n, c.Below n := by
  have hbound (spans : List Span) : ∃ n, ∀ s ∈ spans, s.Below n := by
    induction spans with
    | nil => exact ⟨0, List.forall_mem_nil _⟩
    | cons s spans ih =>
      obtain ⟨n, hn⟩ := ih
      have hs : s.Below (s.start.offset + s.stop.offset) :=
        ⟨Nat.le_add_right _ _, Nat.le_add_left _ _⟩
      exact ⟨_, List.forall_mem_cons.2 ⟨hs.mono (Nat.le_add_right _ n), fun t ht =>
        (hn t ht).mono (Nat.le_add_left _ _)⟩⟩
  obtain ⟨n, hn⟩ := hbound (c.last :: c.rest.map (·.span))
  obtain ⟨hlast, hrest⟩ := List.forall_mem_cons.1 hn
  exact ⟨n, hlast, List.forall_mem_map.1 hrest⟩

end Cursor

/-! ### What is read -/

section Reads

variable {σ α β : Type} [Located σ] {n i j : Nat} {P P' : Kind → Prop} {s : σ} {c : Cursor}
  {r : Except SyntaxError (α × σ)} {p : StateT σ (Except SyntaxError) α}
  {f : α → StateT σ (Except SyntaxError) β}

/-- What came of reading from `s`: an error that points below `n`, or something that `i` tokens at
least were read for, all of kinds in `P`, with the rest left as it was. -/
inductive Ended (n i : Nat) (P : Kind → Prop) (s : σ) : Except SyntaxError (α × σ) → Prop
  | ok {a : α} {t : σ} {used : List Token} (hu : unread s = used ++ unread t)
      (hP : ∀ x ∈ used, P x.kind) (hi : i ≤ used.length)
      (hl : (Located.cursor t).last.Below n) : Ended n i P s (.ok (a, t))
  | error {e : SyntaxError} (he : e.span.Below n) : Ended n i P s (.error e)

/-- If `r` is what came of reading from `s`, `i` tokens at least were read, of kinds in `P`, and the
rest is left as it was. Where all that was ahead is below `n`, so is the place of an error. -/
def Reads (n i : Nat) (P : Kind → Prop) (s : σ) (r : Except SyntaxError (α × σ)) : Prop :=
  (Located.cursor s).Below n → Ended n i P s r

/-- What is left unread is the end of what there was. -/
abbrev Forward (n : Nat) (s : σ) (r : Except SyntaxError (α × σ)) : Prop :=
  Reads n 0 (fun _ => True) s r

/-- A token at least was read. -/
abbrev Advances (n : Nat) (s : σ) (r : Except SyntaxError (α × σ)) : Prop :=
  Reads n 1 (fun _ => True) s r

theorem Reads.forward (h : Reads n i P s r) : Forward n s r := by
  intro hs
  cases h hs with
  | ok hu _ _ hl => exact .ok hu (fun _ _ => trivial) (Nat.zero_le _) hl
  | error he => exact .error he

/-- The tokens that were read, whatever text they stand in. -/
theorem Reads.exists_used (h : ∀ {n}, Reads n i P s r) {t : σ} {a : α} (hr : r = .ok (a, t)) :
    ∃ used, unread s = used ++ unread t ∧ (∀ x ∈ used, P x.kind) ∧ i ≤ used.length := by
  obtain ⟨n, hn⟩ := (Located.cursor s).exists_below
  subst hr
  cases h hn with
  | ok hu hP hi _ => exact ⟨_, hu, hP, hi⟩

theorem Reads.suffix (h : ∀ {n}, Reads n i P s r) {t : σ} {a : α} (hr : r = .ok (a, t)) :
    unread t <:+ unread s := by
  obtain ⟨used, hu, -⟩ := Reads.exists_used h hr
  exact ⟨used, hu.symm⟩

theorem Advances.length_lt (h : ∀ {n}, Advances n s r) {t : σ} {a : α} (hr : r = .ok (a, t)) :
    (unread t).length < (unread s).length := by
  obtain ⟨used, hu, -, hi⟩ := Reads.exists_used h hr
  rw [hu, List.length_append]
  omega

theorem Reads.error {e : SyntaxError} (he : (Located.cursor s).Below n → e.span.Below n) :
    Reads n i P s (.error e : Except SyntaxError (α × σ)) :=
  fun hs => .error (he hs)

/-- Nothing is read, and the state may have changed in other respects. -/
theorem Reads.still {a : α} {t : σ} (h : Located.cursor t = Located.cursor s) :
    Reads n 0 P s (.ok (a, t)) := by
  intro hs
  have hu : unread s = [] ++ unread t := by rw [unread, unread, h, List.nil_append]
  exact .ok hu (List.forall_mem_nil _) (Nat.zero_le _) (h ▸ hs.last)

theorem Reads.ok (a : α) : Reads n 0 P s (.ok (a, s)) :=
  .still rfl

theorem Reads.pure (a : α) : Reads n 0 P s ((Pure.pure a : StateT σ (Except SyntaxError) α) s) :=
  .ok a

theorem Reads.followed (hp : Reads n i P s (p s))
    (hf : ∀ a t, p s = .ok (a, t) → Reads n j P t (f a t)) : Reads n (i + j) P s ((p >>= f) s) := by
  intro hs
  have hfirst := hp hs
  show Ended n (i + j) P s (p s >>= fun x => f x.1 x.2)
  generalize p s = r at hfirst hf
  cases hfirst with
  | error he => exact .error he
  | @ok a t used hu hP hi hl =>
    have ht : (Located.cursor t).Below n := by
      refine ⟨hl, fun x hx => hs.rest x ?_⟩
      show x ∈ unread s
      rw [hu]
      exact List.mem_append_right _ hx
    have hsecond := hf a t rfl ht
    show Ended n (i + j) P s (f a t)
    generalize f a t = r at hsecond
    cases hsecond with
    | error he => exact .error he
    | ok hm hP' hj hl' =>
      refine .ok (by rw [hu, hm, List.append_assoc]) (List.forall_mem_append.2 ⟨hP, hP'⟩) ?_ hl'
      rw [List.length_append]
      exact Nat.add_le_add hi hj

theorem Reads.bind (hp : Reads n 0 P s (p s))
    (hf : ∀ a t, p s = .ok (a, t) → Reads n 0 P t (f a t)) : Reads n 0 P s ((p >>= f) s) :=
  hp.followed hf

theorem Advances.bind (hp : Advances n s (p s))
    (hf : ∀ a t, p s = .ok (a, t) → Forward n t (f a t)) : Advances n s ((p >>= f) s) :=
  hp.followed hf

theorem Advances.bind_right (hp : Forward n s (p s))
    (hf : ∀ a t, p s = .ok (a, t) → Advances n t (f a t)) : Advances n s ((p >>= f) s) :=
  hp.followed hf

theorem Reads.past {r : Except SyntaxError (α × Cursor)} (hne : c.here.kind ≠ .endOfFile)
    (hk : P c.here.kind) (h : Reads n 0 P c.advance r) : Reads n 1 P c r := by
  intro hc
  cases h hc.advance with
  | error he => exact .error he
  | @ok a t used hu hP hi hl =>
    have hu' : unread c = (c.here :: used) ++ unread t := by
      rw [unread_cursor, Cursor.rest_eq_of_kind rfl hne]
      exact congrArg _ hu
    exact .ok hu' (List.forall_mem_cons.2 ⟨hk, hP⟩) (by simp) hl

theorem Reads.advance {r : Except SyntaxError (α × Cursor)} (hk : P c.here.kind)
    (h : Reads n 0 P c.advance r) : Reads n 0 P c r := by
  by_cases he : c.here.kind = .endOfFile
  · rwa [c.advance_eq_of_end he] at h
  · intro hc
    cases h.past he hk hc with
    | ok hu hP _ hl => exact .ok hu hP (Nat.zero_le _) hl
    | error he => exact .error he

theorem Advances.of_advance {r : Except SyntaxError (α × Cursor)} (hk : c.here.kind ≠ .endOfFile)
    (h : Forward n c.advance r) : Advances n c r :=
  h.past hk trivial

end Reads

namespace Parser

section Repetitions

variable {α β : Type} {n : Nat} {P : Kind → Prop} {item : Parser α} {c : Cursor} {k : Kind}

theorem reads_next {f : Token → Parser β} (hk : P c.here.kind)
    (h : Reads n 0 P c.advance (f c.here c.advance)) : Reads n 0 P c ((next >>= f) c) :=
  .advance hk h

theorem reads_expect {f : Token → Parser β} (hk : P k)
    (h : Reads n 0 P c.advance (f c.here c.advance)) : Reads n 0 P c ((expect k >>= f) c) := by
  rw [expect_bind]
  split
  · rename_i hc
    exact .advance (hc ▸ hk) h
  · exact .error Cursor.Below.here

theorem reads_identifier {f : Name → Parser β} {what : String} (hk : P .identifier)
    (h : Reads n 0 P c.advance (f c.here.name c.advance)) :
    Reads n 0 P c ((identifier what >>= f) c) := by
  rw [identifier_bind]
  split
  · rename_i hc
    exact .advance (hc ▸ hk) h
  · exact .error Cursor.Below.here

theorem advances_next {f : Token → Parser β} (hk : c.here.kind ≠ .endOfFile)
    (h : Forward n c.advance (f c.here c.advance)) : Advances n c ((next >>= f) c) :=
  .of_advance hk h

theorem advances_expect {f : Token → Parser β} (hk : k ≠ .endOfFile)
    (h : Forward n c.advance (f c.here c.advance)) : Advances n c ((expect k >>= f) c) := by
  rw [expect_bind]
  split
  · rename_i hc
    exact .of_advance (hc ▸ hk) h
  · exact .error Cursor.Below.here

theorem advances_identifier {f : Name → Parser β} {what : String}
    (h : Forward n c.advance (f c.here.name c.advance)) :
    Advances n c ((identifier what >>= f) c) := by
  rw [identifier_bind]
  split
  · rename_i hc
    exact .of_advance (by simp [hc]) h
  · exact .error Cursor.Below.here

theorem reads_after (hk : P k) (h : ∀ c, Reads n 0 P c (item c)) : Reads n 0 P c (after k item c) := by
  simp only [after, accept_bind]
  split
  · rename_i hc
    exact .advance (hc ▸ hk) (.bind (h _) fun _ _ _ => .pure _)
  · exact .pure _

theorem reads_listUntil (hk : P (.symbol .comma)) (h : ∀ c, Reads n 0 P c (item c)) :
    ∀ (budget : Nat) (c : Cursor), Reads n 0 P c (listUntil k item budget c)
  | 0, _ => .pure _
  | budget + 1, c => by
    simp only [listUntil, kind_bind, ite_run]
    split
    · exact .pure _
    · refine .bind (h c) fun a t _ => ?_
      simp only [accept_bind]
      split
      · rename_i hc
        exact .advance (hc ▸ hk) (.bind (reads_listUntil hk h budget _) fun _ _ _ => .pure _)
      · exact .pure _

theorem reads_commaList (hk : P (.symbol .comma)) (h : ∀ c, Reads n 0 P c (item c)) :
    ∀ (budget : Nat) (c : Cursor), Reads n 0 P c (commaList item budget c)
  | 0, _ => .pure _
  | budget + 1, c => by
    simp only [commaList]
    refine .bind (h c) fun a t _ => ?_
    simp only [accept_bind]
    split
    · rename_i hc
      exact .advance (hc ▸ hk) (.bind (reads_commaList hk h budget _) fun _ _ _ => .pure _)
    · exact .pure _

end Repetitions

end Parser

section Moves

variable {σ α β : Type} [Located σ] {n : Nat} {p q : StateT σ (Except SyntaxError) α}
  {f : α → StateT σ (Except SyntaxError) β}

/-- Wherever `p` is tried, it moves forward. -/
def Moves (n : Nat) (p : StateT σ (Except SyntaxError) α) : Prop :=
  ∀ s, Forward n s (p s)

theorem Moves.pure (a : α) : Moves n (Pure.pure a : StateT σ (Except SyntaxError) α) :=
  fun _ => .pure a

theorem Moves.bind (hp : Moves n p) (hf : ∀ a, Moves n (f a)) : Moves n (p >>= f) :=
  fun s => .bind (hp s) fun a t _ => hf a t

theorem Moves.ite {P : Prop} [Decidable P] (hp : Moves n p) (hq : Moves n q) :
    Moves n (if P then p else q) := by
  split
  · exact hp
  · exact hq

/-- A lifted rule does to the cursor what the rule does, and nothing else. -/
theorem lift_eq_ok {p : Parser α} {o t : Progress} {a : α} :
    (liftM p : Reader α) o = .ok (a, t) ↔
      ∃ c, p o.cursor = .ok (a, c) ∧ t = { o with cursor := c } := by
  change Reader.onCursor p o = _ ↔ _
  unfold Reader.onCursor
  split
  · rename_i b c hc
    rw [hc]
    constructor
    · intro h
      cases h
      exact ⟨c, rfl, rfl⟩
    · rintro ⟨c', h, rfl⟩
      cases h
      rfl
  · rename_i hc
    simp [hc]

theorem Reads.lift {i : Nat} {P : Kind → Prop} {p : Parser α} {o : Progress}
    (hp : Reads n i P o.cursor (p o.cursor)) : Reads n i P o ((liftM p : Reader α) o) := by
  intro ho
  have hended := hp ho
  show Ended n i P o (Reader.onCursor p o)
  unfold Reader.onCursor
  generalize p o.cursor = r at hended
  cases hended with
  | ok hu hP hi hl => exact .ok hu hP hi hl
  | error he => exact .error he

theorem Moves.lift {p : Parser α} (hp : Moves n p) : Moves n (liftM p : Reader α) :=
  fun o => .lift (hp o.cursor)

theorem lift_kind_bind (f : Kind → Reader β) (o : Progress) :
    (liftM Parser.kind >>= f) o = f o.cursor.here.kind o := rfl

theorem lift_accept_bind (k : Kind) (f : Bool → Reader β) (o : Progress) :
    (liftM (Parser.accept k) >>= f) o =
      if o.cursor.here.kind = k then f true { o with cursor := o.cursor.advance } else f false o := by
  show (Reader.onCursor (Parser.accept k) o >>= fun x => f x.1 x.2) = _
  unfold Reader.onCursor
  rw [Parser.accept_eq]
  by_cases h : o.cursor.here.kind = k
  · rw [if_pos h, if_pos h]
    rfl
  · rw [if_neg h, if_neg h]
    rfl

theorem advances_keyword {f : Token → Reader β} (k : Keyword) (hf : ∀ t, Moves n (f t))
    (o : Progress) : Advances n o ((liftM (Parser.expect (.keyword k)) >>= f) o) := by
  refine .bind (.lift ?_) fun t u _ => hf t u
  have hword : Kind.keyword k ≠ .endOfFile := by simp
  have := Parser.advances_expect (n := n) (f := Pure.pure) (c := o.cursor) hword (.pure _)
  rwa [bind_pure] at this

end Moves

namespace Parser

variable {α β : Type} {n : Nat}

theorem moves_unexpected (what : String) : Moves n (unexpected what : Parser α) :=
  fun _ => .error Cursor.Below.here

theorem moves_fail (cause : SyntaxCause) {span : Span} (h : span.Below n) :
    Moves n (fail cause span : Parser α) :=
  fun _ => .error fun _ => h

theorem moves_peek : Moves n peek := fun c => .ok c.here

theorem moves_kind : Moves n kind := fun c => .ok c.here.kind

theorem moves_kindAt (ahead : Nat) : Moves n (kindAt ahead) := fun c => .ok (c.kindAt ahead)

theorem moves_lastSpan : Moves n lastSpan := fun c => .ok c.last

theorem moves_onSameLine : Moves n onSameLine := fun c => .ok c.onSameLine

theorem moves_atWord (word : String) : Moves n (atWord word) := fun c => .ok (c.here.isWord word)

theorem moves_next : Moves n next := fun c => .advance trivial (.ok c.here)

theorem moves_accept (k : Kind) : Moves n (accept k) := by
  refine .bind moves_kind fun _ => .ite (.bind moves_next fun _ => .pure _) (.pure _)

theorem moves_expect (k : Kind) : Moves n (expect k) :=
  .bind moves_kind fun _ => .ite moves_next (moves_unexpected _)

theorem moves_identifier (what : String) : Moves n (identifier what) :=
  .bind moves_kind fun _ => .ite (.bind moves_next fun _ => .pure _) (moves_unexpected _)

/-- A rule behind a name may give an error that points at the name. -/
theorem moves_name {what : String} {f : Name → Parser β}
    (h : ∀ name : Name, name.span.Below n → Moves n (f name)) : Moves n (identifier what >>= f) := by
  intro c
  rw [identifier_bind]
  split
  · exact .advance trivial fun hc => h _ hc.passed _ hc
  · exact .error Cursor.Below.here

theorem moves_after {rule : Parser α} (k : Kind) (h : Moves n rule) : Moves n (after k rule) :=
  fun _ => reads_after trivial h

/-- `p` begins by reading a token, whatever it is. -/
def Takes (n : Nat) (p : Parser α) : Prop :=
  ∀ c : Cursor, Forward n c.advance (p c)

theorem Takes.moves {p : Parser α} (h : Takes n p) : Moves n p :=
  fun c => .advance trivial (h c)

theorem Takes.advances {p : Parser α} (h : Takes n p) {c : Cursor}
    (hk : c.here.kind ≠ .endOfFile) : Advances n c (p c) :=
  .of_advance hk (h c)

theorem takes_next {f : Token → Parser α} (h : ∀ t, t.span.Below n → Moves n (f t)) :
    Takes n (next >>= f) :=
  fun c hc => h c.here hc.passed c.advance hc

end Parser

end Sable
