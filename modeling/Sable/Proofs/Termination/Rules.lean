import Sable.Proofs.Reading.Tokens

/-!
# Rules that terminate

`Coincide`: where fewer than `n` tokens are ahead of the end of the file, two rules do the same.
`Terminates`: a repetition with a unit of budget for each token ahead does what its rounds describe
without a budget, and it is the only rule made of such rounds.
-/

namespace Sable

open Sable.Parser

section Rules

variable {σ α β γ : Type} [Located σ]

/-- The number of tokens in front of the end of the file. -/
def distance (s : σ) : Nat :=
  ((unread s).takeWhile (·.kind ≠ .endOfFile)).length

/-- If `r` is what came of reading from `s`, at least `i` tokens were read, and none of them ends
the file. -/
def Consumes (i : Nat) (s : σ) (r : Except SyntaxError (α × σ)) : Prop :=
  ∀ a t, r = .ok (a, t) →
    ∃ used, unread s = used ++ unread t ∧ i ≤ used.length ∧ ∀ x ∈ used, x.kind ≠ .endOfFile

/-- Where the token in front satisfies `P`, those ahead satisfy `A`, and fewer than `n` are ahead,
both rules do the same, and read at least `i` tokens. -/
def CoincideIf (A P : Token → Prop) (i n : Nat) (p q : StateT σ (Except SyntaxError) α) : Prop :=
  ∀ s, (∀ t ∈ unread s, A t) → P (Located.cursor s).here → distance s < n →
    p s = q s ∧ Consumes i s (p s)

/-- Where the tokens ahead satisfy `A` and are fewer than `n`, both rules do the same, and read at
least `i` tokens. -/
abbrev Coincide (A : Token → Prop) (i n : Nat) (p q : StateT σ (Except SyntaxError) α) : Prop :=
  CoincideIf A (fun _ => True) i n p q

variable {A P P' : Token → Prop} {i j n m : Nat} {s t : σ} {c : Cursor}
  {r : Except SyntaxError (α × σ)} {p q p' q' : StateT σ (Except SyntaxError) α}
  {f g : α → StateT σ (Except SyntaxError) β}

/-! ### What is consumed -/

theorem Consumes.distance_le (h : Consumes i s r) {a : α} (hr : r = .ok (a, t)) :
    distance t + i ≤ distance s := by
  obtain ⟨used, hu, hi, hk⟩ := h a t hr
  have hall : ∀ x ∈ used, decide (x.kind ≠ .endOfFile) = true := fun x hx => by simpa using hk x hx
  unfold distance
  rw [hu, List.takeWhile_append_of_pos hall, List.length_append]
  omega

theorem Consumes.ahead (h : Consumes i s r) {a : α} (hr : r = .ok (a, t))
    (hs : ∀ x ∈ unread s, A x) : ∀ x ∈ unread t, A x := by
  obtain ⟨used, hu, -, -⟩ := h a t hr
  exact fun x hx => hs x (hu ▸ List.mem_append_right used hx)

theorem Consumes.mono (h : Consumes i s r) (hj : j ≤ i) : Consumes j s r := by
  intro a t hr
  obtain ⟨used, hu, hi, hk⟩ := h a t hr
  exact ⟨used, hu, Nat.le_trans hj hi, hk⟩

theorem Consumes.error (e : SyntaxError) :
    Consumes i s (.error e : Except SyntaxError (α × σ)) := by
  intro a t h
  cases h

theorem Consumes.ok (a : α) (h : unread t = unread s) : Consumes 0 s (.ok (a, t)) := by
  intro b u hu
  cases hu
  exact ⟨[], by simp [h], Nat.le_refl 0, by simp⟩

theorem Consumes.bind (hp : Consumes i s (p s))
    (hf : ∀ a t, p s = .ok (a, t) → Consumes j t (f a t)) : Consumes (i + j) s ((p >>= f) s) := by
  intro b u h
  obtain ⟨a, t, h1, h2⟩ := bind_eq_ok.1 h
  obtain ⟨used, hu, hi, hk⟩ := hp a t h1
  obtain ⟨more, hm, hj, hk'⟩ := hf a t h1 b u h2
  refine ⟨used ++ more, by rw [hu, hm, List.append_assoc], ?_, ?_⟩
  · rw [List.length_append]
    exact Nat.add_le_add hi hj
  · exact fun x hx => (List.mem_append.1 hx).elim (hk x) (hk' x)

/-- A token read before. -/
theorem Consumes.advance (ht : Located.cursor t = (Located.cursor s).advance)
    (hk : (Located.cursor s).here.kind ≠ .endOfFile) (h : Consumes i t r) :
    Consumes (i + 1) s r := by
  intro a u hr
  obtain ⟨used, hu, hi, hends⟩ := h a u hr
  refine ⟨(Located.cursor s).here :: used, ?_, Nat.succ_le_succ hi,
    List.forall_mem_cons.2 ⟨hk, hends⟩⟩
  rw [unread, ht] at hu
  rw [unread, Cursor.rest_eq_of_kind rfl hk]
  exact congrArg _ hu

/-! ### Putting rules together -/

omit [Located σ] in
theorem bind_congr_ok (hp : p s = q s) (hf : ∀ a t, p s = .ok (a, t) → f a t = g a t) :
    (p >>= f) s = (q >>= g) s := by
  show (p s >>= fun x => f x.1 x.2) = (q s >>= fun x => g x.1 x.2)
  rw [← hp]
  cases hr : p s with
  | error e => rfl
  | ok x => exact hf x.1 x.2 hr

namespace CoincideIf

theorem imp (h : CoincideIf A P i n p q) (hP : ∀ t, P' t → P t) : CoincideIf A P' i n p q :=
  fun s ha hs hn => h s ha (hP _ hs) hn

theorem any (h : Coincide A i n p q) : CoincideIf A P i n p q :=
  h.imp fun _ _ => trivial

theorem mono (h : CoincideIf A P i n p q) (hm : m ≤ n) : CoincideIf A P i m p q :=
  fun s ha hs hn => h s ha hs (Nat.lt_of_lt_of_le hn hm)

theorem weak (h : CoincideIf A P i n p q) : CoincideIf A P 0 n p q :=
  fun s ha hs hn => ⟨(h s ha hs hn).1, (h s ha hs hn).2.mono (Nat.zero_le i)⟩

theorem zero : CoincideIf A P i 0 p q :=
  fun _ _ _ hn => absurd hn (Nat.not_lt_zero _)

theorem pure (a : α) :
    CoincideIf A P 0 n (Pure.pure a : StateT σ (Except SyntaxError) α) (Pure.pure a) :=
  fun _ _ _ _ => ⟨rfl, .ok a rfl⟩

theorem fails (h : ∀ s, ∃ e, p s = .error e) : CoincideIf A P i n p p := by
  intro s _ _ _
  obtain ⟨e, he⟩ := h s
  exact ⟨rfl, he ▸ .error e⟩

/-- What is read by the first rule brings the end closer for the second. -/
theorem seq (hp : CoincideIf A P i n p q) (hf : ∀ a, Coincide A j (n - i) (f a) (g a)) :
    CoincideIf A P (i + j) n (p >>= f) (q >>= g) := by
  intro s ha hs hn
  obtain ⟨heq, hc⟩ := hp s ha hs hn
  have hrest (a : α) (t : σ) (hr : p s = .ok (a, t)) : f a t = g a t ∧ Consumes j t (f a t) := by
    have := hc.distance_le hr
    exact hf a t (hc.ahead hr ha) trivial (by omega)
  exact ⟨bind_congr_ok heq fun a t hr => (hrest a t hr).1, hc.bind fun a t hr => (hrest a t hr).2⟩

theorem bind (hp : CoincideIf A P i n p q) (hf : ∀ a, Coincide A 0 (n - i) (f a) (g a)) :
    CoincideIf A P i n (p >>= f) (q >>= g) :=
  hp.seq hf

theorem bind_right (hp : CoincideIf A P 0 n p q) (hf : ∀ a, Coincide A i n (f a) (g a)) :
    CoincideIf A P i n (p >>= f) (q >>= g) := by
  have hseq := hp.seq hf
  rwa [Nat.zero_add] at hseq

theorem ite {C : Prop} [Decidable C] (hp : C → CoincideIf A P i n p q)
    (hq : ¬ C → CoincideIf A P i n p' q') :
    CoincideIf A P i n (if C then p else p') (if C then q else q') := by
  split
  · exact hp ‹_›
  · exact hq ‹_›

/-- A test that reads nothing. -/
theorem look {test : StateT σ (Except SyntaxError) γ} {f g : γ → StateT σ (Except SyntaxError) β}
    (ht : ∀ s, ∃ v, test s = .ok (v, s)) (h : ∀ v, CoincideIf A P i n (f v) (g v)) :
    CoincideIf A P i n (test >>= f) (test >>= g) := by
  intro s ha hs hn
  obtain ⟨v, hv⟩ := ht s
  show (test s >>= fun x => f x.1 x.2) = (test s >>= fun x => g x.1 x.2) ∧
    Consumes i s (test s >>= fun x => f x.1 x.2)
  rw [hv]
  exact h v s ha hs hn

end CoincideIf

end Rules

/-! ### Primitive rules -/

namespace Parser

variable {α β : Type} {A P : Token → Prop} {i n : Nat} {k : Kind} {p q : Parser α} {c : Cursor}

theorem distance_advance (hk : c.here.kind ≠ .endOfFile) : distance c = distance c.advance + 1 := by
  unfold distance
  rw [unread_cursor, Cursor.rest_eq_of_kind rfl hk, List.takeWhile_cons_of_pos (by simpa using hk)]
  rfl

theorem ahead_advance (hk : c.here.kind ≠ .endOfFile) (ha : ∀ t ∈ unread c, A t) :
    A c.here ∧ ∀ t ∈ unread c.advance, A t := by
  rw [unread_cursor, Cursor.rest_eq_of_kind rfl hk] at ha
  exact List.forall_mem_cons.1 ha

theorem coincide_kind {f g : Kind → Parser β}
    (h : ∀ k, CoincideIf A (fun t => P t ∧ t.kind = k) i n (f k) (g k)) :
    CoincideIf A P i n (kind >>= f) (kind >>= g) :=
  fun c ha hc hn => h c.here.kind c ha ⟨hc, rfl⟩ hn

theorem coincide_peek {f g : Token → Parser β}
    (h : ∀ x, (x.kind ≠ .endOfFile → A x) → CoincideIf A (fun t => P t ∧ t = x) i n (f x) (g x)) :
    CoincideIf A P i n (peek >>= f) (peek >>= g) :=
  fun c ha hc hn => h c.here (fun hk => (ahead_advance hk ha).1) c ha ⟨hc, rfl⟩ hn

theorem coincide_kindAt {f g : Kind → Parser β} (ahead : Nat)
    (h : ∀ k, CoincideIf A P i n (f k) (g k)) :
    CoincideIf A P i n (kindAt ahead >>= f) (kindAt ahead >>= g) :=
  .look (fun c => ⟨c.kindAt ahead, rfl⟩) h

theorem coincide_onSameLine {f g : Bool → Parser β} (h : ∀ v, CoincideIf A P i n (f v) (g v)) :
    CoincideIf A P i n (onSameLine >>= f) (onSameLine >>= g) :=
  .look (fun c => ⟨c.onSameLine, rfl⟩) h

theorem coincide_lastSpan {f g : Span → Parser β} (h : ∀ v, CoincideIf A P i n (f v) (g v)) :
    CoincideIf A P i n (lastSpan >>= f) (lastSpan >>= g) :=
  .look (fun c => ⟨c.last, rfl⟩) h

/-- A word is no end of the file. -/
theorem coincide_atWord {f g : Bool → Parser β} (word : String)
    (h : CoincideIf A (fun t => t.kind = .identifier) i n (f true) (g true))
    (h' : CoincideIf A P i n (f false) (g false)) :
    CoincideIf A P i n (atWord word >>= f) (atWord word >>= g) := by
  intro c ha hc hn
  rw [atWord_bind, atWord_bind]
  cases hw : c.here.isWord word with
  | false => exact h' c ha hc hn
  | true =>
    refine h c ha ?_ hn
    simp only [Token.isWord, Bool.and_eq_true, beq_iff_eq] at hw
    exact hw.1

theorem coincide_unexpected (what : String) :
    CoincideIf A P i n (unexpected what : Parser α) (unexpected what) :=
  .fails fun _ => ⟨_, rfl⟩

theorem coincide_fail (cause : SyntaxCause) (span : Span) :
    CoincideIf A P i n (fail cause span : Parser α) (fail cause span) :=
  .fails fun _ => ⟨_, rfl⟩

/-- At the end of the file nothing is read. -/
theorem coincide_next : CoincideIf A P 0 n next next := by
  intro c _ _ _
  refine ⟨rfl, ?_⟩
  by_cases hk : c.here.kind = .endOfFile
  · exact .ok c.here (by rw [c.advance_eq_of_end hk])
  · exact (Consumes.advance rfl hk (.ok c.here rfl)).mono (Nat.zero_le _)

theorem coincide_next_inside (h : ∀ t, P t → t.kind ≠ .endOfFile) : CoincideIf A P 1 n next next :=
  fun c _ hc _ => ⟨rfl, .advance rfl (h _ hc) (.ok c.here rfl)⟩

theorem coincide_accept {f g : Bool → Parser β} (hk : k ≠ .endOfFile)
    (h : Coincide A (i - 1) (n - 1) (f true) (g true))
    (h' : CoincideIf A P i n (f false) (g false)) :
    CoincideIf A P i n (accept k >>= f) (accept k >>= g) := by
  intro c ha hc hn
  rw [accept_bind, accept_bind]
  by_cases hck : c.here.kind = k
  · have hne : c.here.kind ≠ .endOfFile := hck ▸ hk
    have hd := distance_advance hne
    obtain ⟨heq, hcons⟩ := h c.advance (ahead_advance hne ha).2 trivial (by omega)
    rw [if_pos hck, if_pos hck]
    exact ⟨heq, (Consumes.advance rfl hne hcons).mono (by omega)⟩
  · rw [if_neg hck, if_neg hck]
    exact h' c ha hc hn

theorem coincide_expect (hk : k ≠ .endOfFile) : CoincideIf A P 1 n (expect k) (expect k) := by
  refine coincide_kind fun k' => .ite (fun hk' => ?_) fun _ => coincide_unexpected _
  exact coincide_next_inside fun t ht => by rw [ht.2, hk']; exact hk

theorem coincide_identifier (what : String) :
    CoincideIf A P 1 n (identifier what) (identifier what) := by
  refine coincide_kind fun k' => .ite (fun hk' => ?_) fun _ => coincide_unexpected _
  exact (coincide_next_inside fun t ht => by rw [ht.2, hk']; decide).bind fun _ => .pure _

theorem coincide_after (hk : k ≠ .endOfFile) (h : Coincide A 0 (n - 1) p q) :
    CoincideIf A P 0 n (after k p) (after k q) :=
  coincide_accept hk (h.bind fun _ => .pure _) (.pure _)

end Parser

/-! ### Loops -/

section Loops

variable {σ α ι : Type} [Located σ] {A : Token → Prop} {i m : Nat}
  {loop loop' : Nat → ι → StateT σ (Except SyntaxError) α}
  {round round' : Nat → (ι → StateT σ (Except SyntaxError) α) → ι → StateT σ (Except SyntaxError) α}

/-- Two loops do the same, whatever their budgets, if their rounds do. A round goes on with the loop
only behind a token: what it does with `n + 1` tokens ahead depends on what the rest of the loop
does with `n` ahead. -/
theorem coincide_loop (loop loop' : Nat → ι → StateT σ (Except SyntaxError) α)
    (hloop : ∀ b x, loop (b + 1) x = round b (loop b) x)
    (hloop' : ∀ b x, loop' (b + 1) x = round' b (loop' b) x)
    (hround : ∀ n b b' f g, n < m → n ≤ b → n ≤ b' → (∀ x, Coincide A i n (f x) (g x)) →
      ∀ x, Coincide A i (n + 1) (round b f x) (round' b' g x)) :
    ∀ {n b b' : Nat}, n ≤ m → n ≤ b → n ≤ b' → ∀ x, Coincide A i n (loop b x) (loop' b' x)
  | 0, _, _, _, _, _, _ => .zero
  | n + 1, b + 1, b' + 1, hm, hb, hb', x => by
    rw [hloop, hloop']
    have hb := Nat.le_of_succ_le_succ hb
    have hb' := Nat.le_of_succ_le_succ hb'
    refine hround n b b' _ _ hm hb hb' (fun x => ?_) x
    exact coincide_loop loop loop' hloop hloop' hround (Nat.le_of_succ_le hm) hb hb' x

/-- With a unit of budget for each token ahead, a loop does what its rounds describe on their own,
wherever fewer than `m` tokens are ahead. Only one rule is made of such rounds: if a round could go
on without having read anything, what it does would be left open. -/
structure Terminates (m : Nat) (loop : Nat → ι → StateT σ (Except SyntaxError) α)
    (round : Nat → (ι → StateT σ (Except SyntaxError) α) → ι → StateT σ (Except SyntaxError) α) :
    Prop where
  independent : ∀ b b' x s, distance s < m → distance s < b → distance s < b' →
    loop b x s = loop b' x s
  unique : ∀ f : ι → StateT σ (Except SyntaxError) α,
    (∀ x s, distance s < m → f x s = round (distance s) f x s) ↔
      ∀ b x s, distance s < m → distance s < b → f x s = loop b x s

theorem Terminates.of_round (hloop : ∀ b x, loop (b + 1) x = round b (loop b) x)
    (hround : ∀ n b b' f g, n < m → n ≤ b → n ≤ b' →
      (∀ x, Coincide (fun _ => True) i n (f x) (g x)) →
      ∀ x, Coincide (fun _ => True) i (n + 1) (round b f x) (round b' g x)) :
    Terminates m loop round := by
  have hsame {n b b' : Nat} (hm : n ≤ m) (hb : n ≤ b) (hb' : n ≤ b') (x : ι) :
      Coincide (fun _ => True) i n (loop b x) (loop b' x) :=
    coincide_loop loop loop hloop hloop hround hm hb hb' x
  refine ⟨fun b b' x s hm hb hb' => ?_, fun f => ⟨fun hf b x s hm hb => ?_, fun hf x s hm => ?_⟩⟩
  · exact (hsame hm hb hb' x s (fun _ _ => trivial) trivial (Nat.lt_succ_self _)).1
  · -- any rule made of these rounds is the loop, by induction on the tokens ahead
    have hstep : ∀ {n b : Nat}, n ≤ m → n ≤ b →
        ∀ x, Coincide (fun _ => True) i n (f x) (loop b x) := by
      intro n
      induction n with
      | zero => exact fun _ _ _ => .zero
      | succ n ih =>
        rintro (_ | b) hm hb x s ha hs hn
        · exact absurd hb (Nat.not_succ_le_zero n)
        have hd : distance s ≤ n := Nat.le_of_lt_succ hn
        have hn : n ≤ b := Nat.le_of_succ_le_succ hb
        rw [hf x s (Nat.lt_of_le_of_lt hd hm), hloop]
        exact hround (distance s) _ b f (loop b) (Nat.lt_of_le_of_lt hd hm) (Nat.le_refl _)
          (Nat.le_trans hd hn) (fun x => (ih (Nat.le_of_succ_le hm) hn x).mono hd) x s ha hs
          (Nat.lt_succ_self _)
    exact (hstep hm hb x s (fun _ _ => trivial) trivial (Nat.lt_succ_self _)).1
  · -- one round of the loop goes on with the loop, whose budget is one less
    rw [hf (distance s + 1) x s hm (Nat.lt_succ_self _), hloop]
    refine (hround (distance s) _ _ _ f hm (Nat.le_refl _) (Nat.le_refl _) (fun x t ha ht hn => ?_)
      x s (fun _ _ => trivial) trivial (Nat.lt_succ_self _)).1
    have hself := hsame (Nat.le_of_lt hm) (Nat.le_refl _) (Nat.le_refl _) x t ha ht hn
    exact ⟨(hf _ x t (Nat.lt_trans hn hm) hn).symm, hself.2⟩

/-- Where fewer than `m` tokens are ahead, a rule reads at least `i` of them, and none that ends the
file. -/
def Consuming (i m : Nat) (p : StateT σ (Except SyntaxError) α) : Prop :=
  ∀ s, distance s < m → Consumes i s (p s)

theorem Consuming.coincide {p : StateT σ (Except SyntaxError) α} (h : Consuming i m p) :
    Coincide A i m p p :=
  fun s _ _ hn => ⟨rfl, h s hn⟩

theorem CoincideIf.consuming {p q : StateT σ (Except SyntaxError) α}
    (h : Coincide (fun _ => True) i m p q) : Consuming i m p :=
  fun s hn => (h s (fun _ _ => trivial) trivial hn).2

end Loops

namespace Parser

variable {α : Type} {A : Token → Prop} {item item' : Parser α} {close : Kind} {n b b' : Nat}

/-- One item of a list. -/
def commaRound (item : Parser α) (rest : Parser (List α)) : Parser (List α) := do
  let first ← item
  if ← accept (.symbol .comma) then return first :: (← rest)
  else return [first]

/-- One item of a list up to a closing token. -/
def listRound (close : Kind) (item : Parser α) (rest : Parser (List α)) : Parser (List α) := do
  if (← kind) = close then return []
  commaRound item rest

theorem coincide_commaRound {rest rest' : Parser (List α)}
    (hitem : Coincide A 1 (n + 1) item item') (h : Coincide A 0 n rest rest') :
    Coincide A 1 (n + 1) (commaRound item rest) (commaRound item' rest') := by
  refine hitem.bind fun first => coincide_accept (by decide) ?_ (.pure _)
  exact (h.mono (by omega)).bind fun _ => .pure _

theorem coincide_listRound {rest rest' : Parser (List α)}
    (hitem : Coincide A 1 (n + 1) item item') (h : Coincide A 0 n rest rest') :
    Coincide A 0 (n + 1) (listRound close item rest) (listRound close item' rest') :=
  coincide_kind fun _ => .ite (fun _ => .pure _) fun _ => (coincide_commaRound hitem h).weak.any

theorem terminates_listUntil (h : Consuming 1 n item) :
    Terminates n (fun b (_ : Unit) => listUntil close item b)
      (fun _ rest _ => listRound close item (rest ())) :=
  .of_round (fun _ _ => rfl) fun _ _ _ _ _ hn _ _ hrest _ =>
    coincide_listRound (h.coincide.mono hn) (hrest ())

theorem terminates_commaList (h : Consuming 1 n item) :
    Terminates n (fun b (_ : Unit) => commaList item b)
      (fun _ rest _ => commaRound item (rest ())) :=
  .of_round (fun _ _ => rfl) fun _ _ _ _ _ hn _ _ hrest _ =>
    coincide_commaRound (h.coincide.mono hn) (hrest ()).weak

theorem coincide_listUntil (hb : n ≤ b) (hb' : n ≤ b') (h : Coincide A 1 n item item') :
    Coincide A 0 n (listUntil close item b) (listUntil close item' b') :=
  coincide_loop (fun b (_ : Unit) => listUntil close item b) (fun b _ => listUntil close item' b)
    (fun _ _ => rfl) (fun _ _ => rfl) (fun _ _ _ _ _ hn _ _ hrest _ =>
      coincide_listRound (h.mono hn) (hrest ())) (Nat.le_refl n) hb hb' ()

theorem coincide_commaList (hb : n ≤ b) (hb' : n ≤ b') (h : Coincide A 1 n item item') :
    Coincide A 1 n (commaList item b) (commaList item' b') :=
  coincide_loop (fun b (_ : Unit) => commaList item b) (fun b _ => commaList item' b)
    (fun _ _ => rfl) (fun _ _ => rfl) (fun _ _ _ _ _ hn _ _ hrest _ =>
      coincide_commaRound (h.mono hn) (hrest ()).weak) (Nat.le_refl n) hb hb' ()

end Parser

end Sable
