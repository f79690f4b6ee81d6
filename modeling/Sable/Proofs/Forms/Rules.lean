import Sable.Proofs.Termination.Rules

/-!
# What rules find within their budget

`FindsIf A P n C p`: with fewer than `n` tokens ahead, what `p` reads satisfies `C`. A list may be cut
short where the budget runs out, so the judgement bounds the number of tokens. One lemma for each way to
combine rules.
-/

namespace Sable

open Sable.Parser

section Finds

variable {σ α β γ : Type} [Located σ] {A P P' : Token → Prop} {C : α → Prop} {D : β → Prop}
  {i m n : Nat} {p q : StateT σ (Except SyntaxError) α} {f : α → StateT σ (Except SyntaxError) β}

/-- Where the token in front satisfies `P`, those ahead satisfy `A`, and fewer than `n` are ahead,
what the rule reads satisfies `C`, and no more are ahead then. -/
def FindsIf (A P : Token → Prop) (n : Nat) (C : α → Prop) (p : StateT σ (Except SyntaxError) α) :
    Prop :=
  ∀ s, (∀ t ∈ unread s, A t) → P (Located.cursor s).here → distance s < n →
    Consumes 0 s (p s) ∧ ∀ a t, p s = .ok (a, t) → C a

/-- Where the tokens ahead satisfy `A` and are fewer than `n`, what the rule reads satisfies `C`, and
no more are ahead then. -/
abbrev Finds (A : Token → Prop) (n : Nat) (C : α → Prop) (p : StateT σ (Except SyntaxError) α) :
    Prop :=
  FindsIf A (fun _ => True) n C p

namespace FindsIf

theorem imp (h : FindsIf A P n C p) (hP : ∀ t, P' t → P t) : FindsIf A P' n C p :=
  fun s hs hP' hn => h s hs (hP _ hP') hn

theorem any (h : Finds A n C p) : FindsIf A P n C p :=
  h.imp fun _ _ => trivial

theorem mono (h : FindsIf A P n C p) (hm : m ≤ n) : FindsIf A P m C p :=
  fun s hs hP hn => h s hs hP (Nat.lt_of_lt_of_le hn hm)

theorem conseq {D : α → Prop} (h : FindsIf A P n C p) (hC : ∀ a, C a → D a) : FindsIf A P n D p := by
  intro s hs hP hn
  obtain ⟨hcons, hfound⟩ := h s hs hP hn
  exact ⟨hcons, fun a t ht => hC a (hfound a t ht)⟩

theorem zero : FindsIf A P 0 C p :=
  fun _ _ _ hn => absurd hn (Nat.not_lt_zero _)

theorem pure {a : α} (h : C a) :
    FindsIf A P n C (Pure.pure a : StateT σ (Except SyntaxError) α) := by
  refine fun s _ _ _ => ⟨.ok a rfl, fun b t ht => ?_⟩
  cases ht
  exact h

theorem fails (h : ∀ s, ∃ e, p s = .error e) : FindsIf A P n C p := by
  intro s _ _ _
  obtain ⟨e, he⟩ := h s
  refine ⟨he ▸ .error e, fun a t ht => ?_⟩
  rw [he] at ht
  cases ht

/-- What comes of a rule and then another, from what comes of the second wherever the first ends. -/
theorem bind_at {s : σ} (hp : Consumes i s (p s))
    (hf : ∀ a t, p s = .ok (a, t) → Consumes 0 t (f a t) ∧ ∀ b u, f a t = .ok (b, u) → D b) :
    Consumes 0 s ((p >>= f) s) ∧ ∀ b u, (p >>= f) s = .ok (b, u) → D b := by
  refine ⟨(hp.mono (Nat.zero_le i)).bind fun a t hr => (hf a t hr).1, fun b u hu => ?_⟩
  obtain ⟨a, t, hr, hfa⟩ := bind_eq_ok.1 hu
  exact (hf a t hr).2 b u hfa

/-- A step that brings the end closer by the tokens it reads. -/
theorem step (hp : CoincideIf A P i n p p)
    (hC : ∀ s a t, (∀ t ∈ unread s, A t) → P (Located.cursor s).here → p s = .ok (a, t) → C a)
    (hf : ∀ a, C a → Finds A (n - i) D (f a)) : FindsIf A P n D (p >>= f) := by
  intro s hs hP hn
  obtain ⟨-, hcons⟩ := hp s hs hP hn
  refine bind_at hcons fun a t hr => ?_
  have hd := hcons.distance_le hr
  exact hf a (hC s a t hs hP hr) t (hcons.ahead hr hs) trivial (by omega)

/-- A step whose result does not matter. -/
theorem past (hp : CoincideIf A P i n p p) (hf : ∀ a, Finds A (n - i) D (f a)) :
    FindsIf A P n D (p >>= f) :=
  step (C := fun _ => True) hp (fun _ _ _ _ _ _ => trivial) fun a _ => hf a

theorem bind (hp : FindsIf A P n C p) (hf : ∀ a, C a → Finds A n D (f a)) :
    FindsIf A P n D (p >>= f) := by
  intro s hs hP hn
  obtain ⟨hcons, hC⟩ := hp s hs hP hn
  exact bind_at hcons fun a t hr =>
    hf a (hC a t hr) t (hcons.ahead hr hs) trivial (Nat.lt_of_le_of_lt (hcons.distance_le hr) hn)

/-- A test that reads nothing. -/
theorem look {test : StateT σ (Except SyntaxError) γ} {f : γ → StateT σ (Except SyntaxError) β}
    (ht : ∀ s, ∃ v, test s = .ok (v, s)) (h : ∀ v, FindsIf A P n D (f v)) :
    FindsIf A P n D (test >>= f) := by
  intro s hs hP hn
  obtain ⟨v, hv⟩ := ht s
  show Consumes 0 s (test s >>= fun x => f x.1 x.2) ∧
    ∀ b t, (test s >>= fun x => f x.1 x.2) = .ok (b, t) → D b
  rw [hv]
  exact h v s hs hP hn

theorem ite {E : Prop} [Decidable E] (hp : E → FindsIf A P n C p) (hq : ¬ E → FindsIf A P n C q) :
    FindsIf A P n C (if E then p else q) := by
  split
  · exact hp ‹_›
  · exact hq ‹_›

theorem lift {p : Parser α} (h : FindsIf A P n C p) : FindsIf A P n C (liftM p : Reader α) := by
  intro o hs hP hn
  obtain ⟨hcons, hC⟩ := h o.cursor hs hP hn
  refine ⟨fun a t ht => ?_, fun a t ht => ?_⟩
  · obtain ⟨c, hc, rfl⟩ := lift_eq_ok.1 ht
    exact hcons a c hc
  · obtain ⟨c, hc, rfl⟩ := lift_eq_ok.1 ht
    exact hC a c hc

end FindsIf

end Finds

/-- The name is that of a token which satisfies `A`. -/
def Name.IsOf (A : Token → Prop) (n : Name) : Prop :=
  ∃ t : Token, A t ∧ t.kind = .identifier ∧ t.name = n

theorem Parser.isOf_of_identifier {A : Token → Prop} {what : String} {c c' : Cursor} {name : Name}
    (hc : ∀ t ∈ unread c, A t) (h : identifier what c = .ok (name, c')) : name.IsOf A := by
  rw [identifier_eq] at h
  split at h
  · rename_i hk
    cases h
    exact ⟨c.here, (ahead_advance (by rw [hk]; decide) hc).1, hk, rfl⟩
  · cases h

namespace FindsIf

variable {α β : Type} {A P : Token → Prop} {C : α → Prop} {D : β → Prop} {n : Nat}

theorem kind {f : Kind → Parser β} (h : ∀ k, FindsIf A (fun t => P t ∧ t.kind = k) n D (f k)) :
    FindsIf A P n D (Parser.kind >>= f) :=
  fun c hs hP hn => h c.here.kind c hs ⟨hP, rfl⟩ hn

theorem peek {f : Token → Parser β}
    (h : ∀ x, (x.kind ≠ .endOfFile → A x) → FindsIf A (fun t => P t ∧ t = x) n D (f x)) :
    FindsIf A P n D (Parser.peek >>= f) :=
  fun c hs hP hn => h c.here (fun hk => (ahead_advance hk hs).1) c hs ⟨hP, rfl⟩ hn

theorem next {f : Token → Parser β} (hP : ∀ t, P t → t.kind ≠ .endOfFile)
    (h : ∀ t, P t ∧ A t → Finds A (n - 1) D (f t)) : FindsIf A P n D (Parser.next >>= f) := by
  refine .step (coincide_next_inside hP) (fun c t c' hs hc hr => ?_) h
  cases hr
  exact ⟨hc, (ahead_advance (hP _ hc) hs).1⟩

theorem identifier {what : String} {f : Name → Parser β}
    (h : ∀ t : Token, A t → t.kind = .identifier → Finds A (n - 1) D (f t.name)) :
    FindsIf A P n D (Parser.identifier what >>= f) := by
  refine .step (coincide_identifier what) (fun _ _ _ hs _ hr => isOf_of_identifier hs hr) ?_
  rintro _ ⟨t, ht, hk, rfl⟩
  exact h t ht hk

theorem accept {k : Kind} {f : Bool → Parser β} (hk : k ≠ .endOfFile)
    (h : Finds A (n - 1) D (f true)) (h' : FindsIf A (fun t => P t ∧ t.kind ≠ k) n D (f false)) :
    FindsIf A P n D (Parser.accept k >>= f) := by
  intro c hs hP hn
  rw [accept_bind]
  split
  · rename_i hck
    have hne : c.here.kind ≠ .endOfFile := hck ▸ hk
    have hd := distance_advance hne
    obtain ⟨hcons, hD⟩ := h c.advance (ahead_advance hne hs).2 trivial (by omega)
    exact ⟨(Consumes.advance rfl hne hcons).mono (Nat.zero_le _), hD⟩
  · exact h' c hs ⟨hP, ‹_›⟩ hn

theorem unexpected (what : String) : FindsIf A P n C (Parser.unexpected what : Parser α) :=
  .fails fun _ => ⟨_, rfl⟩

end FindsIf

namespace Parser

variable {α : Type} {A P : Token → Prop} {C : α → Prop} {n : Nat} {item : Parser α}

theorem coincide_accept_any (k : Kind) : CoincideIf A P 0 n (accept k) (accept k) :=
  coincide_kind fun _ => .ite (fun _ => coincide_next.bind fun _ => .pure _) fun _ => .pure _

theorem finds_after (k : Kind) (h : Finds A n C item) :
    FindsIf A P n (fun x => ∀ a ∈ x, C a) (after k item) := by
  refine .past (coincide_accept_any k) fun _ => .ite (fun _ => ?_) fun _ => .pure (by rintro _ ⟨⟩)
  refine h.bind fun a ha => .pure ?_
  rintro _ ⟨⟩
  exact ha

theorem finds_listUntil (close : Kind) (h : Finds A n C item) :
    ∀ budget, Finds A n (fun as => ∀ a ∈ as, C a) (listUntil close item budget)
  | 0 => .pure (List.forall_mem_nil _)
  | budget + 1 => by
    refine .kind fun _ => .ite (fun _ => .pure (List.forall_mem_nil _)) fun _ => ?_
    refine h.any.bind fun a ha => ?_
    refine .past (coincide_accept_any _) fun _ => .ite (fun _ => ?_) fun _ => ?_
    · refine (finds_listUntil close h budget).bind fun as has => .pure ?_
      exact List.forall_mem_cons.2 ⟨ha, has⟩
    · exact .pure (List.forall_mem_singleton.2 ha)

theorem finds_commaList (h : Finds A n C item) :
    ∀ budget, Finds A n (fun as => ∀ a ∈ as, C a) (commaList item budget)
  | 0 => .pure (List.forall_mem_nil _)
  | budget + 1 => by
    refine h.bind fun a ha => .past (coincide_accept_any _) fun _ => .ite (fun _ => ?_) fun _ => ?_
    · refine (finds_commaList h budget).bind fun as has => .pure ?_
      exact List.forall_mem_cons.2 ⟨ha, has⟩
    · exact .pure (List.forall_mem_singleton.2 ha)

/-- A list without a closing token is not empty. -/
theorem finds_items {b : Nat} (h : Finds A n C item) (hb : n ≤ b) :
    Finds A n (fun as => as ≠ [] ∧ ∀ a ∈ as, C a) (commaList item b) := by
  cases b with
  | zero =>
    obtain rfl := Nat.le_zero.1 hb
    exact .zero
  | succ b =>
    refine h.bind fun a ha => .past (coincide_accept_any _) fun _ => .ite (fun _ => ?_) fun _ => ?_
    · refine (finds_commaList h b).bind fun as has => .pure ⟨List.cons_ne_nil _ _, ?_⟩
      exact List.forall_mem_cons.2 ⟨ha, has⟩
    · exact .pure ⟨List.cons_ne_nil _ _, List.forall_mem_singleton.2 ha⟩

end Parser

end Sable
