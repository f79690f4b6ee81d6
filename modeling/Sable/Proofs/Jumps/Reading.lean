import Sable.Proofs.Jumps.Syntax
import Sable.Proofs.Reading.Statements

/-!
# Loops are numbered in the order of the source

`Writes`: a rule reads the words of the marks in order and gives the loops among them the next numbers
(`Passed`). A loop takes its number behind the word that starts it and before its body (`Begins`).
-/

namespace Sable

open Sable.Parser

section Gives

variable {σ α β : Type} {C : α → Prop} {B : β → Prop} {p q : StateT σ (Except SyntaxError) α}
  {r : StateT σ (Except SyntaxError) β} {f : β → StateT σ (Except SyntaxError) α}

/-- What `p` reads satisfies `C`. -/
def Gives (C : α → Prop) (p : StateT σ (Except SyntaxError) α) : Prop :=
  ∀ c a c', p c = .ok (a, c') → C a

theorem Gives.pure {a : α} (h : C a) :
    Gives C (Pure.pure a : StateT σ (Except SyntaxError) α) := by
  intro c b c' hb
  cases hb
  exact h

theorem Gives.seq (hr : Gives B r) (hf : ∀ b, B b → Gives C (f b)) : Gives C (r >>= f) := by
  intro c a c' h
  obtain ⟨b, t, h1, h2⟩ := bind_eq_ok.1 h
  exact hf b (hr c b t h1) t a c' h2

/-- Nothing depends on what is read first. -/
theorem Gives.bind (hf : ∀ b, Gives C (f b)) : Gives C (r >>= f) :=
  .seq (fun _ _ _ _ => trivial : Gives (fun _ => True) r) fun b _ => hf b

theorem Gives.ite {D : Prop} [Decidable D] (hp : Gives C p) (hq : Gives C q) :
    Gives C (if D then p else q) := by
  split
  · exact hp
  · exact hq

end Gives

section Writes

variable {α β : Type} {P : α → List Mark → Prop} {Q : β → List Mark → Prop} {p q : Reader α}
  {f : α → Reader β} {o t u : Progress} {marks marks' : List Mark}

/-- Between `o` and `t` the words of `marks` are read, and the loops among them take the numbers that
follow. -/
structure Passed (marks : List Mark) (o t : Progress) : Prop where
  numbered : ∃ n, t.loops = o.loops + n ∧ marks.filterMap (·.loop) = List.range' (o.loops + 1) n
  read : ∃ used, unread o = used ++ unread t ∧ (marks.map (·.token)).Sublist used
  words : ∀ m ∈ marks, m.token.kind ≠ .endOfFile

theorem Passed.nil (h : t.loops = o.loops) (hs : unread t <:+ unread o) : Passed [] o t := by
  obtain ⟨used, hu⟩ := hs
  exact ⟨⟨0, h, rfl⟩, ⟨used, hu.symm, List.nil_sublist used⟩, by simp⟩

theorem Passed.trans (h : Passed marks o t) (h' : Passed marks' t u) :
    Passed (marks ++ marks') o u := by
  obtain ⟨⟨n, hn, hids⟩, ⟨used, hused, hsub⟩, hwords⟩ := h
  obtain ⟨⟨n', hn', hids'⟩, ⟨used', hused', hsub'⟩, hwords'⟩ := h'
  refine ⟨⟨n + n', by omega, ?_⟩, ⟨used ++ used', ?_, ?_⟩, ?_⟩
  · rw [List.filterMap_append, hids, hids', hn, show o.loops + n + 1 = o.loops + 1 + n by omega,
      List.range'_append_1]
  · rw [hused, hused', List.append_assoc]
  · rw [List.map_append]
    exact hsub.append hsub'
  · intro m hm
    rcases List.mem_append.1 hm with hm | hm
    · exact hwords m hm
    · exact hwords' m hm

/-- A word in front is read first, and a loop that it starts takes the next number. -/
theorem Passed.cons {m : Mark} (hm : m.token = o.cursor.here) (hk : o.cursor.here.kind ≠ .endOfFile)
    (h : Passed marks
      { o with cursor := o.cursor.advance, loops := o.loops + (m.loop.elim 0 fun _ => 1) } t)
    (hl : ∀ id, m.loop = some id → id = o.loops + 1) : Passed (m :: marks) o t := by
  obtain ⟨⟨n, hn, hids⟩, ⟨used, hused, hsub⟩, hwords⟩ := h
  refine ⟨?_, ⟨o.cursor.here :: used, ?_, ?_⟩, ?_⟩
  · cases hml : m.loop with
    | none =>
      simp only [hml, Option.elim] at hn hids
      exact ⟨n, hn, by rw [List.filterMap_cons, hml, hids]⟩
    | some id =>
      simp only [hml, Option.elim] at hn hids
      refine ⟨n + 1, by omega, ?_⟩
      rw [List.filterMap_cons, hml, hids, hl id hml]
      rfl
  · show o.cursor.rest = _
    rw [Cursor.rest_eq_of_kind rfl hk]
    exact congrArg _ hused
  · rw [List.map_cons, hm]
    exact hsub.cons_cons _
  · intro x hx
    rcases List.mem_cons.1 hx with rfl | hx
    · rwa [hm]
    · exact hwords x hx

/-- What `p` reads is spelled as `P` says. -/
def Writes (P : α → List Mark → Prop) (p : Reader α) : Prop :=
  ∀ o a t, p o = .ok (a, t) → ∃ marks, P a marks ∧ Passed marks o t

/-- `p` reads no loop and no function. -/
abbrev Quiet (p : Reader α) : Prop :=
  Writes (fun _ marks => marks = []) p

theorem Writes.mono {P' : α → List Mark → Prop} (h : Writes P p)
    (hP : ∀ a marks, P a marks → P' a marks) : Writes P' p := by
  intro o a t ht
  obtain ⟨marks, hm, hpass⟩ := h o a t ht
  exact ⟨marks, hP a marks hm, hpass⟩

theorem Writes.pure {a : α} (h : P a []) : Writes P (Pure.pure a) := by
  intro o b t ht
  cases ht
  exact ⟨[], h, .nil rfl (List.suffix_refl _)⟩

theorem Writes.bind (hp : Writes P p)
    (hf : ∀ a marks, P a marks → Writes (fun b marks' => Q b (marks ++ marks')) (f a)) :
    Writes Q (p >>= f) := by
  intro o b u hu
  obtain ⟨a, t, h1, h2⟩ := bind_eq_ok.1 hu
  obtain ⟨marks, hm, hpass⟩ := hp o a t h1
  obtain ⟨marks', hm', hpass'⟩ := hf a marks hm t b u h2
  exact ⟨marks ++ marks', hm', hpass.trans hpass'⟩

/-- What comes before the first word is not spelled. -/
theorem Writes.after (hp : Quiet p) (hf : ∀ a, Writes Q (f a)) : Writes Q (p >>= f) :=
  .bind hp fun a marks hm => by
    subst hm
    exact hf a

theorem Writes.ite {C : Prop} [Decidable C] (hp : Writes P p) (hq : Writes P q) :
    Writes P (if C then p else q) := by
  split
  · exact hp
  · exact hq

theorem Quiet.of_moves (h : ∀ {n}, Moves n p) (hl : ∀ o a t, p o = .ok (a, t) → t.loops = o.loops) :
    Quiet p := by
  intro o a t ht
  exact ⟨[], rfl, .nil (hl o a t ht) (Reads.suffix (h o) ht)⟩

theorem Quiet.lift {p : Parser α} (h : ∀ {n}, Moves n p) : Quiet (liftM p : Reader α) :=
  .of_moves h.lift fun o a t ht => by
    obtain ⟨c, -, rfl⟩ := lift_eq_ok.1 ht
    rfl

theorem Writes.lift {p : Parser α} {C : α → Prop} (h : ∀ {n}, Moves n p) (hC : Gives C p) :
    Writes (fun a marks => C a ∧ marks = []) (liftM p : Reader α) := by
  intro o a t ht
  obtain ⟨marks, hm, hpass⟩ := Quiet.lift h o a t ht
  obtain ⟨c, hc, -⟩ := lift_eq_ok.1 ht
  exact ⟨marks, ⟨hC _ _ _ hc, hm⟩, hpass⟩

theorem Writes.lift_bind {p : Parser α} {f : α → Parser β}
    (h : Writes Q (liftM p >>= fun a => (liftM (f a) : Reader β))) :
    Writes Q (liftM (p >>= f) : Reader β) := by
  intro o b u hu
  obtain ⟨c, hc, rfl⟩ := lift_eq_ok.1 hu
  obtain ⟨a, d, h1, h2⟩ := bind_eq_ok.1 hc
  exact h o b _ (bind_eq_ok.2 ⟨a, _, lift_eq_ok.2 ⟨d, h1, rfl⟩, lift_eq_ok.2 ⟨c, h2, rfl⟩⟩)

/-- `p` reads a loop whose word has been read and whose number is the next one. -/
def Begins (P : α → Nat → List Mark → Prop) (p : Reader α) : Prop :=
  ∀ o a t, p o = .ok (a, t) → ∃ marks, P a (o.loops + 1) marks ∧
    Passed marks { o with loops := o.loops + 1 } t

theorem Begins.newLoop {P : β → Nat → List Mark → Prop} {f : Nat → Reader β}
    (h : ∀ id, Writes (fun b marks => P b id marks) (f id)) : Begins P (Reader.newLoop >>= f) := by
  intro o b u hu
  exact h (o.loops + 1) _ b u hu

theorem Begins.after {P : β → Nat → List Mark → Prop} {p : Parser α} (hp : ∀ {n}, Moves n p)
    (hf : ∀ a, Begins P (f a)) : Begins P (liftM p >>= f) := by
  intro o b u hu
  obtain ⟨a, t, h1, h2⟩ := bind_eq_ok.1 hu
  obtain ⟨c, hc, rfl⟩ := lift_eq_ok.1 h1
  obtain ⟨marks, hm, hpass⟩ := hf a _ b u h2
  refine ⟨marks, hm, ?_⟩
  have hsilent : Passed [] { o with loops := o.loops + 1 } ⟨c, o.loops + 1, o.aliases⟩ :=
    .nil rfl (Reads.suffix (hp o.cursor) hc)
  exact hsilent.trans hpass

theorem Begins.ite {P : α → Nat → List Mark → Prop} {C : Prop} [Decidable C] (hp : Begins P p)
    (hq : Begins P q) : Begins P (if C then p else q) := by
  split
  · exact hp
  · exact hq

/-- The word of a loop is spelled first, with the number the loop takes. -/
theorem Writes.keyword {k : Keyword} {f : Token → Reader β}
    (h : ∀ t, t.kind = .keyword k → Begins (fun b id marks => Q b (⟨t, some id⟩ :: marks)) (f t)) :
    Writes Q (liftM (expect (.keyword k)) >>= f) := by
  intro o b u hu
  obtain ⟨word, t, h1, h2⟩ := bind_eq_ok.1 hu
  obtain ⟨c, hc, rfl⟩ := lift_eq_ok.1 h1
  rw [expect_eq] at hc
  split at hc
  · rename_i hk
    cases hc
    obtain ⟨marks, hm, hpass⟩ := h _ hk _ b u h2
    refine ⟨_, hm, .cons rfl (by simp [hk]) hpass ?_⟩
    rintro id ⟨⟩
    rfl
  · cases hc

/-- The name of a function is spelled first. -/
theorem Writes.name {what : String} {f : Name → Reader β}
    (h : ∀ t : Token, t.kind = .identifier →
      Writes (fun b marks => Q b (⟨t, none⟩ :: marks)) (f t.name)) :
    Writes Q (liftM (identifier what) >>= f) := by
  intro o b u hu
  obtain ⟨name, t, h1, h2⟩ := bind_eq_ok.1 hu
  obtain ⟨c, hc, rfl⟩ := lift_eq_ok.1 h1
  rw [identifier_eq] at hc
  split at hc
  · rename_i hk
    cases hc
    obtain ⟨marks, hm, hpass⟩ := h _ hk _ b u h2
    exact ⟨_, hm, .cons rfl (by simp [hk]) hpass (by simp)⟩
  · cases hc

end Writes

/-! ### Statements -/

/-- A list of statements, each with `loops` around it, is spelled by `marks`. -/
structure Written (loops : List Enclosing) (body : List Stmt) (marks : List Mark) : Prop where
  spelled : SpelledAll body marks
  bound : ∀ s ∈ body, s.Bound loops

namespace Written

variable {loops : List Enclosing} {s : Stmt} {body body' : List Stmt} {marks marks' : List Mark}

theorem nil : Written loops [] [] :=
  ⟨.nil, by simp⟩

theorem append (h : Written loops body marks) (h' : Written loops body' marks') :
    Written loops (body ++ body') (marks ++ marks') := by
  refine ⟨h.spelled.append h'.spelled, fun s hs => ?_⟩
  rcases List.mem_append.1 hs with hs | hs
  · exact h.bound s hs
  · exact h'.bound s hs

theorem cons (h : Written loops [s] marks) (h' : Written loops body' marks') :
    Written loops (s :: body') (marks ++ marks') :=
  h.append h'

theorem singleton (hs : s.Spelled marks) (hb : s.Bound loops) : Written loops [s] marks := by
  refine ⟨?_, by simpa using hb⟩
  rw [← List.append_nil marks]
  exact .cons hs .nil

/-- A statement with others inside its loops or branches. -/
theorem of_parts (hs : s.Spelled marks) (hj : s.jump? = none) (hb : s.bodies = [])
    (h : ∀ x ∈ s.parts loops, x.2.Bound x.1) : Written loops [s] marks :=
  .singleton hs ⟨by simp [hj], h, by simp [hb]⟩

/-- A statement that declares functions. -/
theorem of_bodies (hs : s.Spelled marks) (hj : s.jump? = none) (hp : s.parts loops = [])
    (h : ∀ b ∈ s.bodies, ∀ t ∈ b, t.Bound []) : Written loops [s] marks :=
  .singleton hs ⟨by simp [hj], by simp [hp], h⟩

/-- A simple statement is spelled by nothing. -/
theorem simple (h : s.isSimple)
    (hj : ∀ id label, s.jump? = some (id, label) → Targets loops label id) :
    Written loops [s] [] := by
  refine .singleton (.simple h) ⟨hj, ?_, ?_⟩
  · cases s <;> simp [Stmt.isSimple, Stmt.parts] at h ⊢
  · cases s <;> simp [Stmt.isSimple, Stmt.bodies] at h ⊢

theorem ifElse {branches : List (Expr × List Stmt)} {otherwise : Option (List Stmt)}
    (h : Written loops ((branches.map (·.2)).flatten ++ otherwise.getD []) marks) :
    Written loops [.ifElse branches otherwise] marks := by
  refine .of_parts (.ifElse h.spelled) rfl rfl fun x hx => ?_
  obtain ⟨s, hs, rfl⟩ := List.mem_map.1 hx
  exact h.bound s hs

theorem function {f : Function} {t : Token} (ht : t.kind = .identifier) (hn : t.name = f.name)
    (h : Written [] f.body marks) : Written loops [.function f] (⟨t, none⟩ :: marks) := by
  refine .of_bodies (.function ht hn h.spelled) rfl rfl fun b hb => ?_
  obtain rfl := List.mem_singleton.1 hb
  exact h.bound

theorem fulfill {contract target : Name} {members : List MemberDecl}
    (hs : SpelledMembers members marks) (hb : ∀ m ∈ members, ∀ s ∈ m.body, s.Bound []) :
    Written loops [.fulfill contract target (members.filterMap (·.getLeft?))
      (members.filterMap (·.getRight?))] marks := by
  refine .of_bodies (.fulfill hs) rfl rfl fun b hb' => ?_
  rcases List.mem_append.1 hb' with hb' | hb'
  · obtain ⟨f, hf, rfl⟩ := List.mem_map.1 hb'
    obtain ⟨m, hm, hmf⟩ := List.mem_filterMap.1 hf
    obtain rfl := Sum.getLeft?_eq_some_iff.1 hmf
    exact hb _ hm
  · obtain ⟨g, hg, rfl⟩ := List.mem_map.1 hb'
    obtain ⟨m, hm, hmg⟩ := List.mem_filterMap.1 hg
    obtain rfl := Sum.getRight?_eq_some_iff.1 hmg
    exact hb _ hm

section Loops

variable {t : Token} {id : Nat} {label : Option Name}

theorem whileLoop {condition : Expr} (ht : t.kind = .keyword .whileWord)
    (h : Written (⟨id, none⟩ :: loops) body marks) :
    Written loops [.whileLoop id condition body] (⟨t, some id⟩ :: marks) := by
  refine .of_parts (.whileLoop ht h.spelled) rfl rfl fun x hx => ?_
  obtain ⟨s, hs, rfl⟩ := List.mem_map.1 hx
  exact h.bound s hs

theorem forLoop {init : Option Stmt} {condition update : Option Expr}
    (ht : t.kind = .keyword .forWord) (hi : Written loops init.toList [])
    (h : Written (⟨id, label.map (·.text)⟩ :: loops) body marks) :
    Written loops [.forLoop id label init condition update body] (⟨t, some id⟩ :: marks) := by
  refine .of_parts (.forLoop ht (hi.spelled.append h.spelled)) rfl rfl fun x hx => ?_
  rcases List.mem_append.1 hx with hx | hx
  · obtain ⟨s, hs, rfl⟩ := List.mem_map.1 hx
    exact hi.bound s hs
  · obtain ⟨s, hs, rfl⟩ := List.mem_map.1 hx
    exact h.bound s hs

theorem forIn {index : Option Name} {value : Name} {iterable : Expr}
    (ht : t.kind = .keyword .forWord)
    (h : Written (⟨id, label.map (·.text)⟩ :: loops) body marks) :
    Written loops [.forIn id label index value iterable body] (⟨t, some id⟩ :: marks) := by
  refine .of_parts (.forIn ht h.spelled) rfl rfl fun x hx => ?_
  obtain ⟨s, hs, rfl⟩ := List.mem_map.1 hx
  exact h.bound s hs

theorem forRange {index : Option Name} {value : Name} {range : RangeExpr}
    (ht : t.kind = .keyword .forWord)
    (h : Written (⟨id, label.map (·.text)⟩ :: loops) body marks) :
    Written loops [.forRange id label index value range body] (⟨t, some id⟩ :: marks) := by
  refine .of_parts (.forRange ht h.spelled) rfl rfl fun x hx => ?_
  obtain ⟨s, hs, rfl⟩ := List.mem_map.1 hx
  exact h.bound s hs

end Loops

end Written

namespace Reader

section Blocks

variable {α : Type} {loops : List Enclosing} {rule : Reader Stmt} {item : Reader α}

theorem writes_statementsUntil (close : Kind) (h : Writes (fun s => Written loops [s]) rule) :
    ∀ budget, Writes (Written loops) (statementsUntil close rule budget)
  | 0 => .pure .nil
  | budget + 1 =>
    .after (.lift moves_kind) fun _ => .ite (.pure .nil) <|
      .after (.lift (moves_accept _)) fun _ => .ite (writes_statementsUntil close h budget) <|
        .bind h fun _ _ hs => .bind (writes_statementsUntil close h budget) fun _ _ hss =>
          .pure (by rw [List.append_nil]; exact hs.cons hss)

theorem writes_block (h : Writes (fun s => Written loops [s]) rule) (budget : Nat) :
    Writes (Written loops) (block rule budget) :=
  .after (.lift moves_openBlock) fun close =>
    .bind (writes_statementsUntil close h budget) fun _ _ hss =>
      .after (.lift (moves_expect close)) fun _ => .pure (by rw [List.append_nil]; exact hss)

theorem writes_itemBlock {P : α → List Mark → Prop} {R : List α → List Mark → Prop} (hnil : R [] [])
    (hcons : ∀ a as marks marks', P a marks → R as marks' → R (a :: as) (marks ++ marks'))
    (h : Writes P item) (budget : Nat) : Writes (fun x => R x.1) (itemBlock item budget) := by
  have hitems (close : Kind) : ∀ budget, Writes R (itemsUntil close item budget) := by
    intro budget
    induction budget with
    | zero => exact .pure hnil
    | succ budget ih =>
      exact .after (.lift moves_kind) fun _ => .ite (.pure hnil) <|
        .ite (.after (.lift moves_next) fun _ => ih) <|
          .bind h fun _ _ ha => .bind ih fun _ _ has =>
            .pure (by rw [List.append_nil]; exact hcons _ _ _ _ ha has)
  exact .after (.lift moves_peek) fun _ => .after (.lift moves_openBlock) fun close =>
    .bind (hitems close budget) fun _ _ has =>
      .after (.lift (moves_expect close)) fun _ => .pure (by rw [List.append_nil]; exact has)

end Blocks

/-! ### Statements without others inside -/

theorem gives_varDecl (budget : Nat) (objects : Bool) :
    Gives (fun s => s.isSimple ∧ s.jump? = none) (varDecl budget objects) := by
  have hdecls : ∀ modifier,
      Gives (fun s => s.isSimple ∧ s.jump? = none) (bindings budget objects modifier) := by
    refine fun modifier => .bind fun decls => .pure ?_
    unfold declaring
    split <;> exact ⟨rfl, rfl⟩
  exact .bind fun _ => .ite (.bind fun _ => hdecls _) (hdecls _)

theorem gives_ret (budget : Nat) : Gives (fun s => s.isSimple ∧ s.jump? = none) (ret budget) :=
  .bind fun _ => .bind fun _ => .bind fun _ => .ite (.bind fun _ => .pure ⟨rfl, rfl⟩)
    (.pure ⟨rfl, rfl⟩)

/-- A jump goes to the loop that it belongs to. -/
theorem gives_jump (make : Nat → Option Name → Span → Stmt) (loops : List Enclosing) :
    Gives (fun s => ∃ id label span, s = make id label span ∧ Targets loops label id)
      (jump make loops) := by
  have htarget : ∀ (start : Span) (label : Option Name),
      Gives (fun s => ∃ id label span, s = make id label span ∧ Targets loops label id)
        (jumpTo make loops start label) := by
    intro start label
    unfold jumpTo
    dsimp only
    split
    · rename_i id hid
      exact .pure ⟨id, label, _, rfl, target_ok hid⟩
    · intro c s t h
      cases h
  exact .bind fun _ => .bind fun _ => .bind fun _ => .ite (.bind fun _ => htarget _ _) (htarget _ _)

theorem quiet_typeDef (budget : Nat) : Quiet (typeDef budget) := by
  have hitems {α : Type} {item : Parser α} (h : ∀ {n}, Moves n item) :
      Quiet (itemBlock (onCursor item) budget) :=
    writes_itemBlock (R := fun _ marks => marks = []) rfl
      (fun _ _ _ _ ha has => by rw [ha, has]; rfl) (Quiet.lift h) budget
  have hstruct : Quiet (structDef budget) :=
    .after (hitems (moves_fieldDecl budget)) fun _ => .pure rfl
  exact .after (.lift (moves_accept _)) fun _ => .ite hstruct <|
    .after (.lift (moves_accept _)) fun _ => .ite
      (.after (hitems (moves_requirement budget)) fun _ => .pure rfl) <|
      .after (.lift (moves_accept _)) fun _ => .ite
        (Quiet.lift (moves_typeExpr budget))
        (.after (.lift moves_kind) fun _ => .ite hstruct (Quiet.lift (moves_unexpected _)))

theorem writes_typeDecl (budget : Nat) (loops : List Enclosing) :
    Writes (fun s => Written loops [s]) (typeDecl budget) :=
  .after (.lift (moves_expect _)) fun _ => .after (.lift (moves_identifier _)) fun _ =>
    .after (.lift (moves_typeParams budget)) fun _ => .after (quiet_typeDef budget) fun _ =>
      .pure (.simple rfl (by simp [Stmt.jump?]))

theorem writes_aliasDecl (budget : Nat) (loops : List Enclosing) :
    Writes (fun s => Written loops [s]) (aliasDecl budget) := by
  have hlast : ∀ (name : Name) (start : Span) (target : TypeExpr),
      Writes (fun s => Written loops [s]) (aliasOf name target (start.upTo target.span)) := by
    intro name start target
    refine .after (.of_moves (moves_addAlias _) ?_) fun _ =>
      .pure (.simple rfl (by simp [Stmt.jump?]))
    intro o a t ht
    cases ht
    rfl
  refine .after (.lift (moves_expect _)) fun start => .after (.lift (moves_identifier _)) fun name =>
    .after (.lift (moves_expect _)) fun _ => .after (.lift (moves_typeExpr budget)) fun target => ?_
  split
  · refine .after (.of_moves (fun o => .ok _) ?_) fun _ => .ite ?_ (hlast name _ _)
    · intro o a t ht
      cases ht
      rfl
    · refine .after ?_ fun _ => hlast name _ _
      intro o a t ht
      cases ht
  · exact hlast name _ _

/-! ### Statements with others inside -/

/-- A method or getter is spelled by its name and what spells its body. -/
def WrittenMember (m : MemberDecl) (marks : List Mark) : Prop :=
  ∃ (t : Token) (inner : List Mark), marks = ⟨t, none⟩ :: inner ∧ t.kind = .identifier ∧
    t.name = m.name ∧ Written [] m.body inner

section Compound

variable {rule : List Enclosing → Reader Stmt} {loops : List Enclosing}
  (h : ∀ loops, Writes (fun s => Written loops [s]) (rule loops))
include h

theorem writes_function (budget : Nat) (isMethod : Bool) :
    Writes (fun f => WrittenMember (.inl f)) (function rule budget isMethod) := by
  refine .after (.lift (moves_expect _)) fun start => .name fun t ht =>
    .after (.lift (moves_typeParams budget)) fun params =>
      .after (.lift (moves_expect _)) fun _ => ?_
  have hbody : ∀ receiver : Option Name,
      Writes (fun f marks => WrittenMember (.inl f) (⟨t, none⟩ :: marks))
        (functionFrom rule budget start.span t.name params receiver) :=
    fun _ => .after (.lift (moves_params budget)) fun _ =>
      .after (.lift (moves_after _ (moves_typeExpr budget))) fun _ =>
        .bind (writes_block (h []) budget) fun _ inner hbody => .after (.lift moves_lastSpan) fun _ =>
          .pure ⟨t, inner, by rw [List.append_nil], ht, rfl, hbody⟩
  exact .ite (.after (.lift (moves_receiver budget)) fun _ => hbody _) (hbody _)

theorem writes_elseTail (bound : Nat) : ∀ budget,
    Writes (fun x => Written loops ((x.1.map (·.2)).flatten ++ x.2.getD []))
      (elseTail (rule loops) bound budget)
  | 0 => .pure .nil
  | budget + 1 =>
    .after (.lift (moves_accept _)) fun _ => .ite
      (.after (.lift (moves_accept _)) fun _ => .ite
        (.after (.lift (moves_expr bound false)) fun _ =>
          .bind (writes_block (h loops) bound) fun _ _ hbody =>
            .bind (writes_elseTail bound budget) fun _ _ htail =>
              .pure (by simpa using hbody.append htail))
        (.bind (writes_block (h loops) bound) fun _ _ hbody => .pure (by simpa using hbody)))
      (.pure .nil)

theorem writes_ifElse (budget : Nat) :
    Writes (fun s => Written loops [s]) (ifElse (rule loops) budget) :=
  .after (.lift (moves_expect _)) fun _ => .after (.lift (moves_expr budget false)) fun _ =>
    .bind (writes_block (h loops) budget) fun _ _ hbody =>
      .bind (writes_elseTail h budget budget) fun _ _ htail =>
        .pure (.ifElse (by simpa using hbody.append htail))

theorem writes_whileLoop (budget : Nat) :
    Writes (fun s => Written loops [s]) (whileLoop rule budget loops) :=
  .keyword fun _ ht => .newLoop fun _ => .after (.lift (moves_expr budget false)) fun _ =>
    .bind (writes_block (h _) budget) fun _ _ hbody =>
      .pure (by rw [List.append_nil]; exact .whileLoop ht hbody)

omit h in
theorem writes_iteration {body : Reader (List Stmt)} {t : Token} {id : Nat} {label : Option Name}
    (ht : t.kind = .keyword .forWord)
    (hb : Writes (Written (⟨id, label.map (·.text)⟩ :: loops)) body) (budget : Nat) :
    Writes (fun s marks => Written loops [s] (⟨t, some id⟩ :: marks))
      (iteration body budget id label) :=
  .after (.lift (moves_identifier _)) fun _ =>
    .after (.lift (moves_after _ (moves_identifier _))) fun _ =>
      .after (.lift (moves_expect _)) fun _ => .after (.lift moves_startsRange) fun _ => .ite
        (.after (.lift moves_next) fun _ => .after (.lift (moves_range budget)) fun _ =>
          .bind hb fun _ _ hbody => .pure (by rw [List.append_nil]; exact .forRange ht hbody))
        (.after (.lift (moves_expr budget false)) fun _ =>
          .bind hb fun _ _ hbody => .pure (by rw [List.append_nil]; exact .forIn ht hbody))

omit h in
theorem writes_stepped {body : Reader (List Stmt)} {t : Token} {id : Nat} {label : Option Name}
    {init : Stmt} (ht : t.kind = .keyword .forWord) (hi : Written loops [init] [])
    (hb : Writes (Written (⟨id, label.map (·.text)⟩ :: loops)) body) (budget : Nat) :
    Writes (fun s marks => Written loops [s] (⟨t, some id⟩ :: marks))
      (stepped body budget id label init) :=
  .after (.lift (moves_expect _)) fun _ => .after (.lift (moves_expr budget false)) fun _ =>
    .after (.lift (moves_expect _)) fun _ => .after (.lift (moves_expr budget false)) fun _ =>
      .bind hb fun _ _ hbody => .pure (by rw [List.append_nil]; exact .forLoop ht hi hbody)

theorem writes_forLoop (budget : Nat) :
    Writes (fun s => Written loops [s]) (forLoop rule budget loops) := by
  refine .keyword fun t ht => .after (moves_atWord _) fun _ => .after (moves_kindAt _) fun _ => ?_
  have hhead : ∀ label : Option Name,
      Begins (fun s id marks => Written loops [s] (⟨t, some id⟩ :: marks))
        (loopHead rule budget loops label) := by
    intro label
    refine .newLoop fun id => .after (.lift moves_kind) fun first => ?_
    have hb : Writes (Written (⟨id, label.map (·.text)⟩ :: loops))
        (block (rule (⟨id, label.map (·.text)⟩ :: loops)) budget) := writes_block (h _) budget
    have hbare (condition : Option Expr) : Writes
        (fun s marks => Written loops [s] (⟨t, some id⟩ :: marks)) (do
          return .forLoop id label none condition none
            (← block (rule (⟨id, label.map (·.text)⟩ :: loops)) budget) : Reader Stmt) :=
      .bind hb fun _ _ hbody => .pure (by rw [List.append_nil]; exact .forLoop ht .nil hbody)
    refine .ite (hbare none) (.after (.lift moves_startsIteration) fun _ => ?_)
    refine .ite (writes_iteration ht hb budget) (.ite ?_ ?_)
    · refine .bind (.lift (takes_varDecl budget false).moves (gives_varDecl budget false))
        fun init marks hinit => ?_
      obtain ⟨⟨hsimple, hjump⟩, rfl⟩ := hinit
      exact writes_stepped ht (.simple hsimple (by simp [hjump])) hb budget
    · have hexpr (test : Expr) : Written loops [.expr test] [] := .simple rfl (by simp [Stmt.jump?])
      exact .after (.lift (moves_expr budget false)) fun _ => .after (.lift moves_kind) fun _ =>
        .ite (writes_stepped ht (hexpr _) hb budget) (hbare _)
  exact .ite (.after moves_next fun _ => .after (moves_identifier _) fun _ => hhead _) (hhead none)

omit h in
theorem writes_getterHead (budget : Nat) :
    Writes (fun x marks => ∃ t : Token, marks = [⟨t, none⟩] ∧ t.kind = .identifier ∧ t.name = x.1)
      (liftM (getterHead budget) : Reader (Name × TypeExpr)) :=
  .lift_bind <| .after (.lift moves_next) fun _ => .lift_bind <| .name fun t ht =>
    .lift_bind <| .after (.lift (moves_expect _)) fun _ =>
      .lift_bind <| .after (.lift (moves_typeExpr budget)) fun result =>
        (Writes.pure ⟨t, rfl, ht, rfl⟩ : Writes _ (pure (t.name, result)))

theorem writes_implementation (budget : Nat) :
    Writes WrittenMember (implementation rule budget) := by
  refine .after (.lift moves_kind) fun _ => .ite ?_ <|
    .after (.lift (moves_atWord _)) fun _ => .ite ?_ ?_
  · exact .bind (writes_function h budget true) fun _ _ hf => .pure (by rwa [List.append_nil])
  · refine .bind (writes_getterHead budget) fun head marks hhead => ?_
    obtain ⟨t, rfl, ht, hname⟩ := hhead
    exact .bind (writes_block (h []) budget) fun _ inner hbody =>
      .pure ⟨t, inner, by simp, ht, hname, hbody⟩
  · intro o a t h
    cases h

theorem writes_fulfillment (budget : Nat) :
    Writes (fun s => Written loops [s]) (fulfillment rule budget) := by
  refine .after (.lift (moves_expect _)) fun _ => .after (.lift (moves_identifier _)) fun _ =>
    .after (.lift (moves_expect _)) fun _ => .after (.lift (moves_identifier _)) fun _ => ?_
  refine .bind (writes_itemBlock
    (R := fun members marks =>
      SpelledMembers members marks ∧ ∀ m ∈ members, ∀ s ∈ m.body, s.Bound [])
    ⟨.nil, by simp⟩ ?_ (writes_implementation h budget) budget) fun x marks hx => ?_
  · rintro m rest _ marks' ⟨t, inner, rfl, ht, hname, hbody⟩ ⟨hs, hb⟩
    refine ⟨.cons ht hname hbody.spelled hs, fun m' hm' => ?_⟩
    rcases List.mem_cons.1 hm' with rfl | hm'
    · exact hbody.bound
    · exact hb m' hm'
  · exact .pure (by rw [List.append_nil]; exact .fulfill hx.1 hx.2)

theorem writes_statementWith (budget : Nat) :
    Writes (fun s => Written loops [s]) (statementWith rule budget loops) := by
  -- a statement without loops and functions leaves no marks
  have hsimple {p : Parser Stmt} (hm : ∀ {n}, Moves n p)
      (hp : Gives (fun s => s.isSimple ∧ s.jump? = none) p) :
      Writes (fun s => Written loops [s]) (liftM p : Reader Stmt) :=
    (Writes.lift hm hp).mono fun s marks hs => by
      obtain ⟨⟨hsimple, hjump⟩, rfl⟩ := hs
      exact .simple hsimple (by simp [hjump])
  have hjump (make : Nat → Option Name → Span → Stmt)
      (hs : ∀ id label span, (make id label span).isSimple)
      (hj : ∀ id label span, (make id label span).jump? = some (id, label)) :
      Writes (fun s => Written loops [s]) (liftM (jump make loops) : Reader Stmt) := by
    refine (Writes.lift (takes_jump make loops).moves (gives_jump make loops)).mono ?_
    rintro s marks ⟨⟨id, label, span, rfl, htarget⟩, rfl⟩
    refine .simple (hs id label span) fun id' label' h => ?_
    rw [hj] at h
    cases h
    exact htarget
  refine .after (.lift moves_kind) fun first => ?_
  split
  · exact hsimple (takes_varDecl budget true).moves (gives_varDecl budget true)
  · exact hsimple (takes_varDecl budget true).moves (gives_varDecl budget true)
  · exact hsimple (takes_varDecl budget true).moves (gives_varDecl budget true)
  · exact hsimple (takes_varDecl budget true).moves (gives_varDecl budget true)
  · refine .bind (writes_function h budget false) fun f marks hf => ?_
    obtain ⟨t, inner, rfl, ht, hname, hbody⟩ := hf
    exact .pure (by rw [List.append_nil]; exact .function ht hname hbody)
  · exact hsimple (takes_ret budget).moves (gives_ret budget)
  · exact writes_ifElse h budget
  · exact writes_whileLoop h budget
  · exact writes_forLoop h budget
  · exact hjump .leave (fun _ _ _ => rfl) fun _ _ _ => rfl
  · exact hjump .skip (fun _ _ _ => rfl) fun _ _ _ => rfl
  · exact writes_typeDecl budget loops
  · exact writes_aliasDecl budget loops
  · exact writes_fulfillment h budget
  · exact .after (.lift (moves_expr budget true)) fun _ =>
      .pure (.simple rfl (by simp [Stmt.jump?]))

end Compound

/-- A statement that is read inside `loops` is spelled by its marks (`Written`). -/
theorem writes_statement : ∀ (budget : Nat) (loops : List Enclosing),
    Writes (fun s => Written loops [s]) (statement budget loops)
  | 0, _ => fun _ _ _ h => by cases h
  | budget + 1, _ => writes_statementWith (writes_statement budget) budget

end Reader

/-! ### Programs -/

theorem Cursor.sublist_ofTokens {tokens picked : List Token}
    (h : picked.Sublist (Cursor.ofTokens tokens).rest) (hk : ∀ t ∈ picked, t.kind ≠ .endOfFile) :
    picked.Sublist tokens := by
  have hdrop : ∀ (span : Span), picked.Sublist (tokens ++ [Token.endOfFile span]) →
      picked.Sublist tokens := by
    intro span h
    obtain ⟨front, last, rfl, hfront, hlast⟩ := List.sublist_append_iff.1 h
    cases last with
    | nil => rwa [List.append_nil]
    | cons t rest =>
      have ht := List.mem_singleton.1 (hlast.subset List.mem_cons_self)
      exact absurd (by rw [ht]; rfl) (hk t (by simp))
  unfold ofTokens at h
  split at h
  · rename_i hnone
    rw [List.getLast?_eq_none_iff] at hnone
    subst hnone
    exact hdrop .nowhere h
  · split at h
    · exact h
    · exact hdrop _ h

/-- What the statements of a program are, and which tokens start its loops and name its functions. -/
theorem Program.written {file : String} {tokens : List Token} {p : Program}
    (h : Program.ofTokens file tokens = .ok p) :
    ∃ (n : Nat) (marks : List Mark), Written [] p.body marks ∧
      (marks.map (·.token)).Sublist tokens ∧ marks.filterMap (·.loop) = List.range' 1 n := by
  obtain ⟨-, t, hp⟩ := Program.ofTokens_eq_ok.1 h
  obtain ⟨marks, hw, ⟨n, -, hids⟩, ⟨used, hused, hsub⟩, hwords⟩ :=
    Reader.writes_statementsUntil .endOfFile (Reader.writes_statement _ []) _ _ _ _ hp
  refine ⟨n, marks, hw, Cursor.sublist_ofTokens ?_ fun t ht => ?_, hids⟩
  · rw [unread_progress] at hused
    rw [hused]
    exact hsub.trans (List.sublist_append_left _ _)
  · obtain ⟨m, hm, rfl⟩ := List.mem_map.1 ht
    exact hwords m hm

/-- The loops of a program are numbered in the order of the source, and its jumps are bound to
them. -/
theorem Program.loops_bound {file : String} {tokens : List Token} {p : Program}
    (h : Program.ofTokens file tokens = .ok p) : LoopsBound tokens p.body := by
  obtain ⟨n, marks, hw, hsub, hids⟩ := Program.written h
  refine ⟨⟨n, marks, hw.spelled, hsub, hids⟩, fun loops s hs id label hj => ?_⟩
  exact (Stmt.Bound.within hw.bound hs).jump hj

/-- A labelled loop with another inside that skips it, and a function with a loop of its own. -/
def nestedLoops : List Token :=
  [⟨.keyword .forWord, "for", .nowhere⟩, ⟨.identifier, "label", .nowhere⟩,
   ⟨.identifier, "outer", .nowhere⟩, ⟨.symbol .openBrace, "\x7b", .nowhere⟩,
   ⟨.keyword .whileWord, "while", .nowhere⟩, ⟨.identifier, "x", .nowhere⟩,
   ⟨.symbol .openBrace, "\x7b", .nowhere⟩, ⟨.keyword .skipWord, "skip", .nowhere⟩,
   ⟨.identifier, "outer", .nowhere⟩, ⟨.symbol .closeBrace, "\x7d", .nowhere⟩,
   ⟨.keyword .fnWord, "fn", .nowhere⟩, ⟨.identifier, "f", .nowhere⟩,
   ⟨.symbol .openParen, "(", .nowhere⟩, ⟨.symbol .closeParen, ")", .nowhere⟩,
   ⟨.symbol .openBrace, "\x7b", .nowhere⟩, ⟨.keyword .forWord, "for", .nowhere⟩,
   ⟨.indent, "", .nowhere⟩, ⟨.keyword .breakWord, "break", .nowhere⟩, ⟨.dedent, "", .nowhere⟩,
   ⟨.symbol .closeBrace, "\x7d", .nowhere⟩, ⟨.symbol .closeBrace, "\x7d", .nowhere⟩]

theorem nestedLoops_bound :
    ∃ p, Program.ofTokens "main" nestedLoops = .ok p ∧ LoopsBound nestedLoops p.body := by
  have hok : (Program.ofTokens "main" nestedLoops).isOk := by decide +kernel
  cases hp : Program.ofTokens "main" nestedLoops with
  | error e => simp [hp, Except.isOk, Except.toBool] at hok
  | ok p => exact ⟨p, rfl, Program.loops_bound hp⟩

end Sable
