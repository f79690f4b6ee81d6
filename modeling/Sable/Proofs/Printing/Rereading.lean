import Sable.Proofs.Printing.Annotations

/-!
# Annotations read back from their words

`TypeExpr.Flat`: no union is a member of a union, and a function with a result is only the last member
of one. The words of a flat annotation are read as that annotation but for its places (`bare`):
`ReadHead`, `ReadMember` and `ReadWhole`, each up to a token that cannot go on with it.
-/

namespace Sable

theorem exists_two {α : Type} : ∀ {xs : List α}, 2 ≤ xs.length → ∃ x y zs, xs = x :: y :: zs
  | x :: y :: zs, _ => ⟨x, y, zs, rfl⟩

namespace TypeExpr

mutual

/-- The annotation without the places where its parts stand. A definition is left as it is. -/
def bare : TypeExpr → TypeExpr
  | word text _ => word text .nowhere
  | named name => named ⟨name.text, .nowhere⟩
  | generic name args => generic ⟨name.text, .nowhere⟩ (bareOf args)
  | union members _ => union (bareOf members) .nowhere
  | array element _ => array (bare element) .nowhere
  | function params result _ => function (bareOf params) (bareResult result) .nowhere
  | definition => definition

def bareOf : List TypeExpr → List TypeExpr
  | [] => []
  | type :: rest => bare type :: bareOf rest

def bareResult : Option TypeExpr → Option TypeExpr
  | none => none
  | some type => some (bare type)

end

theorem bareOf_eq (types : List TypeExpr) : bareOf types = types.map bare := by
  induction types with
  | nil => rfl
  | cons type rest ih => rw [bareOf, ih, List.map_cons]

theorem bareResult_eq (result : Option TypeExpr) : bareResult result = result.map bare := by
  cases result <;> rfl

def isUnion : TypeExpr → Bool
  | union .. => true
  | _ => false

/-- A function that says what it gives. -/
def hasResult : TypeExpr → Bool
  | function _ (some _) _ => true
  | _ => false

/-- No union has a union among its members, or a function that says what it gives in any place but
the last. -/
inductive Flat : TypeExpr → Prop
  | primitive (type : Primitive) (span : Span) : Flat (.primitive type span)
  | named (name : Name) : Flat (.named name)
  | generic {name : Name} {args : List TypeExpr} (h : ∀ a ∈ args, Flat a) : Flat (.generic name args)
  | union {members : List TypeExpr} {span : Span} (flat : ∀ m ∈ members, m.isUnion = false)
      (closed : ∀ m ∈ members.dropLast, m.hasResult = false) (h : ∀ m ∈ members, Flat m) :
      Flat (.union members span)
  | array {element : TypeExpr} {span : Span} (h : Flat element) : Flat (.array element span)
  | function {params : List TypeExpr} {result : Option TypeExpr} {span : Span}
      (hp : ∀ p ∈ params, Flat p) (hr : ∀ r ∈ result, Flat r) : Flat (.function params result span)

/-- An annotation begins with a name, with the word for functions, or with a parenthesis. -/
theorem Formed.words_head {t : TypeExpr} (h : t.Formed) : ∃ w ws, t.words = w :: ws ∧
    w.1 ∈ [.identifier, .keyword .fnWord, .symbol .openParen] := by
  induction h with
  | primitive | named | generic => exact ⟨_, _, rfl, List.mem_cons_self⟩
  | @union members span several h ih =>
    obtain ⟨m, ms, rfl⟩ := List.exists_cons_of_length_pos (Nat.lt_of_lt_of_le Nat.zero_lt_two several)
    obtain ⟨w, ws, hwords, hw⟩ := ih m List.mem_cons_self
    rw [words, wordsOf, separated, hwords]
    exact ⟨w, _, rfl, hw⟩
  | @array element span h ih =>
    obtain ⟨w, ws, hwords, hw⟩ := ih
    rw [words]
    split
    · exact ⟨_, _, rfl, by decide⟩
    · rw [hwords]
      exact ⟨w, _, rfl, hw⟩
  | function => exact ⟨_, _, rfl, by decide⟩

theorem Formed.words_ne_nil {t : TypeExpr} (h : t.Formed) : t.words ≠ [] := by
  obtain ⟨w, ws, hwords, -⟩ := h.words_head
  rw [hwords]
  exact List.cons_ne_nil w ws

end TypeExpr

namespace Parser

/-! ### Positions -/

/-- What may stand behind a whole annotation. -/
def closers : List Kind :=
  [.symbol .comma, .symbol .closeParen, .symbol .greater, .endOfFile]

/-- The rule reads the annotation up to `rest`, but for its places. -/
def Rereads (p : Parser TypeExpr) (c : Cursor) (t : TypeExpr) (rest : List Token) : Prop :=
  ∃ t' last, p c = .ok (t', ⟨last, rest⟩) ∧ t'.bare = t.bare

/-- The words are read as a whole annotation. -/
def ReadWhole (t : TypeExpr) : Prop :=
  ∀ line b c rest, Faces line t.words rest c → c.rest.length ≤ b → front rest ∈ closers →
    Rereads (typeExpr b) c t rest

/-- The words are read as a member of a union, and in front of a bar unless they end in a result. -/
def ReadMember (t : TypeExpr) : Prop :=
  ∀ line b c rest, Faces line t.words rest c → c.rest.length ≤ b + 1 →
    front rest ∈ closers ∨ t.hasResult = false ∧ front rest = .symbol .pipe →
    Rereads (bracketType (typeExpr b) b) c t rest

/-- The words are read as a type that brackets may follow. -/
def ReadHead (words : List Word) (t : TypeExpr) : Prop :=
  ∀ line b c rest, Faces line words rest c → c.rest.length ≤ b + 1 → front rest ≠ .symbol .less →
    ∃ k t' last, rest.length ≤ k ∧ bracketType (typeExpr b) b c = brackets k t' ⟨last, rest⟩ ∧
      t'.bare = t.bare

variable {t : TypeExpr} {words : List Word}

theorem brackets_stop {c : Cursor} (h : c.here.kind ≠ .symbol .openBracket) (k : Nat) (t : TypeExpr) :
    brackets k t c = .ok (t, c) := by
  cases k with
  | zero => rfl
  | succ k => rw [brackets, kind_bind, kindAt_bind, if_neg fun hk => h hk.1]; rfl

theorem brackets_pair {line k : Nat} {c : Cursor} {rest : List Token} (t : TypeExpr)
    (h : Faces line [Symbol.openBracket.word, Symbol.closeBracket.word] rest c) :
    ∃ span last, brackets (k + 1) t c = brackets k (.array t span) ⟨last, rest⟩ := by
  obtain ⟨hclose, -, -⟩ := h.advance nofun
  obtain ⟨hend, -, -⟩ := hclose.advance nofun
  have hsecond : c.kindAt 1 = .symbol .closeBracket := by
    have hrest := Cursor.rest_eq_of_kind h.symbol nofun
    rw [Cursor.rest_eq_of_kind hclose.symbol nofun] at hrest
    simp [Cursor.kindAt, hrest, hclose.symbol]
  rw [brackets, kind_bind, kindAt_bind, if_pos ⟨h.symbol, hsecond⟩, next_bind, next_bind, hend.eq_of_nil]
  exact ⟨_, _, rfl⟩

/-- Brackets behind the head. -/
theorem ReadHead.array (h : ReadHead words t) (span : Span) :
    ReadHead (words ++ [Symbol.openBracket.word, Symbol.closeBracket.word]) (.array t span) := by
  intro line b c rest hc hb _
  obtain ⟨mid, hwords, hpair⟩ := hc.append
  have hfront : front mid = .symbol .openBracket := (hpair c.last).front_rest
  obtain ⟨k, t', last, hk, hrun, hbare⟩ := h line b c mid hwords hb (by rw [hfront]; decide)
  have hlength := (hpair last).length
  obtain ⟨k, rfl⟩ : ∃ j, k = j + 1 := Nat.exists_eq_succ_of_ne_zero (by simp at hlength; omega)
  obtain ⟨span', last', hpaired⟩ := brackets_pair t' (hpair last)
  refine ⟨k, _, last', by simp at hlength; omega, hrun.trans hpaired, ?_⟩
  rw [TypeExpr.bare, TypeExpr.bare, hbare]

/-- A head is a member where no more brackets follow. -/
theorem ReadHead.member (h : ReadHead t.words t) : ReadMember t := by
  intro line b c rest hc hb hrest
  have hkinds : front rest ≠ .symbol .less ∧ front rest ≠ .symbol .openBracket := by
    rcases hrest with hrest | ⟨-, hrest⟩
    · revert hrest
      generalize front rest = k
      intro hk
      constructor <;>
      · rintro rfl
        revert hk
        decide
    · rw [hrest]
      decide
  obtain ⟨k, t', last, -, hrun, hbare⟩ := h line b c rest hc hb hkinds.1
  refine ⟨t', last, hrun.trans (brackets_stop ?_ k t'), hbare⟩
  rw [Cursor.here_kind]
  exact hkinds.2

/-- A member is a whole annotation where no bar follows. -/
theorem ReadMember.whole (h : ReadMember t) (hne : t.words ≠ []) : ReadWhole t := by
  intro line b c rest hc hb hrest
  have hlength := hc.length
  have hpos := List.length_pos_of_ne_nil hne
  obtain ⟨b, rfl⟩ : ∃ d, b = d + 1 := Nat.exists_eq_succ_of_ne_zero (by omega)
  obtain ⟨t', last, hrun, hbare⟩ := h line b c rest hc hb (.inl hrest)
  have hbar : (Cursor.here ⟨last, rest⟩).kind ≠ .symbol .pipe := by
    rw [Cursor.here_kind]
    intro hk
    rw [show front rest = .symbol .pipe from hk] at hrest
    revert hrest
    decide
  refine ⟨t', last, ?_, hbare⟩
  rw [typeExpr, unionType, bind_of_ok hrun, kind_bind, if_neg hbar]
  rfl

theorem ReadHead.of_simple (hne : words ≠ [])
    (h : ∀ line b c rest, Faces line words rest c → c.rest.length ≤ b + 1 →
      front rest ≠ .symbol .less → Rereads (simpleType (typeExpr b) b) c t rest) :
    ReadHead words t := by
  intro line b c rest hc hb hrest
  obtain ⟨t', last, hrun, hbare⟩ := h line b c rest hc hb hrest
  have hlength := hc.length
  have hpos := List.length_pos_of_ne_nil hne
  exact ⟨b, t', last, by omega, bind_of_ok hrun, hbare⟩

/-- Any annotation is a head in parentheses. -/
theorem ReadWhole.parenthesized (h : ReadWhole t) : ReadHead (parenthesized t.words) t := by
  refine .of_simple (List.cons_ne_nil _ _) fun line b c rest hc hb _ => ?_
  obtain ⟨mid, hinner, hfront, hlength, hclose⟩ := hc.enclosed
  obtain ⟨t', last, hrun, hbare⟩ := h line b c.advance mid hinner (by omega) (by rw [hfront]; decide)
  obtain ⟨hkind, stop, hadvance, -⟩ := hclose last
  refine ⟨t', stop, ?_, hbare⟩
  have hopen : c.here.kind = .symbol .openParen := Faces.symbol hc
  rw [simpleType, kind_bind, hopen]
  simp only
  rw [next_bind, bind_of_ok hrun, expect_bind, if_pos hkind, hadvance]
  rfl

/-! ### Lists -/

section Lists

variable {line b : Nat} {close : Symbol}

/-- Annotations up to a closing sign, read round by round. -/
theorem reads_list (loop : Nat → Parser (List TypeExpr)) (hclose : .symbol close ∈ closers)
    (hcomma : close ≠ .comma) (hloop : ∀ k c, c.here.kind ≠ .symbol close →
      loop (k + 1) c = commaRound (typeExpr b) (loop k) c) {types : List TypeExpr}
    (hformed : ∀ t ∈ types, t.Formed) (hread : ∀ t ∈ types, ReadWhole t) (hne : types ≠ [])
    {k : Nat} {c : Cursor} {rest : List Token}
    (hc : Faces line (separated .comma (TypeExpr.wordsOf types)) rest c) (hb : c.rest.length ≤ b)
    (hk : c.rest.length ≤ k) (hrest : front rest = .symbol close) :
    ∃ types' last, loop k c = .ok (types', ⟨last, rest⟩) ∧
      TypeExpr.bareOf types' = TypeExpr.bareOf types := by
  induction types generalizing k c with
  | nil => exact absurd rfl hne
  | cons t types ih =>
    obtain ⟨hformed, hformeds⟩ := List.forall_mem_cons.1 hformed
    obtain ⟨hwhole, hwholes⟩ := List.forall_mem_cons.1 hread
    have hpos := List.length_pos_of_ne_nil hformed.words_ne_nil
    obtain ⟨w, ws, hwords, hw⟩ := hformed.words_head
    -- no annotation begins with a closing sign, so there is another round
    have hhere : c.here.kind ≠ .symbol close := by
      have hc' := hc
      rw [TypeExpr.wordsOf, separated, hwords, List.cons_append] at hc'
      rw [hc'.kind]
      rintro hkind
      rw [hkind] at hw
      obtain rfl : close = .openParen := by simpa using hw
      revert hclose
      decide
    -- the words ahead are part of the budget
    obtain ⟨k, rfl⟩ : ∃ j, k = j + 1 := by
      have hlength := hc.length
      rw [TypeExpr.wordsOf, separated, List.length_append] at hlength
      exact Nat.exists_eq_succ_of_ne_zero (by omega)
    rw [hloop k c hhere, commaRound]
    cases types with
    | nil =>
      rw [TypeExpr.wordsOf, TypeExpr.wordsOf, separated, List.flatMap_nil, List.append_nil] at hc
      obtain ⟨t', last, hrun, hbare⟩ := hwhole line b c rest hc hb (by rw [hrest]; exact hclose)
      have hstop : (Cursor.here ⟨last, rest⟩).kind ≠ .symbol .comma := by
        rw [Cursor.here_kind]
        exact fun hk => hcomma (Kind.symbol.inj (hrest.symm.trans hk))
      refine ⟨[t'], last, ?_, ?_⟩
      · rw [bind_of_ok hrun, accept_bind, if_neg hstop]
        rfl
      · simp [TypeExpr.bareOf, hbare]
    | cons u types =>
      obtain ⟨mid, hfirst, hfront, hmore⟩ := hc.parted
      obtain ⟨t', last, hrun, hbare⟩ := hwhole line b c mid hfirst hb (by rw [hfront]; decide)
      obtain ⟨hnext, hothers, -, hshorter⟩ := hmore last
      have hmid := hfirst.length
      have hb' : (Cursor.advance ⟨last, mid⟩).rest.length ≤ b := by omega
      have hk' : (Cursor.advance ⟨last, mid⟩).rest.length ≤ k := by omega
      obtain ⟨types', last', hloops, hbares⟩ :=
        ih hformeds hwholes (List.cons_ne_nil _ _) hothers hb' hk'
      refine ⟨t' :: types', last', ?_, ?_⟩
      · rw [bind_of_ok hrun, accept_bind, if_pos hnext, if_pos rfl, bind_of_ok hloops]
        rfl
      · rw [TypeExpr.bareOf, TypeExpr.bareOf, hbare, hbares]

theorem reads_args {types : List TypeExpr} (hformed : ∀ t ∈ types, t.Formed)
    (hread : ∀ t ∈ types, ReadWhole t) (hne : types ≠ []) {c : Cursor} {rest : List Token}
    (hc : Faces line (separated .comma (TypeExpr.wordsOf types)) rest c) (hb : c.rest.length ≤ b)
    (hrest : front rest = .symbol .greater) :
    ∃ types' last, commaList (typeExpr b) b c = .ok (types', ⟨last, rest⟩) ∧
      TypeExpr.bareOf types' = TypeExpr.bareOf types :=
  reads_list (commaList (typeExpr b)) (by decide) (by decide) (fun _ _ _ => rfl) hformed hread
    hne hc hb hb hrest

theorem reads_params {types : List TypeExpr} (hformed : ∀ t ∈ types, t.Formed)
    (hread : ∀ t ∈ types, ReadWhole t) {c : Cursor} {rest : List Token}
    (hc : Faces line (separated .comma (TypeExpr.wordsOf types)) rest c) (hb : c.rest.length ≤ b)
    (hrest : front rest = .symbol .closeParen) :
    ∃ types' last, listUntil (.symbol .closeParen) (typeExpr b) b c = .ok (types', ⟨last, rest⟩) ∧
      TypeExpr.bareOf types' = TypeExpr.bareOf types := by
  cases types with
  | nil =>
    have hnil : Faces line [] rest c := hc
    have hclose : c.here.kind = .symbol .closeParen := by
      rw [Cursor.here_kind, hnil.nil, hrest]
    refine ⟨[], c.last, ?_, rfl⟩
    rw [← hnil.eq_of_nil]
    cases b with
    | zero => rfl
    | succ b => rw [listUntil, kind_bind, if_pos hclose]; rfl
  | cons t types =>
    refine reads_list (listUntil (.symbol .closeParen) (typeExpr b)) (by decide) (by decide)
      (fun k c hk => ?_) hformed hread (List.cons_ne_nil _ _) hc hb hb hrest
    show (kind >>= _ : Parser _) c = _
    rw [kind_bind, if_neg hk]
    rfl

/-- The members of a union behind its first. -/
theorem reads_members {types : List TypeExpr} (hread : ∀ t ∈ types, ReadMember t)
    (hclosed : ∀ t ∈ types.dropLast, t.hasResult = false) {k : Nat} {c : Cursor} {rest : List Token}
    (hc : Faces line ((TypeExpr.wordsOf types).flatMap (Symbol.pipe.word :: ·)) rest c)
    (hb : c.rest.length ≤ b + 1) (hk : c.rest.length ≤ k) (hrest : front rest ∈ closers) :
    ∃ types' last, unionTail (bracketType (typeExpr b) b) k c = .ok (types', ⟨last, rest⟩) ∧
      TypeExpr.bareOf types' = TypeExpr.bareOf types := by
  induction types generalizing k c with
  | nil =>
    have hnil : Faces line [] rest c := hc
    refine ⟨[], c.last, ?_, rfl⟩
    rw [← hnil.eq_of_nil]
    have hstop : c.here.kind ≠ .symbol .pipe := by
      rw [Cursor.here_kind, hnil.nil]
      intro hk
      rw [hk] at hrest
      revert hrest
      decide
    cases k with
    | zero => rfl
    | succ k => rw [unionTail, accept_bind, if_neg hstop]; rfl
  | cons t types ih =>
    obtain ⟨hmember, hmembers⟩ := List.forall_mem_cons.1 hread
    have hpipe : c.here.kind = .symbol .pipe := Faces.symbol hc
    obtain ⟨hwords, -, hlength⟩ := Faces.advance hc (by rintro ⟨⟩)
    obtain ⟨mid, hfirst, hothers⟩ := hwords.append
    -- behind a member there is the next bar or the end of the union
    have hmid : front mid ∈ closers ∨ t.hasResult = false ∧ front mid = .symbol .pipe := by
      cases types with
      | nil => exact .inl (by rw [← (hothers c.last).nil] at hrest; exact hrest)
      | cons u types => exact .inr ⟨hclosed t List.mem_cons_self, (hothers c.last).front_rest⟩
    obtain ⟨t', last, hrun, hbare⟩ := hmember line b c.advance mid hfirst (by omega) hmid
    have hshorter := hfirst.length
    obtain ⟨k, rfl⟩ : ∃ j, k = j + 1 := Nat.exists_eq_succ_of_ne_zero (by omega)
    have hb' : (Cursor.mk last mid).rest.length ≤ b + 1 := by
      show mid.length ≤ b + 1
      omega
    have hk' : (Cursor.mk last mid).rest.length ≤ k := by
      show mid.length ≤ k
      omega
    have hclosed' : ∀ t ∈ types.dropLast, t.hasResult = false := fun u hu => hclosed u (by
      cases types with
      | nil => cases hu
      | cons v types => exact List.mem_cons_of_mem t hu)
    obtain ⟨types', last', htail, hbares⟩ := ih hmembers hclosed' (hothers last) hb' hk'
    refine ⟨t' :: types', last', ?_, ?_⟩
    · rw [unionTail, accept_bind, if_pos hpipe, if_pos rfl, bind_of_ok hrun, bind_of_ok htail]
      rfl
    · rw [TypeExpr.bareOf, TypeExpr.bareOf, hbare, hbares]

end Lists

/-! ### One form after another -/

section Forms

theorem simpleType_identifier {inner : Parser TypeExpr} {b : Nat} {c : Cursor}
    (h : c.here.kind = .identifier) : simpleType inner b c =
      (match Primitive.ofName? c.here.text with
      | some type => return .primitive type c.here.span
      | none => do
        if ← accept (.symbol .less) then
          let args ← commaList inner b
          let _ ← expect (.symbol .greater)
          return .generic c.here.name args
        else return .named c.here.name : Parser TypeExpr) c.advance := by
  rw [simpleType, kind_bind, h]
  simp only
  rw [identifier_bind, if_pos h]
  rfl

theorem reads_primitive (type : Primitive) (span : Span) :
    ReadHead (TypeExpr.primitive type span).words (.primitive type span) := by
  refine .of_simple (List.cons_ne_nil _ _) fun line b c rest hc _ _ => ?_
  obtain ⟨hend, -, -⟩ := Faces.advance hc (by rintro ⟨⟩)
  have htext : c.here.text = type.name := congrArg Prod.snd (Faces.here hc).1
  have htype : Primitive.ofName? c.here.text = some type := by
    rw [htext]
    cases type <;> rfl
  rw [Rereads, simpleType_identifier (Faces.kind hc), htype, hend.eq_of_nil]
  exact ⟨_, _, rfl, rfl⟩

theorem reads_named {name : Name} (free : Primitive.ofName? name.text = none) :
    ReadHead (TypeExpr.named name).words (.named name) := by
  refine .of_simple (List.cons_ne_nil _ _) fun line b c rest hc _ hrest => ?_
  obtain ⟨hend, -, -⟩ := Faces.advance hc (by rintro ⟨⟩)
  have htext : c.here.text = name.text := congrArg Prod.snd (Faces.here hc).1
  have hless : c.advance.here.kind ≠ .symbol .less := by rwa [Cursor.here_kind, hend.nil]
  rw [Rereads, simpleType_identifier (Faces.kind hc), htext, free]
  simp only
  rw [accept_bind, if_neg hless, hend.eq_of_nil]
  refine ⟨_, _, rfl, ?_⟩
  rw [TypeExpr.bare, TypeExpr.bare, Token.name, htext]

theorem reads_generic {name : Name} {args : List TypeExpr} (free : Primitive.ofName? name.text = none)
    (hformed : ∀ a ∈ args, a.Formed) (hread : ∀ a ∈ args, ReadWhole a) (hne : args ≠ []) :
    ReadHead (TypeExpr.generic name args).words (.generic name args) := by
  refine .of_simple (List.cons_ne_nil _ _) fun line b c rest hc hb _ => ?_
  obtain ⟨hlist, -, hlength⟩ := Faces.advance hc (by rintro ⟨⟩)
  have htext : c.here.text = name.text := congrArg Prod.snd (Faces.here hc).1
  obtain ⟨mid, hargs, hfront, hlength', hclose⟩ := hlist.enclosed
  obtain ⟨args', last, hrun, hbare⟩ := reads_args (b := b) hformed hread hne hargs (by omega) hfront
  obtain ⟨hgreater, stop, hadvance, -⟩ := hclose last
  refine ⟨.generic c.here.name args', stop, ?_, ?_⟩
  · rw [simpleType_identifier (Faces.kind hc), htext, free]
    simp only
    rw [accept_bind, if_pos hlist.symbol, if_pos rfl, bind_of_ok hrun, expect_bind, if_pos hgreater,
      hadvance]
    rfl
  · rw [TypeExpr.bare, TypeExpr.bare, hbare, Token.name, htext]

theorem reads_result {result : Option TypeExpr} (hread : ∀ r ∈ result, ReadWhole r) {line b : Nat}
    {c : Cursor} {rest : List Token} (hc : Faces line (TypeExpr.resultWords result) rest c)
    (hb : c.rest.length ≤ b) (harrow : front rest ≠ .symbol .arrow)
    (hrest : result.isSome → front rest ∈ closers) :
    ∃ result' last, after (.symbol .arrow) (typeExpr b) c = .ok (result', ⟨last, rest⟩) ∧
      TypeExpr.bareResult result' = TypeExpr.bareResult result := by
  cases result with
  | none =>
    have hnil : Faces line [] rest c := hc
    have hkind : c.here.kind ≠ .symbol .arrow := by rwa [Cursor.here_kind, hnil.nil]
    refine ⟨none, c.last, ?_, rfl⟩
    rw [after, accept_bind, if_neg hkind, ← hnil.eq_of_nil]
    rfl
  | some r =>
    obtain ⟨hwords, -, hlength⟩ := Faces.advance hc (by rintro ⟨⟩)
    obtain ⟨r', last, hrun, hbare⟩ :=
      hread r rfl line b c.advance rest hwords (by omega) (hrest rfl)
    refine ⟨some r', last, ?_, ?_⟩
    · rw [after, accept_bind, if_pos (Faces.symbol hc), if_pos rfl, bind_of_ok hrun]
      rfl
    · rw [TypeExpr.bareResult, TypeExpr.bareResult, hbare]

theorem reads_function {params : List TypeExpr} {result : Option TypeExpr} (span : Span)
    (hformed : ∀ p ∈ params, p.Formed) (hread : ∀ p ∈ params, ReadWhole p)
    (hresult : ∀ r ∈ result, ReadWhole r) : ReadMember (.function params result span) := by
  intro line b c rest hc hb hrest
  -- what follows is neither taken for a result nor for brackets
  have hkinds : front rest ∉ [.symbol .arrow, .symbol .openBracket] := by
    intro hmem
    have hnone : ∀ k ∈ [Kind.symbol .arrow, .symbol .openBracket], k ∉ closers ∧ k ≠ .symbol .pipe := by
      decide
    exact hrest.elim (hnone _ hmem).1 fun h => (hnone _ hmem).2 h.2
  have hfn : c.here.kind = .keyword .fnWord := Faces.kind hc
  obtain ⟨hwords, -, hlength⟩ := Faces.advance hc (by rintro ⟨⟩)
  obtain ⟨mid, hparens, hgiven⟩ := hwords.append
  obtain ⟨inner, hparams, hfront, hlength', hclose⟩ := hparens.enclosed
  obtain ⟨params', last, hrun, hbare⟩ := reads_params (b := b) hformed hread hparams (by omega) hfront
  obtain ⟨hparen, stop, hadvance, -⟩ := hclose last
  have hshorter := hparens.length
  have hb' : (Cursor.mk stop mid).rest.length ≤ b := by
    show mid.length ≤ b
    omega
  have hsome : result.isSome → front rest ∈ closers := by
    intro h
    obtain ⟨r, rfl⟩ := Option.isSome_iff_exists.1 h
    exact hrest.elim id fun h => by cases h.1
  obtain ⟨result', last', hafter, hbare'⟩ :=
    reads_result hresult (hgiven stop) hb' (fun hk => hkinds (by simp [hk])) hsome
  have hsimple : ∃ span', simpleType (typeExpr b) b c =
      .ok (.function params' result' span', ⟨last', rest⟩) := by
    rw [simpleType, kind_bind, hfn]
    simp only
    rw [next_bind, expect_bind, if_pos (Faces.symbol hparens), bind_of_ok hrun, expect_bind,
      if_pos hparen, hadvance, bind_of_ok hafter]
    exact ⟨_, rfl⟩
  obtain ⟨span', hsimple⟩ := hsimple
  refine ⟨.function params' result' span', last', ?_, ?_⟩
  · rw [bracketType, bind_of_ok hsimple, brackets_stop]
    rw [Cursor.here_kind]
    exact fun hk => hkinds (by rw [show front rest = _ from hk]; decide)
  · rw [TypeExpr.bare, TypeExpr.bare, hbare, hbare']

theorem reads_union {members : List TypeExpr} (span : Span) (several : 2 ≤ members.length)
    (hformed : ∀ m ∈ members, m.Formed) (closed : ∀ m ∈ members.dropLast, m.hasResult = false)
    (hread : ∀ m ∈ members, ReadMember m) : ReadWhole (.union members span) := by
  intro line b c rest hc hb hrest
  obtain ⟨m, u, members, rfl⟩ := exists_two several
  obtain ⟨hmember, hmembers⟩ := List.forall_mem_cons.1 hread
  have hpos := List.length_pos_of_ne_nil (hformed m List.mem_cons_self).words_ne_nil
  obtain ⟨mid, hfirst, hothers⟩ := Faces.append hc
  have hfront : front mid = .symbol .pipe := (hothers c.last).front_rest
  have hlength := hfirst.length
  obtain ⟨b, rfl⟩ : ∃ d, b = d + 1 := Nat.exists_eq_succ_of_ne_zero (by omega)
  obtain ⟨m', last, hrun, hbare⟩ :=
    hmember line b c mid hfirst hb (.inr ⟨closed m List.mem_cons_self, hfront⟩)
  have hmid : (Cursor.mk last mid).rest.length ≤ b := by
    show mid.length ≤ b
    omega
  obtain ⟨others, last', htail, hbares⟩ := reads_members hmembers
    (fun t ht => closed t (List.mem_cons_of_mem m ht)) (hothers last) (Nat.le_succ_of_le hmid) hmid hrest
  have hpipe : (Cursor.here ⟨last, mid⟩).kind = .symbol .pipe := (Cursor.here_kind _).trans hfront
  refine ⟨.union (m' :: others) (m'.span.upTo last'), last', ?_, ?_⟩
  · rw [typeExpr, unionType, bind_of_ok hrun, kind_bind, if_pos hpipe, bind_of_ok htail]
    rfl
  · rw [TypeExpr.bare, TypeExpr.bare, TypeExpr.bareOf, hbare, hbares]
    rfl

end Forms

/-- A formed and flat annotation is read from its words in every position that it may stand in. -/
theorem reads_flat {t : TypeExpr} (hformed : t.Formed) (hflat : t.Flat) :
    ReadWhole t ∧ (t.isUnion = false → ReadMember t) ∧ (t.isOpen = false → ReadHead t.words t) := by
  -- what can be read in front of brackets can be read in the other two positions
  have of_head {t : TypeExpr} (hne : t.words ≠ []) (h : ReadHead t.words t) : ReadWhole t ∧
      (t.isUnion = false → ReadMember t) ∧ (t.isOpen = false → ReadHead t.words t) :=
    ⟨h.member.whole hne, fun _ => h.member, fun _ => h⟩
  have hne := hformed.words_ne_nil
  induction hformed with
  | primitive type span => exact of_head hne (reads_primitive type span)
  | named _ free => exact of_head hne (reads_named free)
  | @generic name args _ free some h ih =>
    cases hflat with
    | generic hflat =>
      refine of_head hne (reads_generic free h (fun a ha => ?_) some)
      exact (ih a ha (hflat a ha) (h a ha).words_ne_nil).1
  | @union members span several h ih =>
    cases hflat with
    | union flat closed hflat =>
      refine ⟨reads_union span several h closed fun m hm => ?_, by rintro ⟨⟩, by rintro ⟨⟩⟩
      exact (ih m hm (hflat m hm) (h m hm).words_ne_nil).2.1 (flat m hm)
  | @array element span h ih =>
    cases hflat with
    | array hflat =>
      obtain ⟨hwhole, -, hhead⟩ := ih hflat h.words_ne_nil
      have harray : ReadHead (TypeExpr.array element span).words (.array element span) := by
        rw [TypeExpr.words]
        split
        · exact hwhole.parenthesized.array span
        · rename_i hopen
          exact (hhead (Bool.eq_false_iff.2 hopen)).array span
      exact of_head hne harray
  | @function params result span hp hr ihp ihr =>
    cases hflat with
    | function hflatp hflatr =>
      have hmember : ReadMember (.function params result span) :=
        reads_function span hp (fun p hmem => (ihp p hmem (hflatp p hmem) (hp p hmem).words_ne_nil).1)
          fun r hmem => (ihr r hmem (hflatr r hmem) (hr r hmem).words_ne_nil).1
      exact ⟨hmember.whole hne, fun _ => hmember, by rintro ⟨⟩⟩

end Parser

end Sable
