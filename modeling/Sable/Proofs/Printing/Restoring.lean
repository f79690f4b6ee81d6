import Sable.Proofs.Printing.Binding

/-!
# Formulas read back from their words

`Parser.Binds` for the words of every formula on its own level, and in parentheses on the tightest, by
induction on the formula.
-/

namespace Sable

open Sable.Parser

theorem BinaryOp.continues?_sign (op : BinaryOp) :
    (Kind.symbol op.sign).continues? = some op.level := by
  cases op <;> rfl

/-- Every operator but the power sign stands in the tier of its level. -/
theorem BinaryOp.lookup_sign {op : BinaryOp} (h : op ≠ .pow) : ∃ i < 6, op.level = i + 1 ∧
    (BinaryOp.tiers.getD i []).lookup (.symbol op.sign) = some op := by
  refine ⟨op.level - 1, ?_⟩
  cases op <;> first | exact absurd rfl h | exact ⟨by decide, rfl, rfl⟩

theorem Expr.isTarget_of_formula? {e : Expr} {p : Place} (h : e.formula? = some (.place p)) :
    e.isTarget := by
  cases e with
  | var | field | index | stray => rfl
  | assign target value =>
    rw [formula?] at h
    obtain ⟨t, -, h⟩ := Option.bind_eq_some_iff.1 h
    cases t with
    | place => simp [Option.bind_eq_some_iff] at h
    | _ => cases h
  | _ => simp [formula?, Option.bind_eq_some_iff] at h

namespace Parser

/-! ### Names -/

section Names

variable {c : Cursor}

theorem mem_of_kindAt {n : Nat} {k : Kind} (h : c.kindAt n = k) (hk : k ≠ .endOfFile) :
    ∃ t ∈ c.rest, t.kind = k := by
  unfold Cursor.kindAt at h
  cases ht : c.rest[n]?.orElse fun _ => c.rest.getLast? with
  | none =>
    rw [ht] at h
    exact absurd h.symm hk
  | some t =>
    rw [ht] at h
    refine ⟨t, ?_, h⟩
    cases hn : c.rest[n]? with
    | some u =>
      rw [hn] at ht
      cases ht
      exact List.mem_of_getElem? hn
    | none =>
      rw [hn] at ht
      exact List.mem_of_getLast? ht

theorem genericHead_brace {b : Nat} {c' : Cursor} {head : Name × List TypeExpr}
    (h : genericHead b c = .ok (head, c')) : c'.here.kind = .symbol .openBrace := by
  obtain ⟨name, c1, -, h⟩ := bind_eq_ok.1 h
  obtain ⟨_, c2, -, h⟩ := bind_eq_ok.1 h
  obtain ⟨args, c3, -, h⟩ := bind_eq_ok.1 h
  obtain ⟨_, c4, -, h⟩ := bind_eq_ok.1 h
  rw [kind_bind, ite_run] at h
  split at h
  · cases h
    assumption
  · cases h

/-- A bracket behind a name compares if no brace is ahead. -/
theorem genericHead?_braceless (hc : ∀ t ∈ c.rest, t.kind ≠ .symbol .openBrace) (b : Nat) :
    genericHead? b c = .ok (none, c) := by
  unfold genericHead?
  cases hhead : genericHead b c with
  | error e => rfl
  | ok x =>
    have hbrace := genericHead_brace hhead
    have hsuffix := Reads.suffix (advances_genericHead b c) hhead
    have hmem : x.2.here ∈ x.2.rest := by
      rw [Cursor.rest_eq_of_kind hbrace (by decide)]
      exact List.mem_cons_self
    exact absurd hbrace (hc _ (hsuffix.subset hmem))

theorem named_braceless {nested : Bool → Parser Expr} (hk : c.here.kind = .identifier)
    (hc : ∀ t ∈ c.rest, t.kind ≠ .symbol .openBrace) (b : Nat) :
    named nested b true c = .ok (.var c.here.name, c.advance) := by
  have hsecond : c.kindAt 1 ≠ .symbol .openBrace := fun h => by
    obtain ⟨t, ht, hbrace⟩ := mem_of_kindAt h (by decide)
    exact hc t ht hbrace
  have hname : plainName nested b true (c.kindAt 1) c = .ok (.var c.here.name, c.advance) := by
    rw [plainName, identifier_bind, if_pos hk, if_neg fun h => hsecond h.2]
    rfl
  rw [named, kindAt_bind]
  by_cases hless : c.kindAt 1 = .symbol .less
  · rw [if_pos ⟨rfl, hless⟩, bind_of_ok (genericHead?_braceless hc b)]
    exact hname
  · rw [if_neg fun h => hless h.2]
    exact hname

end Names

/-! ### Operands -/

section Operands

variable {line : Nat} {reader : TextReader} {words : List Word} {f : Formula}

theorem AssignedAs.nested (h : AssignedAs line reader words f) (hne : words ≠ []) {b : Nat}
    {c : Cursor} {rest : List Token} (hc : Faces line words rest c) (hb : c.rest.length ≤ b)
    (hrest : (front rest).Ends 0) : Restores line (expression reader b true) c f rest := by
  have hlength := hc.length
  have hpos := List.length_pos_iff.2 hne
  cases b with
  | zero => omega
  | succ b => exact h b c rest hc hb hrest

theorem chained_of_primary (hne : words ≠ [])
    (h : ∀ b c rest, Faces line words rest c → c.rest.length ≤ b + 1 →
      UnaryOp.ofKind? c.here.kind = none ∧
        Restores line (primary reader (expression reader b) b true) c f rest) :
    Chained line reader words f := by
  intro b c rest hc hb
  obtain ⟨hsign, e, last, hread, hf, hlast⟩ := h b c rest hc hb
  have hlength := hc.length
  have hpos := List.length_pos_iff.2 hne
  exact ⟨hsign, b, e, last, by omega, bind_of_ok hread, hf, hlast⟩

theorem chained_name (text : String) :
    Chained line reader [(.identifier, text)] (.place (.name text)) := by
  refine chained_of_primary nofun fun b c rest hc hb => ?_
  have hk : c.here.kind = .identifier := hc.kind
  have htext : c.here.text = text := congrArg Prod.snd hc.here.1
  obtain ⟨hend, hlast, -⟩ := hc.advance nofun
  refine ⟨by rw [hk]; rfl, .var c.here.name, c.advance.last, ?_, ?_, hlast⟩
  · rw [primary, peek_bind, hk]
    show named _ _ _ c = _
    rw [named_braceless hk hc.braceless, ← hend.eq_of_nil]
  · rw [← htext]
    rfl

theorem chained_number (d : Number.Decimal) :
    Chained line reader [(.number, d.text)] (.number d) := by
  refine chained_of_primary nofun fun b c rest hc hb => ?_
  have hk : c.here.kind = .number := hc.kind
  have htext : c.here.text = d.text := congrArg Prod.snd hc.here.1
  obtain ⟨hend, hlast, -⟩ := hc.advance nofun
  refine ⟨by rw [hk]; rfl, .number d c.here.span, c.advance.last, ?_, rfl, hlast⟩
  rw [primary, peek_bind, hk]
  dsimp only
  rw [next_bind, htext, d.ofText?_text, ← hend.eq_of_nil]
  rfl

theorem AssignedAs.parenthesized (h : AssignedAs line reader words f) (hne : words ≠ []) :
    Chained line reader (parenthesized words) f := by
  refine chained_of_primary nofun fun b c rest hc hb => ?_
  have hk : c.here.kind = .symbol .openParen := hc.kind
  obtain ⟨mid, hwords, hmid, hlength, hclose⟩ := hc.enclosed
  obtain ⟨e, last, hread, hf, -⟩ :=
    h.nested (b := b) hne hwords (by omega) (.of_none (by rw [hmid]; rfl))
  obtain ⟨hkind, stop, hend, hlast⟩ := hclose last
  refine ⟨by rw [hk]; rfl, e, stop, ?_, hf, hlast⟩
  rw [primary, peek_bind, hk]
  dsimp only
  rw [next_bind, bind_of_ok hread, expect_bind, if_pos hkind, hend]
  rfl

/-! ### Lists -/

/-- A list of formulas is read up to a token that closes it. -/
theorem listUntil_restores {close : Kind} (hnone : close.continues? = none)
    (hstart : close ∉ Formula.starts) (hcomma : close ≠ .symbol .comma) {b : Nat} :
    ∀ {fs : List Formula}, (∀ g ∈ fs, AssignedAs line reader g.words g) →
      ∀ {k : Nat} {c : Cursor} {rest : List Token}, Faces line (Formula.listWords fs) rest c →
      front rest = close → c.rest.length ≤ b → c.rest.length ≤ k →
      ∃ es last, listUntil close (expression reader b true) k c = .ok (es, ⟨last, rest⟩) ∧
        Expr.formulas? es = some fs
  | [], _, k, c, rest, hc, hrest, _, _ => by
    have hend : c.rest = rest := hc.nil
    refine ⟨[], c.last, ?_, rfl⟩
    cases k with
    | zero => rw [← hend]; rfl
    | succ k =>
      rw [listUntil, kind_bind, Cursor.here_kind, hend, if_pos hrest, ← hend]
      rfl
  | g :: fs, hg, k, c, rest, hc, hrest, hb, hk => by
    have hne : g.words ≠ [] := g.starts_words.ne_nil
    have hpos := List.length_pos_iff.2 hne
    cases fs with
    | nil =>
      have hlength : c.rest.length = g.words.length + rest.length := hc.length
      have hfirst : c.here.kind ≠ close := fun he => hstart (he ▸ hc.starts g.starts_words)
      obtain ⟨e, last, hread, hf, -⟩ :=
        (hg g List.mem_cons_self).nested hne hc hb (.of_none (by rw [hrest]; exact hnone))
      refine ⟨[e], last, ?_, by rw [Expr.formulas?, hf]; rfl⟩
      cases k with
      | zero => omega
      | succ k =>
        rw [listUntil, kind_bind, if_neg hfirst, bind_of_ok hread, accept_bind, if_neg]
        · rfl
        · rw [Cursor.here_kind, hrest]
          exact hcomma
    | cons h fs =>
      obtain ⟨mid, hwords, hmid, hothers⟩ := hc.parted
      have hlength := hwords.length
      have hfirst : c.here.kind ≠ close := fun he => hstart (he ▸ hwords.starts g.starts_words)
      obtain ⟨e, last, hread, hf, -⟩ :=
        (hg g List.mem_cons_self).nested hne hwords hb (.of_none (by rw [hmid]; rfl))
      obtain ⟨hsep, hmore, -, hlength'⟩ := hothers last
      cases k with
      | zero => omega
      | succ k =>
        obtain ⟨es, last', hread', hfs⟩ := listUntil_restores (b := b) (k := k) hnone hstart hcomma
          (fun g hmem => hg g (List.mem_cons_of_mem _ hmem)) hmore hrest (by omega) (by omega)
        refine ⟨e :: es, last', ?_, by rw [Expr.formulas?, hf, hfs]; rfl⟩
        rw [listUntil, kind_bind, if_neg hfirst, bind_of_ok hread, accept_bind, if_pos hsep,
          if_pos rfl, bind_of_ok hread']
        rfl

theorem chained_array {elements : List Formula}
    (h : ∀ g ∈ elements, AssignedAs line reader g.words g) :
    Chained line reader (Formula.array elements).words (.array elements) := by
  refine chained_of_primary nofun fun b c rest hc hb => ?_
  have hk : c.here.kind = .symbol .openBracket := hc.kind
  obtain ⟨mid, hwords, hmid, hlength, hclose⟩ := hc.enclosed
  obtain ⟨es, last, hread, hfs⟩ := listUntil_restores (b := b) (k := b) rfl (by decide) (by decide)
    h hwords hmid (by omega) (by omega)
  obtain ⟨hkind, stop, hend, hlast⟩ := hclose last
  refine ⟨by rw [hk]; rfl, .array es (c.here.span.upTo (Cursor.here ⟨last, mid⟩).span), stop, ?_,
    by rw [Expr.formula?, hfs]; rfl, hlast⟩
  rw [primary, peek_bind, hk]
  dsimp only
  rw [next_bind, bind_of_ok hread, expect_bind, if_pos hkind, hend]
  rfl

end Operands

/-! ### Links -/

section Links

variable {line : Nat} {reader : TextReader} {words more : List Word} {f g : Formula}

/-- A chain goes on with whatever link comes behind its head. -/
theorem Chained.link (h : Chained line reader words f) {tail : List Word} {s : Symbol}
    (hlink : ∀ b k e c rest, Faces line (s.word :: tail) rest c → c.last.stop.line = line →
      c.rest.length ≤ b → c.rest.length ≤ k + 1 → e.formula? = some f →
      ∃ e' last, members (expression reader b) (k + 1) e c =
          members (expression reader b) k e' ⟨last, rest⟩ ∧
        e'.formula? = some g ∧ last.stop.line = line)
    (hne : words ≠ []) : Chained line reader (words ++ s.word :: tail) g := by
  intro b c rest hc hb
  obtain ⟨mid, hhead, htail⟩ := hc.append
  have hpos := List.length_pos_iff.2 hne
  have hlength := hhead.length
  obtain ⟨hsign, k, e, last, hk, hchain, hf, hlast⟩ := h b c mid hhead hb
  have hmid : mid.length = (s.word :: tail).length + rest.length := (htail last).length
  rw [List.length_cons] at hmid
  cases k with
  | zero => omega
  | succ k =>
    obtain ⟨e', last', hnext, hg, hlast'⟩ :=
      hlink b k e ⟨last, mid⟩ rest (htail last) hlast (by show mid.length ≤ b; omega) hk hf
    exact ⟨hsign, k, e', last', by omega, hchain.trans hnext, hg, hlast'⟩

theorem Chained.field (h : Chained line reader words f) (hne : words ≠ []) (name : String) :
    Chained line reader (words ++ [Symbol.dot.word, (.identifier, name)])
      (.place (.field f name)) := by
  refine h.link (fun b k e c rest hc _ _ _ hf => ?_) hne
  obtain ⟨hname, -, -⟩ := hc.advance (by decide)
  obtain ⟨hend, hlast, -⟩ := hname.advance nofun
  have htext : c.advance.here.text = name := congrArg Prod.snd hname.here.1
  have hk : c.advance.here.kind = .identifier := hname.kind
  refine ⟨.field e c.advance.here.name (e.span.upTo c.advance.here.name.span), _, ?_, ?_, hlast⟩
  · rw [members, accept_bind, if_pos hc.symbol, if_pos rfl, identifier_bind, if_pos hk,
      ← hend.eq_of_nil]
  · rw [Expr.formula?, hf, ← htext]
    rfl

theorem Chained.index (h : Chained line reader words f) (hne : words ≠ [])
    (hkey : AssignedAs line reader more g) (hne' : more ≠ []) :
    Chained line reader
      (words ++ Symbol.openBracket.word :: (more ++ [Symbol.closeBracket.word]))
      (.place (.index f g)) := by
  refine h.link (fun b k e c rest hc hlast hb _ hf => ?_) hne
  obtain ⟨mid, hwords, hmid, hlength, hclose⟩ := hc.enclosed
  obtain ⟨key, last, hread, hg, -⟩ :=
    hkey.nested (b := b) hne' hwords (by omega) (.of_none (by rw [hmid]; rfl))
  obtain ⟨hkind, stop, hend, hstop⟩ := hclose last
  have hopen : c.here.kind = .symbol .openBracket := hc.symbol
  have hdot : c.here.kind ≠ .symbol .dot := by rw [hopen]; decide
  have hline := hc.onSameLine hlast
  refine ⟨.index e key (e.span.upTo (Cursor.here ⟨last, mid⟩).span), stop, ?_, ?_, hstop⟩
  · rw [members, accept_bind, if_neg hdot, if_neg Bool.false_ne_true, kind_bind, onSameLine_bind,
      if_pos ⟨hopen, hline⟩, next_bind, bind_of_ok hread, expect_bind, if_pos hkind, hend]
  · rw [Expr.formula?, hf, hg]
    rfl

theorem Chained.call (h : Chained line reader words f) (hne : words ≠ []) {args : List Formula}
    (hargs : ∀ g ∈ args, AssignedAs line reader g.words g) :
    Chained line reader
      (words ++ Symbol.openParen.word :: (Formula.listWords args ++ [Symbol.closeParen.word]))
      (.call f args) := by
  refine h.link (fun b k e c rest hc hlast hb hk hf => ?_) hne
  obtain ⟨mid, hwords, hmid, hlength, hclose⟩ := hc.enclosed
  obtain ⟨es, last, hread, hfs⟩ := listUntil_restores (b := b) (k := k) rfl (by decide) (by decide)
    hargs hwords hmid (by omega) (by omega)
  obtain ⟨hkind, stop, hend, hstop⟩ := hclose last
  have hopen : c.here.kind = .symbol .openParen := hc.symbol
  have hdot : c.here.kind ≠ .symbol .dot := by rw [hopen]; decide
  have hbracket : c.here.kind ≠ .symbol .openBracket := by rw [hopen]; decide
  have hline := hc.onSameLine hlast
  refine ⟨.call e es (e.span.upTo (Cursor.here ⟨last, mid⟩).span), stop, ?_, ?_, hstop⟩
  · rw [members, accept_bind, if_neg hdot, if_neg Bool.false_ne_true, kind_bind, onSameLine_bind,
      if_neg fun h => hbracket h.1, kind_bind, onSameLine_bind, if_pos ⟨hopen, hline⟩, next_bind,
      bind_of_ok hread, expect_bind, if_pos hkind, hend]
  · rw [Expr.formula?, hf, hfs]
    rfl

/-! ### Operators -/

theorem SignedAs.unary (h : SignedAs line reader words f) (hne : words ≠ []) (op : UnaryOp) :
    SignedAs line reader (op.sign.word :: words) (.unary op f) := by
  intro b k c rest hc hb hk hrest
  have hsign : UnaryOp.ofKind? c.here.kind = some op := by
    rw [hc.symbol]
    cases op <;> rfl
  have hpos := List.length_pos_iff.2 hne
  obtain ⟨hinner, -, hlength⟩ := hc.advance nofun
  have hlength' := hinner.length
  cases k with
  | zero => omega
  | succ k =>
    obtain ⟨e, last, hread, hf, hlast⟩ := h b k c.advance rest hinner (by omega) (by omega) hrest
    refine ⟨.unary op e (c.here.span.upTo e.span), last, ?_, by rw [Expr.formula?, hf]; rfl, hlast⟩
    rw [signed, kind_bind, hsign]
    dsimp only
    rw [next_bind, bind_of_ok hread]
    rfl

theorem SignedAs.power (hleft : SignedAs line reader words f) (hne : words ≠ [])
    (hright : PoweredAs line reader more g) :
    PoweredAs line reader (words ++ Symbol.power.word :: more) (.binary .pow f g) := by
  intro b k c rest hc hb hk hrest
  obtain ⟨mid, hwords, hmid, hothers⟩ := hc.parted
  have hpos := List.length_pos_iff.2 hne
  have hlength := hwords.length
  have hends : (front mid).Ends 9 := by
    rw [hmid]
    rintro l ⟨⟩
    decide
  obtain ⟨e, last, hread, hf, -⟩ := hleft b b c mid hwords hb hb hends
  obtain ⟨hsign, hmore, -, hlength'⟩ := hothers last
  cases k with
  | zero => omega
  | succ k =>
    obtain ⟨e', last', hread', hg, hlast⟩ :=
      hright b k _ rest hmore (by omega) (by omega) hrest
    refine ⟨.binary .pow e e', last', ?_, by rw [Expr.formula?, hf, hg]; rfl, hlast⟩
    rw [powers, bind_of_ok hread, accept_bind, if_pos hsign, if_pos rfl, bind_of_ok hread']
    rfl

theorem Tiered.binary {i : Nat} (hi : i < 6) {op : BinaryOp} (hlevel : op.level = i + 1)
    (hop : (BinaryOp.tiers.getD i []).lookup (.symbol op.sign) = some op)
    (hleft : Tiered line reader i words f) (hright : Binds line reader (i + 2) more g) :
    Tiered line reader i (words ++ op.sign.word :: more) (.binary op f g) := by
  intro b c rest hc hb hrest
  obtain ⟨mid, hwords, hmid, hothers⟩ := hc.parted
  have hlength := hwords.length
  have hends : (front mid).Ends (i + 2) := by
    intro l hl
    rw [hmid, op.continues?_sign, hlevel] at hl
    cases hl
    exact Nat.lt_succ_self _
  obtain ⟨k, e, last, hk, hread, hf, -⟩ := hleft b c mid hwords hb hends
  obtain ⟨hsign, hmore, -, hlength'⟩ := hothers last
  have hmore' := hmore.length
  obtain ⟨e', last', hread', hg, hlast⟩ :=
    hright.restores (b := b) (by omega) hmore (by omega) hrest
  cases k with
  | zero => omega
  | succ k =>
    refine ⟨k, .binary op e e', last', by omega, ?_, by rw [Expr.formula?, hf, hg]; rfl, hlast⟩
    rw [hread, tierTail, kind_bind, hsign, hop]
    dsimp only
    rw [next_bind, bind_of_ok hread']

theorem Chained.assign {p : Place} (h : Chained line reader words (.place p)) (hne : words ≠ [])
    (hvalue : AssignedAs line reader more g) (hne' : more ≠ []) :
    AssignedAs line reader (words ++ Symbol.equals.word :: more) (.assign p g) := by
  intro b c rest hc hb hrest
  obtain ⟨mid, hwords, hmid, hothers⟩ := hc.parted
  have hlength := hwords.length
  have hends : (front mid).Ends 1 := by
    rw [hmid]
    rintro l ⟨⟩
    decide
  obtain ⟨e, last, hread, hf, -⟩ :=
    ((h.binds hne).mono (by decide)).restores (Nat.zero_le 6) hwords hb hends
  obtain ⟨hsign, hmore, -, hlength'⟩ := hothers last
  obtain ⟨e', last', hread', hg, hlast⟩ := hvalue.nested (b := b) hne' hmore (by omega) hrest
  refine ⟨.assign e e', last', ?_, by rw [Expr.formula?, hf, hg]; rfl, hlast⟩
  have hassign : assignmentOf? (Cursor.here ⟨last, mid⟩).kind = some none := by
    rw [hsign]
    rfl
  rw [expression, assignment, ← tiersFrom_first, bind_of_ok hread, kind_bind, hassign]
  dsimp only
  rw [next_bind, if_pos (Expr.isTarget_of_formula? hf), bind_of_ok hread']
  rfl

end Links

/-! ### Formulas -/

section Formulas

variable {line : Nat} {reader : TextReader} {f : Formula}

/-- A part of a formula is read in the position that it was written for. -/
theorem Binds.atLevel (h : Binds line reader f.level f.words f) (required : Nat)
    (hle : required ≤ 9) :
    Binds line reader required (atLevel required f.level f.words) f := by
  unfold Sable.atLevel
  split
  · have hne := f.starts_words.ne_nil
    have hparen := (h.assigned.parenthesized hne).binds (starts_parenthesized f.words).ne_nil
    exact hparen.mono hle
  · exact h.mono (Nat.le_of_not_lt ‹_›)

theorem Binds.chainedAtLevel (h : Binds line reader f.level f.words f) :
    Chained line reader (Sable.atLevel 9 f.level f.words) f :=
  (h.atLevel 9 (Nat.le_refl 9)).chained (Nat.le_refl 9)

theorem binds_binary {op : BinaryOp} {left right : Formula}
    (hleft : Binds line reader left.level left.words left)
    (hright : Binds line reader right.level right.words right) :
    Binds line reader op.level (Formula.binary op left right).words (.binary op left right) := by
  have hne := (left.starts_words.atLevel op.leftLevel left.level).ne_nil
  have hstarts := (Formula.binary op left right).starts_words.ne_nil
  by_cases hop : op = .pow
  · subst hop
    have hleft := (hleft.atLevel 8 (by decide)).signed (Nat.le_refl 8)
    have hright := (hright.atLevel 7 (by decide)).powered (Nat.le_refl 7)
    exact (hleft.power hne hright).binds hstarts
  · obtain ⟨i, hi, hlevel, hlookup⟩ := op.lookup_sign hop
    have hl : op.leftLevel = i + 1 := by rw [BinaryOp.leftLevel, if_neg hop, hlevel]
    have hr : op.rightLevel = i + 2 := by rw [BinaryOp.rightLevel, if_neg hop, hlevel]
    rw [hlevel]
    refine Tiered.binds hstarts hi ?_
    rw [Formula.words, hl, hr]
    exact .binary hi hlevel hlookup ((hleft.atLevel _ (by omega)).tiered i hi (Nat.le_refl _))
      (hright.atLevel _ (by omega))

mutual

theorem chained_place : ∀ p : Place, Chained line reader p.words (.place p)
  | .name text => chained_name text
  | .field owner name =>
    (formula_binds owner).chainedAtLevel.field (owner.starts_words.atLevel _ _).ne_nil name
  | .index owner key =>
    (formula_binds owner).chainedAtLevel.index (owner.starts_words.atLevel _ _).ne_nil
      (formula_binds key).assigned key.starts_words.ne_nil

theorem formula_binds : ∀ f : Formula, Binds line reader f.level f.words f
  | .place p => (chained_place p).binds p.starts_words.ne_nil
  | .number d => (chained_number d).binds nofun
  | .array elements => (chained_array (formulas_assigned elements)).binds nofun
  | .call callee args =>
    have hne := (callee.starts_words.atLevel 9 callee.level).ne_nil
    ((formula_binds callee).chainedAtLevel.call hne (formulas_assigned args)).binds
      (Formula.call callee args).starts_words.ne_nil
  | .unary op operand =>
    have hoperand := ((formula_binds operand).atLevel 8 (by decide)).signed (Nat.le_refl 8)
    (hoperand.unary (operand.starts_words.atLevel _ _).ne_nil op).binds nofun
  | .binary _ left right => binds_binary (formula_binds left) (formula_binds right)
  | .assign target value =>
    ((chained_place target).assign target.starts_words.ne_nil (formula_binds value).assigned
      value.starts_words.ne_nil).binds

theorem formulas_assigned : ∀ fs : List Formula, ∀ g ∈ fs, AssignedAs line reader g.words g
  | [] => nofun
  | f :: fs => List.forall_mem_cons.2 ⟨(formula_binds f).assigned, formulas_assigned fs⟩

end

end Formulas

end Parser

/-! ### Whole expressions -/

theorem Braceless.of_mem {words : List Word} {tokens : List Token} (h : Braceless words)
    (hwords : tokens.map Token.word = words) :
    ∀ t ∈ tokens, t.kind ≠ .endOfFile ∧ t.kind ≠ .symbol .openBrace :=
  fun _ ht => h _ (hwords ▸ List.mem_map_of_mem ht)

/-- The end of the file stands behind tokens that do not hold it, whether it was given or not. -/
theorem Cursor.ofTokens_rest {tokens ending : List Token} (hne : tokens ≠ [])
    (htokens : ∀ t ∈ tokens, t.kind ≠ .endOfFile)
    (hending : ending = [] ∨ ∃ t : Token, t.kind = .endOfFile ∧ ending = [t]) :
    ∃ last, last.kind = .endOfFile ∧ (ofTokens (tokens ++ ending)).rest = tokens ++ [last] := by
  rcases hending with rfl | ⟨t, ht, rfl⟩
  · have hlast := List.getLast?_eq_some_getLast hne
    refine ⟨.endOfFile (tokens.getLast hne).span, rfl, ?_⟩
    rw [List.append_nil, ofTokens, hlast]
    dsimp only
    rw [if_neg (htokens _ (List.getLast_mem hne))]
  · refine ⟨t, ht, ?_⟩
    rw [ofTokens, List.getLast?_concat]
    dsimp only
    rw [if_pos ht]

/-- Expressions are read back as they were written: the tokens of a formula, on one line and with
the end of the file behind them or without it, are read as an expression with that formula. -/
theorem Expr.ofTokens_restores (f : Formula) (line : Nat) {tokens ending : List Token}
    (hwords : tokens.map Token.word = f.words)
    (hline : ∀ t ∈ tokens, t.span.start.line = line ∧ t.span.stop.line = line)
    (hending : ending = [] ∨ ∃ t : Token, t.kind = .endOfFile ∧ ending = [t]) :
    ∃ e, Expr.ofTokens (tokens ++ ending) = .ok e ∧ e.formula? = some f := by
  have hinner := f.braceless.of_mem hwords
  have hne : tokens ≠ [] := by
    rintro rfl
    exact f.starts_words.ne_nil hwords.symm
  obtain ⟨last, hlast, hrest⟩ := Cursor.ofTokens_rest hne (fun t ht => (hinner t ht).1) hending
  have hfaces : Faces line f.words [last] (Cursor.ofTokens (tokens ++ ending)) := by
    refine ⟨⟨tokens, hrest, hwords, hline⟩, ?_⟩
    rw [hrest, List.forall_mem_append, List.forall_mem_singleton, hlast]
    exact ⟨fun t ht => (hinner t ht).2, nofun⟩
  have hlength : (Cursor.ofTokens (tokens ++ ending)).rest.length = tokens.length + 1 := by
    rw [hrest, List.length_append, List.length_singleton]
  have hfront : front [last] = .endOfFile := hlast
  obtain ⟨e, stop, hread, hf, -⟩ := (formula_binds f).assigned tokens.length _ [last] hfaces
    (Nat.le_of_eq hlength) (.of_none (by rw [hfront]; rfl))
  refine ⟨e, ?_, hf⟩
  rw [Expr.ofTokens, hlength, wholeExpression, bind_of_ok hread, kind_bind, Cursor.here_kind,
    if_pos hfront]
  rfl

/-- `x[-a ** 2] = b - (c - (d ** e) ** f) * !g(h < i, j > (k = 0.5)).l` -/
def entangled : Formula :=
  .assign
    (.index (.place (.name "x"))
      (.binary .pow (.unary .negate (.place (.name "a"))) (.number ⟨2, 0⟩)))
    (.binary .sub (.place (.name "b"))
      (.binary .mul
        (.binary .sub (.place (.name "c"))
          (.binary .pow (.binary .pow (.place (.name "d")) (.place (.name "e")))
            (.place (.name "f"))))
        (.unary .not (.place (.field
          (.call (.place (.name "g"))
            [.binary .lt (.place (.name "h")) (.place (.name "i")),
              .binary .gt (.place (.name "j")) (.assign (.name "k") (.number ⟨5, 1⟩))])
          "l")))))

/-- Tokens for words, all in one place. -/
def Word.token (w : Word) : Token :=
  ⟨w.1, w.2, .nowhere⟩

example : entangled.words.map Prod.snd =
    ["x", "[", "-", "a", "**", "2", "]", "=", "b", "-", "(", "c", "-", "(", "d", "**", "e", ")",
      "**", "f", ")", "*", "!", "g", "(", "h", "<", "i", ",", "j", ">", "(", "k", "=", "0.5", ")",
      ")", ".", "l"] := by
  decide

theorem entangled_restored :
    (entangled.words.map Word.token).map Token.word = entangled.words ∧
      (∀ t ∈ entangled.words.map Word.token, t.span.start.line = 0 ∧ t.span.stop.line = 0) ∧
      ∃ e, Expr.ofTokens (entangled.words.map Word.token ++ []) = .ok e ∧
        e.formula? = some entangled := by
  have hwords : (entangled.words.map Word.token).map Token.word = entangled.words := by
    rw [List.map_map]
    exact List.map_id _
  have hline : ∀ t ∈ entangled.words.map Word.token,
      t.span.start.line = 0 ∧ t.span.stop.line = 0 := by
    intro t ht
    obtain ⟨w, -, rfl⟩ := List.mem_map.1 ht
    exact ⟨rfl, rfl⟩
  exact ⟨hwords, hline, Expr.ofTokens_restores entangled 0 hwords hline (.inl rfl)⟩

end Sable
