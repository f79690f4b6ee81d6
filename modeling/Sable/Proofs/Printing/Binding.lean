import Sable.Proofs.Printing.Formulas
import Sable.Proofs.Printing.Levels

/-!
# Words in a position

`Parser.Binds`: words are read as a formula in every position that asks for a level up to the given one.
`Chained` and `Tiered`: they are read as the head of a chain of members or of operators of a tier,
whatever links follow.
-/

namespace Sable

open Sable.Parser

/-- The kind of the token in front. -/
def front (rest : List Token) : Kind :=
  (rest.headD (.endOfFile .nowhere)).kind

theorem Cursor.here_kind (c : Cursor) : c.here.kind = front c.rest := by
  obtain ⟨last, rest⟩ := c
  cases rest <;> rfl

/-- The tokens in front of `c` are these words on one line, and then `rest`. No brace is ahead, so
that no struct is. -/
structure Faces (line : Nat) (words : List Word) (rest : List Token) (c : Cursor) : Prop where
  tokens : ∃ ts, c.rest = ts ++ rest ∧ ts.map Token.word = words ∧
    ∀ t ∈ ts, t.span.start.line = line ∧ t.span.stop.line = line
  braceless : ∀ t ∈ c.rest, t.kind ≠ .symbol .openBrace

namespace Faces

variable {line : Nat} {w : Word} {words more : List Word} {rest : List Token} {c : Cursor}

theorem nil (h : Faces line [] rest c) : c.rest = rest := by
  obtain ⟨ts, hts, hwords, -⟩ := h.tokens
  rw [hts, List.map_eq_nil_iff.1 hwords, List.nil_append]

theorem eq_of_nil (h : Faces line [] rest c) : c = ⟨c.last, rest⟩ := by
  rw [← h.nil]

theorem length (h : Faces line words rest c) : c.rest.length = words.length + rest.length := by
  obtain ⟨ts, hts, rfl, -⟩ := h.tokens
  rw [hts, List.length_append, List.length_map]

theorem here (h : Faces line (w :: words) rest c) : c.here.word = w ∧
    c.here.span.start.line = line ∧ c.here.span.stop.line = line := by
  obtain ⟨ts, hts, hwords, hline⟩ := h.tokens
  obtain ⟨t, ts, rfl, rfl, -⟩ := List.map_eq_cons_iff.1 hwords
  have hhere : c.here = t := by rw [Cursor.here, hts]; rfl
  rw [hhere]
  exact ⟨rfl, hline t List.mem_cons_self⟩

theorem kind (h : Faces line (w :: words) rest c) : c.here.kind = w.1 := by
  rw [← h.here.1]
  rfl

theorem symbol {s : Symbol} (h : Faces line (s.word :: words) rest c) :
    c.here.kind = .symbol s :=
  h.kind

theorem front_rest (h : Faces line (w :: words) rest c) : front c.rest = w.1 := by
  rw [← Cursor.here_kind, h.kind]

theorem starts (h : Faces line words rest c) (hs : Starts words) :
    c.here.kind ∈ Formula.starts := by
  obtain ⟨w, ws, rfl, hw⟩ := hs
  rw [h.kind]
  exact hw

theorem advance (h : Faces line (w :: words) rest c) (hw : w.1 ≠ .endOfFile) :
    Faces line words rest c.advance ∧ c.advance.last.stop.line = line ∧
      c.rest.length = c.advance.rest.length + 1 := by
  have hrest := Cursor.rest_eq_of_kind h.kind hw
  have hlast : c.advance.last = c.here.span := by
    rw [Cursor.advance, if_neg (by rw [h.kind]; exact hw)]
  refine ⟨⟨?_, fun t ht => h.braceless t ?_⟩, by rw [hlast]; exact h.here.2.2, by rw [hrest]; rfl⟩
  · obtain ⟨ts, hts, hwords, hline⟩ := h.tokens
    obtain ⟨t, ts, rfl, -, hwords⟩ := List.map_eq_cons_iff.1 hwords
    rw [hrest, List.cons_append] at hts
    exact ⟨ts, (List.cons.inj hts).2, hwords, fun t ht => hline t (List.mem_cons_of_mem _ ht)⟩
  · rw [hrest]
    exact List.mem_cons_of_mem _ ht

theorem append (h : Faces line (words ++ more) rest c) :
    ∃ mid, Faces line words mid c ∧ ∀ last, Faces line more rest ⟨last, mid⟩ := by
  obtain ⟨ts, hts, hwords, hline⟩ := h.tokens
  obtain ⟨front, back, rfl, hfront, hback⟩ := List.map_eq_append_iff.1 hwords
  rw [List.append_assoc] at hts
  refine ⟨back ++ rest, ⟨⟨front, hts, hfront, ?_⟩, h.braceless⟩, fun last =>
    ⟨⟨back, rfl, hback, ?_⟩, fun t ht => h.braceless t ?_⟩⟩
  · exact fun t ht => hline t (List.mem_append_left _ ht)
  · exact fun t ht => hline t (List.mem_append_right _ ht)
  · rw [hts]
    exact List.mem_append_right _ ht

theorem onSameLine (h : Faces line (w :: words) rest c) (hlast : c.last.stop.line = line) :
    c.onSameLine = true := by
  rw [Cursor.onSameLine, hlast, h.here.2.1]
  exact beq_self_eq_true line

/-- Words, a symbol behind them, and more words behind the symbol. -/
theorem parted {s : Symbol} (h : Faces line (words ++ s.word :: more) rest c) :
    ∃ mid, Faces line words mid c ∧ front mid = .symbol s ∧
      ∀ last, (Cursor.here ⟨last, mid⟩).kind = .symbol s ∧
        Faces line more rest (Cursor.advance ⟨last, mid⟩) ∧
        (Cursor.advance ⟨last, mid⟩).last.stop.line = line ∧
        (Cursor.advance ⟨last, mid⟩).rest.length + 1 = mid.length := by
  obtain ⟨mid, hwords, hothers⟩ := h.append
  refine ⟨mid, hwords, (hothers c.last).front_rest, fun last => ?_⟩
  obtain ⟨hmore, hlast, hlength⟩ := (hothers last).advance nofun
  exact ⟨(hothers last).symbol, hmore, hlast, hlength.symm⟩

/-- Words between two brackets. -/
theorem enclosed {opening closing : Symbol}
    (h : Faces line (opening.word :: (words ++ [closing.word])) rest c) :
    ∃ mid, Faces line words mid c.advance ∧ front mid = .symbol closing ∧
      c.rest.length = c.advance.rest.length + 1 ∧
      ∀ last, (Cursor.here ⟨last, mid⟩).kind = .symbol closing ∧
        ∃ stop, Cursor.advance ⟨last, mid⟩ = ⟨stop, rest⟩ ∧ stop.stop.line = line := by
  obtain ⟨hinner, -, hlength⟩ := h.advance nofun
  obtain ⟨mid, hwords, hfront, hclose⟩ := hinner.parted
  refine ⟨mid, hwords, hfront, hlength, fun last => ?_⟩
  obtain ⟨hkind, hend, hlast, -⟩ := hclose last
  exact ⟨hkind, _, hend.eq_of_nil, hlast⟩

end Faces

theorem bind_of_ok {σ ε α β : Type} {p : StateT σ (Except ε) α} {f : α → StateT σ (Except ε) β}
    {s t : σ} {a : α} (h : p s = .ok (a, t)) : (p >>= f) s = f a t := by
  show (p s >>= fun x => f x.1 x.2) = f a t
  rw [h]
  rfl

namespace Parser

/-! ### Levels -/

section Levels

variable (line : Nat) (reader : TextReader)

/-- A primary expression with its members. -/
def chain (b : Nat) : Parser Expr :=
  primary reader (expression reader b) b true >>= members (expression reader b) b

/-- `p` reads an expression with this formula, up to `rest`. -/
def Restores (p : Parser Expr) (c : Cursor) (f : Formula) (rest : List Token) : Prop :=
  ∃ e last, p c = .ok (e, ⟨last, rest⟩) ∧ e.formula? = some f ∧ last.stop.line = line

/-- The words are read as the head of a chain of members, whatever comes after them. -/
def Chained (words : List Word) (f : Formula) : Prop :=
  ∀ b c rest, Faces line words rest c → c.rest.length ≤ b + 1 →
    UnaryOp.ofKind? c.here.kind = none ∧ ∃ k e last, rest.length ≤ k ∧
      chain reader b c = members (expression reader b) k e ⟨last, rest⟩ ∧
      e.formula? = some f ∧ last.stop.line = line

def SignedAs (words : List Word) (f : Formula) : Prop :=
  ∀ b k c rest, Faces line words rest c → c.rest.length ≤ b + 1 → c.rest.length ≤ k + 1 →
    (front rest).Ends 9 → Restores line (signed (chain reader b) k) c f rest

def PoweredAs (words : List Word) (f : Formula) : Prop :=
  ∀ b k c rest, Faces line words rest c → c.rest.length ≤ b + 1 → c.rest.length ≤ k + 1 →
    (front rest).Ends 7 → Restores line (powers (signed (chain reader b) b) k) c f rest

/-- The words are read as the head of a chain of operators of the given tier. -/
def Tiered (i : Nat) (words : List Word) (f : Formula) : Prop :=
  ∀ b c rest, Faces line words rest c → c.rest.length ≤ b + 1 → (front rest).Ends (i + 2) →
    ∃ k e last, rest.length ≤ k ∧ tiersFrom reader (expression reader b) b true i c =
        tierTail (tiersFrom reader (expression reader b) b true (i + 1))
          (BinaryOp.tiers.getD i []) k e ⟨last, rest⟩ ∧
      e.formula? = some f ∧ last.stop.line = line

def AssignedAs (words : List Word) (f : Formula) : Prop :=
  ∀ b c rest, Faces line words rest c → c.rest.length ≤ b + 1 → (front rest).Ends 0 →
    Restores line (expression reader (b + 1) true) c f rest

/-- The words are read as the formula in every position that asks for a level up to the given
one. -/
structure Binds (level : Nat) (words : List Word) (f : Formula) : Prop where
  assigned : AssignedAs line reader words f
  tiered : ∀ i < 6, i + 1 ≤ level → Tiered line reader i words f
  powered : 7 ≤ level → PoweredAs line reader words f
  signed : 8 ≤ level → SignedAs line reader words f
  chained : 9 ≤ level → Chained line reader words f

end Levels

section Descent

variable {line : Nat} {reader : TextReader} {words : List Word} {f : Formula}

theorem Binds.mono {level level' : Nat} (h : Binds line reader level words f)
    (hle : level' ≤ level) : Binds line reader level' words f where
  assigned := h.assigned
  tiered i hi hl := h.tiered i hi (Nat.le_trans hl hle)
  powered hl := h.powered (Nat.le_trans hl hle)
  signed hl := h.signed (Nat.le_trans hl hle)
  chained hl := h.chained (Nat.le_trans hl hle)

theorem Chained.signedAs (h : Chained line reader words f) : SignedAs line reader words f := by
  intro b k c rest hc hb _ hrest
  obtain ⟨hsign, k', e, last, -, hchain, hf, hlast⟩ := h b c rest hc hb
  refine ⟨e, last, ?_, hf, hlast⟩
  rw [signed_unsigned hsign, hchain]
  exact members_ends (by rw [Cursor.here_kind]; exact hrest)

theorem SignedAs.poweredAs (h : SignedAs line reader words f) : PoweredAs line reader words f := by
  intro b k c rest hc hb _ hrest
  obtain ⟨e, last, hread, hf, hlast⟩ := h b b c rest hc hb hb (hrest.mono (by decide))
  refine ⟨e, last, powers_ends hread fun hpower => ?_, hf, hlast⟩
  rw [Cursor.here_kind] at hpower
  exact hrest.continues?_ne (Nat.le_refl 7) (by rw [hpower]; rfl)

/-- What is read from a tier on is the head of a chain of the tier before it. -/
theorem tiered_of_restores {i : Nat} (hi : i < 6) (hne : words ≠ [])
    (h : ∀ b c rest, Faces line words rest c → c.rest.length ≤ b + 1 → (front rest).Ends (i + 2) →
      Restores line (tiersFrom reader (expression reader b) b true (i + 1)) c f rest) :
    Tiered line reader i words f := by
  intro b c rest hc hb hrest
  obtain ⟨e, last, hread, hf, hlast⟩ := h b c rest hc hb hrest
  have hlength := hc.length
  have hpos := List.length_pos_iff.2 hne
  refine ⟨b, e, last, by omega, ?_, hf, hlast⟩
  rw [tiersFrom_eq hi]
  exact bind_of_ok hread

theorem PoweredAs.tiered (h : PoweredAs line reader words f) (hne : words ≠ []) :
    Tiered line reader 5 words f :=
  tiered_of_restores (by decide) hne fun b c rest hc hb hrest => h b b c rest hc hb hb hrest

theorem Tiered.restores {i : Nat} (hi : i < 6) (h : Tiered line reader i words f) {b : Nat}
    {c : Cursor} {rest : List Token} (hc : Faces line words rest c) (hb : c.rest.length ≤ b + 1)
    (hrest : (front rest).Ends (i + 1)) :
    Restores line (tiersFrom reader (expression reader b) b true i) c f rest := by
  obtain ⟨k, e, last, -, hread, hf, hlast⟩ := h b c rest hc hb (hrest.mono (Nat.le_succ _))
  refine ⟨e, last, ?_, hf, hlast⟩
  rw [hread]
  refine tierTail_ends hi ?_
  rw [Cursor.here_kind]
  exact hrest.continues?_ne (Nat.le_refl _)

theorem Tiered.assignedAs (h : Tiered line reader 0 words f) : AssignedAs line reader words f := by
  intro b c rest hc hb hrest
  obtain ⟨e, last, hread, hf, hlast⟩ := h.restores (by decide) hc hb (hrest.mono (by decide))
  exact ⟨e, last, assignment_ends hread (by rw [Cursor.here_kind]; exact hrest), hf, hlast⟩

theorem AssignedAs.binds (h : AssignedAs line reader words f) : Binds line reader 0 words f :=
  ⟨h, fun _ _ hl => absurd hl (by omega), nofun, nofun, nofun⟩

theorem Tiered.binds (hne : words ≠ []) : ∀ {i : Nat}, i < 6 → Tiered line reader i words f →
    Binds line reader (i + 1) words f
  | 0, _, h => by
    refine ⟨h.assignedAs, fun i _ hl => ?_, nofun, nofun, nofun⟩
    obtain rfl : i = 0 := by omega
    exact h
  | i + 1, hi, h => by
    have hless : Tiered line reader i words f :=
      tiered_of_restores (by omega) hne fun b c rest hc hb hrest => h.restores hi hc hb hrest
    have hbinds := Tiered.binds hne (by omega) hless
    refine ⟨hbinds.assigned, fun j hj hl => ?_, fun hl => by omega, fun hl => by omega,
      fun hl => by omega⟩
    by_cases hji : j = i + 1
    · exact hji ▸ h
    · exact hbinds.tiered j hj (by omega)

theorem PoweredAs.binds (h : PoweredAs line reader words f) (hne : words ≠ []) :
    Binds line reader 7 words f :=
  have hbinds := Tiered.binds hne (by decide) (h.tiered hne)
  ⟨hbinds.assigned, fun i hi _ => hbinds.tiered i hi (by omega), fun _ => h, nofun, nofun⟩

theorem SignedAs.binds (h : SignedAs line reader words f) (hne : words ≠ []) :
    Binds line reader 8 words f :=
  have hbinds := h.poweredAs.binds hne
  ⟨hbinds.assigned, fun i hi _ => hbinds.tiered i hi (by omega),
    fun _ => hbinds.powered (Nat.le_refl 7), fun _ => h, nofun⟩

theorem Chained.binds (h : Chained line reader words f) (hne : words ≠ []) :
    Binds line reader 9 words f :=
  have hbinds := h.signedAs.binds hne
  ⟨hbinds.assigned, fun i hi _ => hbinds.tiered i hi (by omega),
    fun _ => hbinds.powered (by decide), fun _ => hbinds.signed (Nat.le_refl 8), fun _ => h⟩

/-- From a tier on, or as an operand of all tiers. -/
theorem Binds.restores {j : Nat} (hj : j ≤ 6) (h : Binds line reader (j + 1) words f) {b : Nat}
    {c : Cursor} {rest : List Token} (hc : Faces line words rest c) (hb : c.rest.length ≤ b + 1)
    (hrest : (front rest).Ends (j + 1)) :
    Restores line (tiersFrom reader (expression reader b) b true j) c f rest := by
  by_cases hlast : j = 6
  · subst hlast
    exact h.powered (Nat.le_refl 7) b b c rest hc hb hb hrest
  · exact (h.tiered j (by omega) (Nat.le_refl _)).restores (by omega) hc hb hrest

end Descent

end Parser

end Sable
