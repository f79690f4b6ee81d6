import Mathlib.Data.List.Forall2
import Sable.Proofs.Printing.Annotations
import Sable.Proofs.Spans.Expressions
import Sable.Proofs.Termination.Sources

/-!
# Expressions that are read are well-formed

What the rules for annotations and expressions read is `TypeExpr.Sound` and `Expr.Sound` (`FindsExpr`).
A generic type has an argument and a union a second member because the budget exceeds the number of
tokens. The expressions of a literal are sound in the texts of its holes (`Faithful`).
-/

namespace Sable

open Sable.Parser

/-- The token was cut from the text, if it is such as are written, and is a word if it is an
identifier. -/
structure Token.FromText (text : String) (t : Token) : Prop where
  spelled : t.IsSpelled
  cut : t.kind ∈ Kind.written → t.Cut Kind.written text

theorem Token.FromText.cutFrom {text : String} {t : Token} (h : t.FromText text)
    (hk : t.kind = .identifier) : t.name.CutFrom text :=
  ⟨t, h.cut (by rw [hk]; decide), hk, rfl⟩

theorem TypeExpr.Formed.proper {type : TypeExpr} (h : type.Formed) : type.Proper := by
  induction h with
  | primitive type span => exact .word (by cases type <;> rfl)
  | named => exact .named _
  | generic _ _ hsome _ ih => exact .generic hsome ih
  | union several _ ih => exact .union several ih
  | array _ ih => exact .array ih
  | function _ _ ihp ihr => exact .function ihp ihr

theorem Name.IsOf.standsIn {text : String} {n : Name} (h : n.IsOf (Token.FromText text)) :
    n.StandsIn text := by
  obtain ⟨t, ht, hk, rfl⟩ := h
  exact (ht.cutFrom hk).standsIn

theorem TypeExpr.MadeOf.sound {text : String} {type : TypeExpr}
    (h : type.MadeOf (Token.FromText text)) : type.Sound text :=
  ⟨fun n hn => (h.names n hn).standsIn, h.formed.proper⟩

namespace Parser

variable {text : String} {P : Token → Prop} {n b : Nat}

theorem finds_name (what : String) :
    FindsIf (Token.FromText text) P n (·.StandsIn text) (identifier what) := by
  intro c hs hP hn
  refine ⟨(coincide_identifier what c hs hP hn).2.mono (Nat.zero_le 1), fun name c' h => ?_⟩
  exact (isOf_of_identifier hs h).standsIn

theorem finds_soundType (hb : n ≤ b) :
    FindsIf (Token.FromText text) P n (TypeExpr.Sound text) (typeExpr b) := by
  intro c hs _ hn
  obtain ⟨hcons, hmade⟩ := finds_typeExpr (fun _ ht => ht.spelled) hb c hs trivial hn
  exact ⟨hcons, fun type c' h => (hmade type c' h).sound⟩

theorem finds_typeBehind (k : Kind) (hb : n ≤ b) :
    FindsIf (Token.FromText text) P n (fun x => ∀ type ∈ x, TypeExpr.Sound text type)
      (after k (typeExpr b)) :=
  finds_after k (finds_soundType hb)

/-- The rule reads sound expressions where fewer than `n` tokens are ahead. -/
abbrev FindsExpr (text : String) (n : Nat) (rule : Parser Expr) : Prop :=
  Finds (Token.FromText text) n (Expr.Sound text) rule

section Operators

variable {operand : Parser Expr} (h : FindsExpr text n operand)
include h

theorem finds_tierTail (operators : List (Kind × BinaryOp)) :
    ∀ (budget : Nat) {left : Expr}, left.Sound text →
      FindsExpr text n (tierTail operand operators budget left)
  | 0, _, hleft => .pure hleft
  | budget + 1, left, hleft => by
    refine .look (fun c => ⟨c.here.kind, rfl⟩) fun k => ?_
    cases operators.lookup k with
    | none => exact .pure hleft
    | some op =>
      refine .past coincide_next fun _ => h.bind fun right hright => ?_
      exact finds_tierTail operators budget (.binary op hleft hright)

theorem finds_tiers (budget : Nat) : ∀ tiers : List (List (Kind × BinaryOp)),
    FindsExpr text n (tiers.foldr (tier budget) operand)
  | [] => h
  | operators :: tiers => (finds_tiers budget tiers).bind fun _ hleft =>
      finds_tierTail (finds_tiers budget tiers) operators budget hleft

theorem finds_powers : ∀ budget, FindsExpr text n (powers operand budget)
  | 0 => h
  | budget + 1 => by
    refine h.bind fun base hbase => .past (coincide_accept_any _) fun _ => .ite (fun _ => ?_) fun _ =>
      .pure hbase
    exact (finds_powers budget).bind fun power hpower => .pure (.binary .pow hbase hpower)

theorem finds_signed : ∀ budget, FindsExpr text n (signed operand budget)
  | 0 => h
  | budget + 1 => by
    -- the token of the sign is the one whose kind was looked at
    refine .kind fun k => ?_
    cases hop : UnaryOp.ofKind? k with
    | none => exact h.any
    | some op =>
      have hwritten := UnaryOp.written_of_ofKind? hop
      have hne : k ≠ .endOfFile := by
        rintro rfl
        cases hop
      refine .next (fun t ht => ht.2.symm ▸ hne) fun t ht => ?_
      obtain ⟨⟨-, rfl⟩, ht⟩ := ht
      exact (finds_signed budget).mono (Nat.sub_le n 1) |>.bind fun inner hinner =>
        .pure (.unary (ht.cut hwritten) hop hinner)

end Operators

section Operands

variable {nested : Bool → Parser Expr} (h : ∀ objects, FindsExpr text n (nested objects))
include h

/-- A key and arguments stand behind a token of their own. -/
theorem finds_members : ∀ (budget : Nat) {e : Expr}, e.Sound text →
    FindsExpr text (n + 1) (members nested budget e)
  | 0, _, he => .pure he
  | budget + 1, e, he => by
    have hrest {e : Expr} (he : e.Sound text) : FindsExpr text n (members nested budget e) :=
      (finds_members budget he).mono (Nat.le_succ n)
    have hopen {P : Token → Prop} {k : Kind} (hk : k ≠ .endOfFile) :
        CoincideIf (Token.FromText text) (fun t => P t ∧ t.kind = k) 1 (n + 1) next next :=
      coincide_next_inside fun t ht => by rw [ht.2]; exact hk
    refine .past (coincide_accept_any _) fun _ => .ite (fun _ => ?_) fun _ => ?_
    · exact (finds_name _).bind fun name hname => finds_members budget (he.field hname _)
    refine .kind fun k => .look (fun c => ⟨c.onSameLine, rfl⟩) fun _ => .ite (fun hk => ?_) fun _ => ?_
    · refine .past (hopen (by rw [hk.1]; decide)) fun _ => (h true).bind fun key hkey => ?_
      exact .past (coincide_expect (by decide)).weak fun close => hrest (he.index hkey _)
    refine .kind fun k => .look (fun c => ⟨c.onSameLine, rfl⟩) fun _ => .ite (fun hk => ?_) fun _ =>
      .pure he
    refine .past (hopen (by rw [hk.1]; decide)) fun _ =>
      (finds_listUntil _ (h true) budget).bind fun args hargs => ?_
    exact .past (coincide_expect (by decide)).weak fun close => hrest (he.call hargs _)

theorem finds_properties : ∀ budget, Finds (Token.FromText text) n
    (fun ps : List (Name × Option Expr) => ∀ p ∈ ps, p.1.StandsIn text ∧ ∀ e ∈ p.2, e.Sound text)
    (properties nested budget)
  | 0 => .pure (List.forall_mem_nil _)
  | budget + 1 => by
    refine .look (fun c => ⟨c.here.kind, rfl⟩) fun _ => .ite (fun _ => .pure (List.forall_mem_nil _))
      fun _ => (finds_name _).bind fun name hname => ?_
    refine (finds_after _ (h true)).bind fun value hvalue => .past (coincide_accept_any _) fun _ => ?_
    refine .look (fun c => ⟨c.here.kind, rfl⟩) fun _ => .ite (fun _ => ?_) fun _ => ?_
    · exact (finds_properties budget).bind fun ps hps =>
        .pure (List.forall_mem_cons.2 ⟨⟨hname, hvalue⟩, hps⟩)
    · exact .pure (List.forall_mem_singleton.2 ⟨hname, hvalue⟩)

theorem finds_objectBody (budget : Nat) {struct : Option Name} {typeArgs : List TypeExpr} {t : Token}
    (hcut : t.Cut Kind.written text)
    (hstart : ∀ props stop, (Expr.object struct typeArgs props (t.span.upTo stop)).StartsWith t)
    (hstruct : ∀ n ∈ struct, n.StandsIn text) (htypes : ∀ type ∈ typeArgs, type.Sound text) :
    FindsIf (Token.FromText text) P (n + 1) (Expr.Sound text)
      (objectBody nested budget struct typeArgs t.span) := by
  refine .past (coincide_expect (by decide)) fun _ => (finds_properties h budget).bind fun ps hps => ?_
  exact .past (coincide_expect (by decide)).weak fun _ =>
    .pure (.object hcut (hstart _ _) hstruct htypes hps)

omit h in
theorem finds_genericHead? (hb : n ≤ b) : Finds (Token.FromText text) (n + 1)
    (fun x => ∀ head ∈ x, head.1.CutFrom text ∧ ∀ type ∈ head.2, TypeExpr.Sound text type)
    (genericHead? b) := by
  have hhead : Finds (Token.FromText text) (n + 1)
      (fun head => head.1.CutFrom text ∧ ∀ type ∈ head.2, TypeExpr.Sound text type)
      (genericHead b) := by
    refine .identifier fun t ht hk => .past coincide_next fun _ => ?_
    refine (finds_commaList (finds_soundType hb) b).bind fun args hargs => ?_
    refine .past (coincide_expect (by decide)).weak fun _ => ?_
    exact .look (fun c => ⟨c.here.kind, rfl⟩) fun _ =>
      .ite (fun _ => .pure ⟨ht.cutFrom hk, hargs⟩) fun _ => .unexpected _
  intro c hs hP hn
  obtain ⟨hcons, hfound⟩ := hhead c hs hP hn
  unfold genericHead?
  cases hr : genericHead b c with
  | error e =>
    refine ⟨.ok none rfl, fun x t ht => ?_⟩
    cases ht
    rintro _ ⟨⟩
  | ok x =>
    refine ⟨fun head t ht => ?_, fun head t ht => ?_⟩
    · cases ht
      exact hcons x.1 x.2 hr
    · cases ht
      rintro _ ⟨⟩
      exact hfound x.1 x.2 hr

theorem finds_named (hb : n ≤ b) (objects : Bool) :
    FindsIf (Token.FromText text) P (n + 1) (Expr.Sound text) (named nested b objects) := by
  have hinstance {m : Nat} (hm : m ≤ n + 1) {name : Name} {args : List TypeExpr}
      (hname : name.CutFrom text) (hargs : ∀ type ∈ args, type.Sound text) :
      FindsExpr text m (objectBody nested b (some name) args name.span) := by
    obtain ⟨t, hcut, hkind, rfl⟩ := hname
    refine FindsIf.mono (finds_objectBody h b hcut (fun _ _ => ⟨hkind, rfl⟩) ?_ hargs) hm
    rintro n ⟨⟩
    exact hcut.standsIn hkind
  have hsimple (second : Kind) : FindsExpr text (n + 1) (plainName nested b objects second) := by
    refine .identifier fun t ht hk => .ite (fun _ => ?_) fun _ => .pure (.var (ht.cutFrom hk))
    exact hinstance (Nat.le_succ n) (ht.cutFrom hk) (List.forall_mem_nil _)
  refine .look (fun c => ⟨c.kindAt 1, rfl⟩) fun second => .ite (fun _ => ?_) fun _ =>
    (hsimple second).any
  refine (finds_genericHead? hb).any.bind fun head hhead => ?_
  cases head with
  | some head => exact hinstance (Nat.le_refl _) (hhead head rfl).1 (hhead head rfl).2
  | none => exact hsimple second

end Operands

/-- What the reader reads in a literal of a text is sound in it. -/
def Faithful (reader : TextReader) : Prop :=
  ∀ text (t : Token) e, t.Cut Kind.written text → t.kind = .text →
    reader t.text t.span = .ok e → e.Sound text

section Expressions

variable {reader : TextReader} (hreader : Faithful reader) {nested : Bool → Parser Expr}
  (h : ∀ objects, FindsExpr text n (nested objects))
include hreader

section Inside

include h

theorem finds_primary (hb : n ≤ b) (objects : Bool) :
    FindsExpr text (n + 1) (primary reader nested b objects) := by
  refine .peek fun x hx => ?_
  -- the token in front decides which form is read, and is a part of it
  have hcut {k : Kind} (hk : x.kind = k) (hw : k ∈ Kind.written) : x.Cut Kind.written text := by
    refine (hx ?_).cut (hk ▸ hw)
    rintro heof
    rw [← hk, heof] at hw
    exact absurd hw (by decide)
  have hnext {k : Kind} (hk : x.kind = k) (hne : k ≠ .endOfFile) :
      CoincideIf (Token.FromText text) (fun t => True ∧ t = x) 1 (n + 1) next next :=
    coincide_next_inside fun t ht => by rw [ht.2, hk]; exact hne
  split
  · rename_i hkind
    refine .past (hnext hkind (by decide)) fun _ => ?_
    split
    · rename_i value hvalue
      exact .pure (.number (hcut hkind (by decide)) hkind hvalue)
    · exact .fails fun _ => ⟨_, rfl⟩
  · rename_i hkind
    refine .past (hnext hkind (by decide)) fun _ => ?_
    split
    · rename_i e he
      exact .pure (hreader text x e (hcut hkind (by decide)) hkind he)
    · exact .fails fun _ => ⟨_, rfl⟩
  · exact finds_named h hb objects
  · rename_i hkind
    refine .ite (fun _ => ?_) fun _ => .unexpected _
    exact finds_objectBody h b (hcut hkind (by decide)) (fun _ _ => ⟨hkind, rfl⟩) (by rintro _ ⟨⟩)
      (List.forall_mem_nil _)
  · rename_i hkind
    refine .past (hnext hkind (by decide)) fun _ => (finds_listUntil _ (h true) b).bind fun es hes => ?_
    exact .past (coincide_expect (by decide)).weak fun close =>
      .pure (.array (hcut hkind (by decide)) hkind hes _)
  · rename_i hkind
    refine .past (hnext hkind (by decide)) fun _ => (h true).bind fun e he => ?_
    exact .past (coincide_expect (by decide)).weak fun _ => .pure he
  · exact .unexpected _

/-- Only what a value can be assigned to stands in front of an assignment. -/
theorem finds_assignment (hb : n ≤ b) (objects : Bool) :
    FindsExpr text (n + 1) (assignment reader nested b objects) := by
  have hchain : FindsExpr text (n + 1) (primary reader nested b objects >>= members nested b) :=
    (finds_primary hreader h hb objects).bind fun e he => finds_members h b he
  have hoperation : FindsExpr text (n + 1) (operation reader nested b objects) :=
    finds_tiers (finds_powers (finds_signed hchain b) b) b BinaryOp.tiers
  refine hoperation.bind fun left hleft => .kind fun k => ?_
  cases hsign : assignmentOf? k with
  | none => exact .pure hleft
  | some compound =>
    have hne : k ≠ .endOfFile := by
      rintro rfl
      cases hsign
    refine .past (coincide_next_inside fun t ht => ht.2.symm ▸ hne) fun sign => ?_
    refine .ite (fun htarget => ?_) fun _ => .fails fun _ => ⟨_, rfl⟩
    refine FindsIf.bind (h objects) fun value hvalue => ?_
    cases compound with
    | none => exact .pure (.assign htarget hleft hvalue)
    | some op => exact .pure (.assign htarget hleft (.binary op hleft hvalue))

end Inside

theorem finds_expression : ∀ {n b : Nat} (_ : n ≤ b) (objects : Bool),
    FindsExpr text n (expression reader b objects)
  | 0, _, _, _ => .zero
  | _ + 1, _ + 1, hb, objects =>
    have hle := Nat.le_of_succ_le_succ hb
    finds_assignment hreader (finds_expression hle) hle objects

end Expressions

end Parser

/-! ### Literals -/

theorem Cursor.fromText_ofTokens {text : String} {tokens : List Token}
    (h : Token.tokenize text = .ok tokens) :
    ∀ t ∈ (Cursor.ofTokens tokens).rest, t.FromText text := by
  refine fun t ht => ⟨fun hk => ?_, cut_ofTokens h t ht⟩
  exact Token.isIdentifier_of_tokenize h t (Cursor.mem_of_mem_ofTokens ht (by rw [hk]; decide)) hk

/-- The expression in a hole is read from the tokens of the hole. -/
theorem sound_of_readHole {reader : TextReader} (hreader : Faithful reader) {body : String} {e : Expr}
    (h : readHole reader body = .ok e) : e.Sound body := by
  obtain ⟨-, tokens, c, htokens, hwhole⟩ := readHole_eq_ok.1 h
  have hexpr := (Parser.wholeExpression_eq_ok.1 hwhole).1
  have hlt := distance_lt_length (Cursor.exists_endOfFile tokens)
  exact (finds_expression hreader (Nat.le_refl _) true (Cursor.ofTokens tokens)
    (Cursor.fromText_ofTokens htokens) trivial hlt).2 e c hexpr

/-- However deep literals lie in one another, each is placed where it stands in the text around it. -/
theorem faithful_readText : ∀ depth, Faithful (readText depth)
  | 0 => by
    intro text t e _ _ h
    cases h
  | depth + 1 => by
    intro text t e hcut hkind h
    obtain ⟨template, htemplate, rfl⟩ := readText_succ.1 h
    obtain ⟨holes, heq, hholes⟩ := Template.extend_holes htemplate
    obtain rfl : template.holes = holes := heq
    have hspan : t.span.holes text = (Piece.split t.text.toList).filterMap (·.hole?) := by
      rw [Span.holes, hcut.textOf hkind]
    rw [← hspan, List.forall₂_iff_zip] at hholes
    obtain ⟨hlength, hread⟩ := hholes
    have hparts : ((t.span.holes text).zip template.holes).map (·.2) = template.holes :=
      List.map_snd_zip (Nat.le_of_eq hlength.symm)
    refine ⟨⟨.nil, ⟨t, hcut, ⟨hkind, rfl⟩, rfl⟩, hparts.symm⟩, rfl, List.forall_mem_nil _,
      List.forall_mem_nil _, fun x hx => ?_⟩
    exact sound_of_readHole (faithful_readText depth) (hread hx)

theorem faithful_readLiteral : Faithful readLiteral :=
  fun text t e hcut hkind h => faithful_readText _ text t e hcut hkind h

end Sable
