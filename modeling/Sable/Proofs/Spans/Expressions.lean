import Sable.Proofs.Spans.Names
import Sable.Proofs.Templates.Reading

/-!
# Expressions from parts that stand in a text

`Expr.Sound` for each form: an expression stands in a text if its parts do and its first token was cut
from it. The expressions of a literal are read from other texts, with places of their own.
-/

namespace Sable

/-- The name is an identifier of the text. -/
def Name.CutFrom (text : String) (n : Name) : Prop :=
  ∃ t : Token, t.Cut Kind.written text ∧ t.kind = .identifier ∧ t.name = n

theorem Name.CutFrom.standsIn {text : String} {n : Name} (h : n.CutFrom text) : n.StandsIn text := by
  obtain ⟨t, hcut, hkind, rfl⟩ := h
  exact hcut.standsIn hkind

namespace Expr.Sound

variable {text : String} {e e' : Expr} {name : Name}

theorem var (h : name.CutFrom text) : (Expr.var name).Sound text := by
  obtain ⟨t, hcut, hkind, rfl⟩ := h
  exact .of_operands (.cons (hcut.standsIn hkind) .nil) ⟨t, hcut, ⟨hkind, rfl⟩, rfl⟩ rfl rfl rfl
    (List.forall_mem_nil _) (List.forall_mem_nil _)

theorem number {t : Token} {value : Number.Decimal} (hcut : t.Cut Kind.written text)
    (hkind : t.kind = .number) (hvalue : Number.Decimal.ofText? t.text = some value) :
    (Expr.number value t.span).Sound text :=
  .of_operands .nil ⟨t, hcut, ⟨hkind, hvalue, rfl⟩, rfl⟩ rfl rfl rfl
    (List.forall_mem_nil _) (List.forall_mem_nil _)

theorem field (h : e.Sound text) (hn : name.StandsIn text) (stop : Span) :
    (Expr.field e name (e.span.upTo stop)).Sound text :=
  .of_operands (.cons hn .nil) (h.stands.start.of_eq (fun _ ht => ht) rfl) rfl rfl rfl
    (List.forall_mem_singleton.2 h) (List.forall_mem_nil _)

theorem index (h : e.Sound text) (h' : e'.Sound text) (stop : Span) :
    (Expr.index e e' (e.span.upTo stop)).Sound text :=
  .of_operands .nil (h.stands.start.of_eq (fun _ ht => ht) rfl) rfl rfl rfl
    (List.forall_mem_cons.2 ⟨h, List.forall_mem_singleton.2 h'⟩) (List.forall_mem_nil _)

theorem call {args : List Expr} (h : e.Sound text) (hargs : ∀ e' ∈ args, e'.Sound text)
    (stop : Span) : (Expr.call e args (e.span.upTo stop)).Sound text :=
  .of_operands .nil (h.stands.start.of_eq (fun _ ht => ht) rfl) rfl rfl rfl
    (List.forall_mem_cons.2 ⟨h, hargs⟩) (List.forall_mem_nil _)

theorem binary (op : BinaryOp) (h : e.Sound text) (h' : e'.Sound text) :
    (Expr.binary op e e').Sound text :=
  .of_operands .nil (h.stands.start.of_eq (fun _ ht => ht) rfl) rfl rfl rfl
    (List.forall_mem_cons.2 ⟨h, List.forall_mem_singleton.2 h'⟩) (List.forall_mem_nil _)

theorem assign (ht : e.isTarget = true) (h : e.Sound text) (h' : e'.Sound text) :
    (Expr.assign e e').Sound text :=
  .of_operands .nil (h.stands.start.of_eq (fun _ ht => ht) rfl) ht rfl rfl
    (List.forall_mem_cons.2 ⟨h, List.forall_mem_singleton.2 h'⟩) (List.forall_mem_nil _)

theorem unary {t : Token} {op : UnaryOp} (hcut : t.Cut Kind.written text)
    (hop : UnaryOp.ofKind? t.kind = some op) (h : e.Sound text) :
    (Expr.unary op e (t.span.upTo e.span)).Sound text :=
  .of_operands .nil ⟨t, hcut, ⟨hop, rfl⟩, rfl⟩ rfl rfl rfl (List.forall_mem_singleton.2 h)
    (List.forall_mem_nil _)

theorem array {t : Token} {elements : List Expr} (hcut : t.Cut Kind.written text)
    (hkind : t.kind = .symbol .openBracket) (h : ∀ e ∈ elements, e.Sound text) (stop : Span) :
    (Expr.array elements (t.span.upTo stop)).Sound text :=
  .of_operands .nil ⟨t, hcut, ⟨hkind, rfl⟩, rfl⟩ rfl rfl rfl h (List.forall_mem_nil _)

theorem object {t : Token} {struct : Option Name} {typeArgs : List TypeExpr}
    {properties : List (Name × Option Expr)} {stop : Span} (hcut : t.Cut Kind.written text)
    (hstart : (Expr.object struct typeArgs properties (t.span.upTo stop)).StartsWith t)
    (hstruct : ∀ n ∈ struct, n.StandsIn text) (hargs : ∀ type ∈ typeArgs, type.Sound text)
    (h : ∀ x ∈ properties, x.1.StandsIn text ∧ ∀ e ∈ x.2, e.Sound text) :
    (Expr.object struct typeArgs properties (t.span.upTo stop)).Sound text := by
  have hnames : Stand text (properties.map (·.1)) := by
    intro n hn
    obtain ⟨x, hx, rfl⟩ := List.mem_map.1 hn
    exact (h x hx).1
  refine .of_operands (.append (.append (.toList hstruct) (.flatMap fun t ht => (hargs t ht).stands)) hnames)
    ⟨t, hcut, hstart, rfl⟩ rfl rfl rfl (fun e he => ?_) fun t ht => (hargs t ht).proper
  obtain ⟨x, hx, hxe⟩ := List.mem_filterMap.1 he
  exact (h x hx).2 e hxe

end Expr.Sound

/-- A sign is written. -/
theorem UnaryOp.written_of_ofKind? {k : Kind} {op : UnaryOp} (h : ofKind? k = some op) :
    k ∈ Kind.written := by
  unfold ofKind? at h
  split at h
  · decide
  · decide
  · decide
  · cases h

/-! ### Tokens and literals -/

/-- The tokens of a text are cut from it, as far as they are such as are written. -/
theorem Cursor.cut_ofTokens {text : String} {tokens : List Token}
    (h : Token.tokenize text = .ok tokens) : ∀ t ∈ (Cursor.ofTokens tokens).rest,
      t.kind ∈ Kind.written → t.Cut Kind.written text := by
  obtain ⟨raw, hraw, hmem⟩ := Layout.mem_tokenize h
  obtain ⟨body, loc, rfl, hcut⟩ := Token.scan_eq_ok hraw
  intro t ht hk
  have hne : t.kind ≠ .endOfFile := by
    intro heof
    rw [heof] at hk
    exact absurd hk (by decide)
  rcases hmem t (Cursor.mem_of_mem_ofTokens ht hne) with ⟨hbody, -⟩ | ⟨hlayout, -⟩
  · rcases List.mem_append.1 hbody with hbody | hlast
    · exact hcut t hbody
    · rw [List.mem_singleton.1 hlast] at hne
      exact absurd rfl hne
  · have hmarks : t.kind = .indent ∨ t.kind = .dedent := by
      revert hlayout
      cases t.kind <;> simp [Kind.isLayout]
    rcases hmarks with hkind | hkind <;>
    · rw [hkind] at hk
      exact absurd hk (by decide)

/-- The text of a quoted token is what its span of the source stands for. -/
theorem Token.Cut.textOf {kinds : List Kind} {text : String} {t : Token} (h : t.Cut kinds text)
    (hk : t.kind = .text) : Token.textOf .text (t.span.slice text) = t.text := by
  obtain ⟨raw, hraw, htext⟩ := h.quoted hk
  rw [hraw, htext]
  simp [Token.textOf]

/-- The expressions of a template are read from the holes of the text, in order. -/
theorem Template.extend_holes {read : String → Except SyntaxCause Expr} {pieces : List Piece}
    {t t' : Template} (h : t.extend read pieces = .ok t') :
    ∃ holes, t'.holes = t.holes ++ holes ∧
      List.Forall₂ (fun body e => read body = .ok e) (pieces.filterMap (·.hole?)) holes := by
  induction pieces generalizing t with
  | nil =>
    cases h
    exact ⟨[], (List.append_nil _).symm, .nil⟩
  | cons piece rest ih =>
    cases piece with
    | plain c =>
      rw [extend] at h
      obtain ⟨holes, heq, hholes⟩ := ih h
      exact ⟨holes, heq, hholes⟩
    | reference name =>
      rw [extend] at h
      obtain ⟨holes, heq, hholes⟩ := ih h
      exact ⟨holes, heq, hholes⟩
    | hole body =>
      rw [extend] at h
      cases hread : read body with
      | error cause =>
        rw [hread] at h
        cases h
      | ok e =>
        rw [hread] at h
        obtain ⟨holes, heq, hholes⟩ := ih h
        refine ⟨e :: holes, ?_, .cons hread hholes⟩
        rw [heq, List.append_assoc]
        rfl
    | openHole text => cases h

end Sable
