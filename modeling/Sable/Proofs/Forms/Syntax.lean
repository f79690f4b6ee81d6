import Sable.Proofs.Spans.Syntax

/-!
# Well-formed syntax

`TypeExpr.Proper`, `Expr.Proper` and `Stmt.Proper`: every node of an annotation, an expression or a
statement has what it asks for. `Expr.wellMade` and `Stmt.wellMade` say what a single node asks for, and
`Expr.All`, `Stmt.All` and `FunctionOf.All` carry a condition to everything inside.
-/

namespace Sable

/-- Every word names a primitive type, a generic type has an argument and a union two members, and there
is no definition inside. -/
inductive TypeExpr.Proper : TypeExpr → Prop
  | word {text : String} {span : Span} (h : (Primitive.ofName? text).isSome) : Proper (.word text span)
  | named (name : Name) : Proper (.named name)
  | generic {name : Name} {args : List TypeExpr} (some : args ≠ []) (h : ∀ t ∈ args, Proper t) :
      Proper (.generic name args)
  | union {members : List TypeExpr} {span : Span} (several : 2 ≤ members.length)
      (h : ∀ t ∈ members, Proper t) : Proper (.union members span)
  | array {element : TypeExpr} {span : Span} (h : Proper element) : Proper (.array element span)
  | function {params : List TypeExpr} {result : Option TypeExpr} {span : Span}
      (hp : ∀ t ∈ params, Proper t) (hr : ∀ t ∈ result, Proper t) :
      Proper (.function params result span)

theorem TypeParam.forall_bounds_cons {P : TypeExpr → Prop} {p : TypeParam} {rest : List TypeParam} :
    (∀ t ∈ bounds (p :: rest), P t) ↔ (∀ t ∈ p.bound, P t) ∧ ∀ t ∈ bounds rest, P t := by
  simp [bounds, or_imp, forall_and]

namespace Expr

/-- An assignment has a target, and behind a dot there is a name. -/
def wellMade : Expr → Bool
  | assign target _ => target.isTarget
  | field .. => true
  | member _ computed _ _ => computed
  | _ => true

/-- The expression has what it asks for itself, and its annotations are well-formed. -/
structure WellMade (e : Expr) : Prop where
  made : e.wellMade = true
  types : ∀ t ∈ e.annotations, t.Proper

/-- `E` holds of the expression and of all expressions inside it. -/
inductive All (E : Expr → Prop) : Expr → Prop
  | intro {e : Expr} (own : E e) (parts : ∀ e' ∈ e.parts, All E e') : All E e

/-- The expression is well-formed, with all that is inside it. -/
abbrev Proper : Expr → Prop :=
  All WellMade

namespace All

variable {E E' : Expr → Prop} {e e' : Expr}

theorem own (h : e.All E) : E e := by
  cases h with
  | intro own _ => exact own

theorem part (h : e.All E) (he : e' ∈ e.parts) : e'.All E := by
  cases h with
  | intro _ parts => exact parts e' he

theorem imp (hE : ∀ e, E e → E' e) (h : e.All E) : e.All E' := by
  induction h with
  | intro own _ parts => exact ⟨hE _ own, parts⟩

end All

end Expr

/-- A binding that cannot change has a value. -/
def VarDecl.wellMade (d : VarDecl) : Bool :=
  !d.modifier.needsValue || d.value.isSome

namespace Stmt

def wellMade : Stmt → Bool
  | varDecl decl => decl.wellMade
  | varDecls decls => decls.all (·.wellMade)
  | _ => true

/-- The statement has what it asks for itself, and its annotations are well-formed. -/
structure WellMade (s : Stmt) : Prop where
  made : s.wellMade = true
  types : ∀ t ∈ s.annotations, t.Proper

theorem mem_parts_nil {loops : List Enclosing} {s : Stmt} {x : List Enclosing × Stmt}
    (h : x ∈ s.parts loops) : ∃ y ∈ s.parts [], y.2 = x.2 := by
  rw [← List.nil_append loops, parts_append] at h
  obtain ⟨y, hy, rfl⟩ := List.mem_map.1 h
  exact ⟨y, hy, rfl⟩

/-- `S` holds of the statement and of all statements inside it, and `E` of their expressions. -/
inductive All (S : Stmt → Prop) (E : Expr → Prop) : Stmt → Prop
  | intro {s : Stmt} (own : S s) (exprs : ∀ e ∈ s.exprs, E e)
      (fallbacks : ∀ f ∈ s.functions, ∀ p ∈ f.params, ∀ e ∈ p.fallback, E e)
      (parts : ∀ x ∈ s.parts [], All S E x.2) (bodies : ∀ b ∈ s.bodies, ∀ t ∈ b, All S E t) :
      All S E s

/-- The statement is well-formed, with all that is inside it. -/
abbrev Proper : Stmt → Prop :=
  All WellMade Expr.Proper

namespace All

variable {S S' : Stmt → Prop} {E E' : Expr → Prop} {s : Stmt}

theorem own (h : s.All S E) : S s := by
  cases h with
  | intro own _ _ _ _ => exact own

theorem expr (h : s.All S E) {e : Expr} (he : e ∈ s.exprs) : E e := by
  cases h with
  | intro _ exprs _ _ _ => exact exprs e he

theorem fallback (h : s.All S E) {f : Function} (hf : f ∈ s.functions) {p : Param} (hp : p ∈ f.params)
    {e : Expr} (he : e ∈ p.fallback) : E e := by
  cases h with
  | intro _ _ fallbacks _ _ => exact fallbacks f hf p hp e he

theorem part (h : s.All S E) {x : List Enclosing × Stmt} (hx : x ∈ s.parts []) : x.2.All S E := by
  cases h with
  | intro _ _ _ parts _ => exact parts x hx

theorem body (h : s.All S E) {b : List Stmt} (hb : b ∈ s.bodies) {t : Stmt} (ht : t ∈ b) :
    t.All S E := by
  cases h with
  | intro _ _ _ _ bodies => exact bodies b hb t ht

theorem imp (hS : ∀ s, S s → S' s) (hE : ∀ e, E e → E' e) (h : s.All S E) : s.All S' E' := by
  induction h with
  | intro own exprs fallbacks _ _ parts bodies =>
    exact ⟨hS _ own, fun e he => hE e (exprs e he),
      fun f hf p hp e he => hE e (fallbacks f hf p hp e he), parts, bodies⟩

/-- What holds of the statements of a program holds of all that stands in it. -/
theorem within {program : List Stmt} (h : ∀ s ∈ program, s.All S E) {loops : List Enclosing}
    (hs : Within program loops s) : s.All S E := by
  induction hs with
  | top hs => exact h _ hs
  | part _ hx ih =>
    obtain ⟨y, hy, heq⟩ := mem_parts_nil hx
    exact heq ▸ ih.part hy
  | body _ hb ht ih => exact ih.body hb ht

end All

end Stmt

/-- `T` holds of the annotations in the head of the function, `S` of the statements in its body, and `E`
of the expressions in both. -/
structure FunctionOf.All (S : Stmt → Prop) (E : Expr → Prop) (T : TypeExpr → Prop) (f : Function) :
    Prop where
  types : ∀ t ∈ f.annotations, T t
  fallbacks : ∀ p ∈ f.params, ∀ e ∈ p.fallback, E e
  body : ∀ s ∈ f.body, s.All S E

theorem Stmt.All.declared {S : Stmt → Prop} {E : Expr → Prop} {T : TypeExpr → Prop} {s : Stmt}
    (hS : ∀ s, S s → ∀ t ∈ s.annotations, T t) (h : s.All S E) {f : Function} (hf : f ∈ s.functions) :
    f.All S E T where
  types t ht := hS s h.own t (List.mem_append_right _ (List.mem_flatMap.2 ⟨f, hf, ht⟩))
  fallbacks _ hp _ he := h.fallback hf hp he
  body _ hs := h.body (Stmt.body_mem_bodies hf) hs

end Sable
