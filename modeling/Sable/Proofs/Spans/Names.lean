import Sable.Proofs.Forms.Syntax
import Sable.Proofs.Scanning.Tiling
import Sable.Proofs.Templates.Pieces

/-!
# Names in a program and where they stand

`Stand`: names are written in a text at their places. `Expr.Stands`, `Expr.Sound` and `Stmt.Sound` say
so of an expression or statement and all that is inside it. An expression in a text literal is written
in the text of its hole (`Expr.holes`), and its places are counted from the start of that.
-/

namespace Sable

/-! ### Names in a text -/

/-- The name is written in the text at its place. -/
structure Name.StandsIn (text : String) (n : Name) : Prop where
  start : n.span.start = .locate text n.span.start.offset
  stop : n.span.stop = .locate text n.span.stop.offset
  written : n.span.slice text = n.text.toList

/-- All of the names are written in the text at their places. -/
def Stand (text : String) (names : List Name) : Prop :=
  ∀ n ∈ names, n.StandsIn text

section

variable {text : String} {n : Name} {names names' : List Name}

theorem Stand.nil : Stand text [] := by
  simp [Stand]

theorem Stand.cons (hn : n.StandsIn text) (h : Stand text names) : Stand text (n :: names) :=
  List.forall_mem_cons.2 ⟨hn, h⟩

theorem Stand.append (h : Stand text names) (h' : Stand text names') : Stand text (names ++ names') :=
  List.forall_mem_append.2 ⟨h, h'⟩

theorem Stand.flatMap {α : Type} {f : α → List Name} {as : List α} (h : ∀ a ∈ as, Stand text (f a)) :
    Stand text (as.flatMap f) := by
  intro n hn
  obtain ⟨a, ha, hna⟩ := List.mem_flatMap.1 hn
  exact h a ha n hna

theorem Stand.toList {name : Option Name} (h : ∀ n ∈ name, n.StandsIn text) :
    Stand text name.toList :=
  fun n hn => h n (Option.mem_toList.1 hn)

/-- An identifier that was cut from a text stands there. -/
theorem Token.Cut.standsIn {kinds : List Kind} {t : Token} (h : t.Cut kinds text)
    (hk : t.kind = .identifier) : t.name.StandsIn text where
  start := h.start
  stop := h.stop
  written := by
    have htext : t.text = String.ofList (t.span.slice text) := h.text (by simp [hk])
    show t.span.slice text = t.text.toList
    rw [htext, String.toList_ofList]

end

/-! ### The names of types -/

theorem Primitive.name_of_ofName? {name : String} {type : Primitive}
    (h : ofName? name = some type) : type.name = name := by
  simpa using List.find?_some h

namespace TypeExpr

mutual

/-- The names in an annotation, those of primitive types included. -/
def names : TypeExpr → List Name
  | word text span => [⟨text, span⟩]
  | named name => [name]
  | generic name args => name :: namesOf args
  | union members _ => namesOf members
  | array element _ => names element
  | function params result _ => namesOf params ++ resultNames result
  | struct fields _ => fieldNames fields
  | contract members _ => requirementNames members
  | aliased target _ => names target

def namesOf : List TypeExpr → List Name
  | [] => []
  | type :: rest => names type ++ namesOf rest

def resultNames : Option TypeExpr → List Name
  | none => []
  | some type => names type

def paramNames : List (Option TypeExpr) → List Name
  | [] => []
  | type :: rest => resultNames type ++ paramNames rest

def fieldNames : List (FieldOf TypeExpr) → List Name
  | [] => []
  | ⟨name, type, _⟩ :: rest => name :: names type ++ fieldNames rest

def requirementNamesOf : RequirementOf TypeExpr → List Name
  | .method name params result => name :: paramNames params ++ resultNames result
  | .getter name result => name :: names result

def requirementNames : List (RequirementOf TypeExpr) → List Name
  | [] => []
  | r :: rest => requirementNamesOf r ++ requirementNames rest

end

variable {N : Name → Prop}

theorem forall_namesOf {types : List TypeExpr} (h : ∀ type ∈ types, ∀ n ∈ type.names, N n) :
    ∀ n ∈ namesOf types, N n := by
  induction types with
  | nil =>
    rw [namesOf]
    exact List.forall_mem_nil _
  | cons type rest ih =>
    rw [namesOf]
    obtain ⟨htype, hrest⟩ := List.forall_mem_cons.1 h
    exact List.forall_mem_append.2 ⟨htype, ih hrest⟩

theorem forall_resultNames {type : Option TypeExpr} (h : ∀ t ∈ type, ∀ n ∈ t.names, N n) :
    ∀ n ∈ resultNames type, N n := by
  cases type with
  | none =>
    rw [resultNames]
    exact List.forall_mem_nil _
  | some type =>
    rw [resultNames]
    exact h type rfl

end TypeExpr

/-- The annotation is well-formed, and its names stand in the text. -/
structure TypeExpr.Sound (text : String) (type : TypeExpr) : Prop where
  stands : Stand text type.names
  proper : type.Proper

/-! ### The names of declarations -/

/-- The name of something declared and the names in its type. -/
def declaredNames (name : Name) (type : Option TypeExpr) : List Name :=
  name :: TypeExpr.resultNames type

theorem Stand.declared {text : String} {name : Name} {type : Option TypeExpr}
    (hn : name.StandsIn text) (ht : ∀ t ∈ type, Stand text t.names) :
    Stand text (declaredNames name type) :=
  .cons hn (TypeExpr.forall_resultNames ht)

def TypeParam.names (p : TypeParam) : List Name :=
  declaredNames p.name p.bound

def VarDecl.names (d : VarDecl) : List Name :=
  declaredNames d.name d.type

def Param.names (p : Param) : List Name :=
  declaredNames p.name p.type

def FieldOf.names (f : FieldDecl) : List Name :=
  declaredNames f.name (some f.type)

def RequirementOf.names : Requirement → List Name
  | method name params result =>
    name :: params.flatMap TypeExpr.resultNames ++ TypeExpr.resultNames result
  | getter name result => declaredNames name (some result)

namespace TypeExpr

theorem names_struct (fields : List FieldDecl) (span : Span) :
    (struct fields span).names = fields.flatMap (·.names) := by
  rw [names]
  induction fields with
  | nil => rfl
  | cons f rest ih =>
    rw [fieldNames, ih]
    rfl

theorem paramNames_eq (params : List (Option TypeExpr)) :
    paramNames params = params.flatMap resultNames := by
  induction params with
  | nil => rfl
  | cons type rest ih =>
    rw [paramNames, ih]
    rfl

theorem names_contract (members : List Requirement) (span : Span) :
    (contract members span).names = members.flatMap (·.names) := by
  rw [names]
  induction members with
  | nil => rfl
  | cons r rest ih =>
    rw [requirementNames, ih]
    cases r with
    | method name params result =>
      rw [requirementNamesOf, paramNames_eq]
      rfl
    | getter name result => rfl

end TypeExpr

/-- The names in the head of a function. -/
def FunctionOf.names {σ : Type} (f : FunctionOf σ) : List Name :=
  f.name :: f.typeParams.flatMap (·.names) ++ f.receiver.toList ++ f.params.flatMap (·.names) ++
    TypeExpr.resultNames f.result

def GetterOf.names {σ : Type} (g : GetterOf σ) : List Name :=
  declaredNames g.name (some g.result)

/-- The names of a statement that are in none of its expressions and in no statement inside it. -/
def Stmt.names : Stmt → List Name
  | varDecl decl => decl.names
  | varDecls decls => decls.flatMap (·.names)
  | function f => f.names
  | forLoop _ label _ _ _ _ | leave _ label _ | skip _ label _ => label.toList
  | forIn _ label index value _ _ | forRange _ label index value _ _ =>
    label.toList ++ index.toList ++ [value]
  | typeDecl name params definition => name :: params.flatMap (·.names) ++ definition.names
  | fulfill contract target methods getters =>
    contract :: target :: methods.flatMap (·.names) ++ getters.flatMap (·.names)
  | _ => []

/-! ### Expressions in a text -/

/-- The texts of the expressions in the literal that a span of the text takes, in order. -/
def Span.holes (text : String) (s : Span) : List String :=
  (Piece.split (Token.textOf .text (s.slice text)).toList).filterMap (·.hole?)

namespace Expr

/-- The names of an expression that are in none of its parts. -/
def names : Expr → List Name
  | var name | field _ name _ => [name]
  | object struct typeArgs properties _ =>
    struct.toList ++ typeArgs.flatMap (·.names) ++ properties.map (·.1)
  | _ => []

/-- The parts of an expression that are written in the same text. -/
def operands : Expr → List Expr
  | text _ _ _ _ => []
  | e => e.parts

/-- The expressions in a literal of the text, each with the text that it is written in. -/
def holes (source : String) : Expr → List (String × Expr)
  | text _ _ holes span => (span.holes source).zip holes
  | _ => []

/-- The token is the first of those that the expression is written with, but for parentheses around
it. -/
def StartsWith (t : Token) : Expr → Prop
  | assign first _ | binary _ first _ | member first _ _ _ | call first _ _ =>
    first.StartsWith t
  | unary op _ span => UnaryOp.ofKind? t.kind = some op ∧ t.span.start = span.start
  | var name | object (some name) _ _ _ => t.kind = .identifier ∧ t.name = name
  | number value span =>
    t.kind = .number ∧ Number.Decimal.ofText? t.text = some value ∧ t.span = span
  | text _ _ _ span => t.kind = .text ∧ t.span = span
  | array _ span => t.kind = .symbol .openBracket ∧ t.span.start = span.start
  | object none _ _ span => t.kind = .symbol .openBrace ∧ t.span.start = span.start

/-- An expression says where its first token stands. -/
theorem StartsWith.start_eq {t t' : Token} : ∀ {e : Expr}, e.StartsWith t → e.StartsWith t' →
    t.span.start = t'.span.start
  | assign first _, h, h' => start_eq (e := first) h h'
  | binary _ first _, h, h' => start_eq (e := first) h h'
  | member first _ _ _, h, h' => start_eq (e := first) h h'
  | call first _ _, h, h' => start_eq (e := first) h h'
  | unary _ _ _, h, h' => h.2.trans h'.2.symm
  | array _ _, h, h' => h.2.trans h'.2.symm
  | object none _ _ _, h, h' => h.2.trans h'.2.symm
  | var _, h, h' => congrArg (·.span.start) (h.2.trans h'.2.symm)
  | object (some _) _ _ _, h, h' => congrArg (·.span.start) (h.2.trans h'.2.symm)
  | number _ _, h, h' => congrArg (·.start) (h.2.2.trans h'.2.2.symm)
  | text _ _ _ _, h, h' => congrArg (·.start) (h.2.trans h'.2.symm)

/-- The expression starts where its first token stands in the text. -/
def StartsIn (text : String) (e : Expr) : Prop :=
  ∃ t : Token, t.Cut Kind.written text ∧ e.StartsWith t ∧ t.span.start = e.span.start

/-- The expression is written in the text at its place, and so is every literal in it with the texts
of all its expressions. -/
structure Stands (text : String) (e : Expr) : Prop where
  names : Stand text e.names
  start : e.StartsIn text
  parts : e.parts = e.operands ++ (e.holes text).map (·.2)

/-- The expression is well-formed and stands in the text it is written in, with all that is inside it. -/
inductive Sound : (text : String) → (e : Expr) → Prop
  | intro {text : String} {e : Expr} (stands : e.Stands text) (made : e.wellMade = true)
      (types : ∀ t ∈ e.annotations, t.Proper) (operands : ∀ e' ∈ e.operands, Sound text e')
      (holes : ∀ x ∈ e.holes text, Sound x.1 x.2) : Sound text e

theorem StartsIn.of_eq {text : String} {e e' : Expr} (h : e.StartsIn text)
    (hw : ∀ t, e.StartsWith t → e'.StartsWith t) (hs : e'.span.start = e.span.start) :
    e'.StartsIn text := by
  obtain ⟨t, hcut, hstarts, hstart⟩ := h
  exact ⟨t, hcut, hw t hstarts, hstart.trans hs.symm⟩

namespace Sound

variable {text : String} {e : Expr}

theorem stands (h : e.Sound text) : e.Stands text := by
  cases h with
  | intro stands _ _ _ _ => exact stands

theorem operand (h : e.Sound text) {e' : Expr} (he : e' ∈ e.operands) : e'.Sound text := by
  cases h with
  | intro _ _ _ operands _ => exact operands e' he

theorem hole (h : e.Sound text) {x : String × Expr} (hx : x ∈ e.holes text) : x.2.Sound x.1 := by
  cases h with
  | intro _ _ _ _ holes => exact holes x hx

/-- An expression that is no literal. -/
theorem of_operands (hn : Stand text e.names) (hs : e.StartsIn text) (hm : e.wellMade = true)
    (hh : e.holes text = []) (hp : e.parts = e.operands) (h : ∀ e' ∈ e.parts, e'.Sound text)
    (ht : ∀ t ∈ e.annotations, t.Proper) : e.Sound text := by
  refine ⟨⟨hn, hs, ?_⟩, hm, ht, fun e' he => h e' (hp ▸ he), fun x hx => ?_⟩
  · rw [hh, List.map_nil, List.append_nil, hp]
  · rw [hh] at hx
    exact absurd hx List.not_mem_nil

theorem proper (h : e.Sound text) : e.Proper := by
  induction h with
  | intro stands made types _ _ operands holes =>
    refine ⟨⟨made, types⟩, fun e' he => ?_⟩
    rw [stands.parts] at he
    rcases List.mem_append.1 he with he | he
    · exact operands e' he
    · obtain ⟨x, hx, rfl⟩ := List.mem_map.1 he
      exact holes x hx

end Sound

end Expr

/-! ### Statements in a text -/

/-- The statement is well-formed and stands in the text, with all that is inside it. -/
abbrev Stmt.Sound (text : String) : Stmt → Prop :=
  Stmt.All (fun s => Stand text s.names ∧ s.WellMade) (Expr.Sound text)

theorem Stmt.Sound.proper {text : String} {s : Stmt} (h : s.Sound text) : s.Proper :=
  h.imp (fun _ h => h.2) fun _ h => h.proper

/-- The expression is one of the program, written in `text`: in the source, or in a hole of a literal
that is written in another such text. -/
inductive Holds (body : List Stmt) (source : String) : (text : String) → (e : Expr) → Prop
  | stmt {loops : List Enclosing} {s : Stmt} {e : Expr} (hs : Within body loops s)
      (he : e ∈ s.exprs) : Holds body source source e
  | fallback {loops : List Enclosing} {s : Stmt} {f : Function} {p : Param} {e : Expr}
      (hs : Within body loops s) (hf : f ∈ s.functions) (hp : p ∈ f.params) (he : e ∈ p.fallback) :
      Holds body source source e
  | operand {text : String} {e e' : Expr} (h : Holds body source text e) (he : e' ∈ e.operands) :
      Holds body source text e'
  | hole {text : String} {e : Expr} {x : String × Expr} (h : Holds body source text e)
      (hx : x ∈ e.holes text) : Holds body source x.1 x.2

/-- Where all statements are sound in the source, every expression is in the text it is written in. -/
theorem Holds.sound {body : List Stmt} {source text : String} {e : Expr}
    (h : ∀ s ∈ body, s.Sound source) (he : Holds body source text e) : e.Sound text := by
  induction he with
  | stmt hs he => exact (Stmt.All.within h hs).expr he
  | fallback hs hf hp he => exact (Stmt.All.within h hs).fallback hf hp he
  | operand _ he ih => exact ih.operand he
  | hole _ hx ih => exact ih.hole hx

end Sable
