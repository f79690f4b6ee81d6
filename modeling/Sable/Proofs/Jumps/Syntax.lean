import Sable.Program

/-!
# Loops and jumps in a program

`Within`: a statement stands in a program with the given loops around it in its function. `Targets`
picks the loop of a jump, the innermost one or the innermost with its label, and `Stmt.Bound` says that
the jump carries its number. `Stmt.Spelled` lists loops and functions in the order of the source.
-/

namespace Sable

namespace Stmt

/-- The statements directly inside one of the same function, each with the loops around it,
innermost first. -/
def parts (loops : List Enclosing) : Stmt → List (List Enclosing × Stmt)
  | ifElse branches otherwise =>
    ((branches.map (·.2)).flatten ++ otherwise.getD []).map fun s => (loops, s)
  | whileLoop id _ body => body.map fun s => (⟨id, none⟩ :: loops, s)
  | forLoop id label init _ _ body =>
    init.toList.map (fun s => (loops, s)) ++
      body.map fun s => (⟨id, label.map (·.text)⟩ :: loops, s)
  | forIn id label _ _ _ body | forRange id label _ _ _ body =>
    body.map fun s => (⟨id, label.map (·.text)⟩ :: loops, s)
  | _ => []

/-- The bodies of the functions, methods and getters that a statement declares. -/
def bodies : Stmt → List (List Stmt)
  | function f => [f.body]
  | fulfill _ _ methods getters => methods.map (·.body) ++ getters.map (·.body)
  | _ => []

/-- The loop that a jump leaves or continues, and the label that it gives. -/
def jump? : Stmt → Option (Nat × Option Name)
  | leave id label _ | skip id label _ => some (id, label)
  | _ => none

/-- Holds no other statement. -/
def isSimple : Stmt → Bool
  | varDecl _ | varDecls _ | ret _ _ | leave _ _ _ | skip _ _ _ | typeDecl _ _ _ | expr _ => true
  | _ => false

end Stmt

/-- `t` stands in the program `body`, with `loops` around it in its function. -/
inductive Within (body : List Stmt) : (loops : List Enclosing) → (t : Stmt) → Prop
  | top {s : Stmt} (h : s ∈ body) : Within body [] s
  | part {loops : List Enclosing} {s : Stmt} {x : List Enclosing × Stmt} (hs : Within body loops s)
      (h : x ∈ s.parts loops) : Within body x.1 x.2
  | body {loops : List Enclosing} {s t : Stmt} {b : List Stmt} (hs : Within body loops s)
      (h : b ∈ s.bodies) (ht : t ∈ b) : Within body [] t

/-- Among `loops`, innermost first, the one that a jump belongs to. -/
def Targets (loops : List Enclosing) : (label : Option Name) → (id : Nat) → Prop
  | none, id => ∃ loop outer, loops = loop :: outer ∧ loop.id = id
  | some label, id => ∃ inner loop outer, loops = inner ++ loop :: outer ∧ loop.id = id ∧
      loop.label = some label.text ∧ ∀ x ∈ inner, x.label ≠ some label.text

theorem Targets.mem {loops : List Enclosing} {label : Option Name} {id : Nat}
    (h : Targets loops label id) : ∃ loop ∈ loops, loop.id = id := by
  cases label with
  | none =>
    obtain ⟨loop, outer, rfl, hid⟩ := h
    exact ⟨loop, by simp, hid⟩
  | some label =>
    obtain ⟨inner, loop, outer, rfl, hid, -⟩ := h
    exact ⟨loop, by simp, hid⟩

theorem Reader.target_ok {loops : List Enclosing} {label : Option Name} {span : Span} {id : Nat}
    (h : Reader.target loops label span = .ok id) : Targets loops label id := by
  cases loops with
  | nil => cases label <;> cases h
  | cons inner outer =>
    cases label with
    | none =>
      cases h
      exact ⟨inner, outer, rfl, rfl⟩
    | some label =>
      simp only [target] at h
      split at h
      · rename_i loop hfind
        cases h
        obtain ⟨hlabel, before, after, hloops, hbefore⟩ := List.find?_eq_some_iff_append.1 hfind
        refine ⟨before, loop, after, hloops, rfl, by simpa using hlabel, fun x hx => ?_⟩
        simpa using hbefore x hx
      · cases h

/-- Every jump in a statement with `loops` around it belongs to the loop that it carries. -/
inductive Stmt.Bound : (loops : List Enclosing) → (s : Stmt) → Prop
  | intro {loops : List Enclosing} {s : Stmt}
      (jump : ∀ id label, s.jump? = some (id, label) → Targets loops label id)
      (parts : ∀ x ∈ s.parts loops, Bound x.1 x.2)
      (bodies : ∀ b ∈ s.bodies, ∀ t ∈ b, Bound [] t) : Bound loops s

namespace Stmt.Bound

variable {loops : List Enclosing} {s : Stmt}

theorem jump (h : Bound loops s) {id : Nat} {label : Option Name} (hj : s.jump? = some (id, label)) :
    Targets loops label id := by
  cases h with
  | intro jump _ _ => exact jump id label hj

theorem part (h : Bound loops s) {x : List Enclosing × Stmt} (hx : x ∈ s.parts loops) :
    Bound x.1 x.2 := by
  cases h with
  | intro _ parts _ => exact parts x hx

theorem body (h : Bound loops s) {b : List Stmt} (hb : b ∈ s.bodies) {t : Stmt} (ht : t ∈ b) :
    Bound [] t := by
  cases h with
  | intro _ _ bodies => exact bodies b hb t ht

theorem within {body : List Stmt} (h : ∀ s ∈ body, Bound [] s) {t : Stmt}
    (ht : Within body loops t) : Bound loops t := by
  induction ht with
  | top hs => exact h _ hs
  | part _ hx ih => exact ih.part hx
  | body _ hb ht ih => exact ih.body hb ht

end Stmt.Bound

/-! ### The order of the source -/

/-- A word of the source that starts a loop or names a function. -/
structure Mark where
  token : Token
  /-- The number of the loop. -/
  loop : Option Nat

/-- What fulfills a requirement of a contract. -/
abbrev MemberDecl := Function ⊕ Getter

namespace MemberDecl

def name : MemberDecl → Name :=
  Sum.elim (·.name) (·.name)

def body : MemberDecl → List Stmt :=
  Sum.elim (·.body) (·.body)

end MemberDecl

mutual

/-- The words that start the loops of a statement and name its functions, in the order of the
source. The methods and getters of a fulfillment may be mixed. -/
inductive Stmt.Spelled : Stmt → List Mark → Prop
  | simple {s : Stmt} (h : s.isSimple) : Stmt.Spelled s []
  | function {f : Function} {t : Token} {marks : List Mark} (hk : t.kind = .identifier)
      (hn : t.name = f.name) (h : SpelledAll f.body marks) :
      Stmt.Spelled (.function f) (⟨t, none⟩ :: marks)
  | ifElse {branches : List (Expr × List Stmt)} {otherwise : Option (List Stmt)} {marks : List Mark}
      (h : SpelledAll ((branches.map (·.2)).flatten ++ otherwise.getD []) marks) :
      Stmt.Spelled (.ifElse branches otherwise) marks
  | whileLoop {id : Nat} {condition : Expr} {body : List Stmt} {t : Token} {marks : List Mark}
      (hk : t.kind = .keyword .whileWord) (h : SpelledAll body marks) :
      Stmt.Spelled (.whileLoop id condition body) (⟨t, some id⟩ :: marks)
  | forLoop {id : Nat} {label : Option Name} {init : Option Stmt} {condition update : Option Expr}
      {body : List Stmt} {t : Token} {marks : List Mark} (hk : t.kind = .keyword .forWord)
      (h : SpelledAll (init.toList ++ body) marks) :
      Stmt.Spelled (.forLoop id label init condition update body) (⟨t, some id⟩ :: marks)
  | forIn {id : Nat} {label index : Option Name} {value : Name} {iterable : Expr}
      {body : List Stmt} {t : Token} {marks : List Mark} (hk : t.kind = .keyword .forWord)
      (h : SpelledAll body marks) :
      Stmt.Spelled (.forIn id label index value iterable body) (⟨t, some id⟩ :: marks)
  | forRange {id : Nat} {label index : Option Name} {value : Name} {range : RangeExpr}
      {body : List Stmt} {t : Token} {marks : List Mark} (hk : t.kind = .keyword .forWord)
      (h : SpelledAll body marks) :
      Stmt.Spelled (.forRange id label index value range body) (⟨t, some id⟩ :: marks)
  | fulfill {contract target : Name} {members : List MemberDecl} {marks : List Mark}
      (h : SpelledMembers members marks) :
      Stmt.Spelled (.fulfill contract target (members.filterMap (·.getLeft?))
        (members.filterMap (·.getRight?))) marks

inductive SpelledAll : List Stmt → List Mark → Prop
  | nil : SpelledAll [] []
  | cons {s : Stmt} {rest : List Stmt} {marks marks' : List Mark} (h : Stmt.Spelled s marks)
      (hr : SpelledAll rest marks') : SpelledAll (s :: rest) (marks ++ marks')

inductive SpelledMembers : List MemberDecl → List Mark → Prop
  | nil : SpelledMembers [] []
  | cons {m : MemberDecl} {rest : List MemberDecl} {t : Token} {marks marks' : List Mark}
      (hk : t.kind = .identifier) (hn : t.name = m.name) (h : SpelledAll m.body marks)
      (hr : SpelledMembers rest marks') : SpelledMembers (m :: rest) (⟨t, none⟩ :: marks ++ marks')

end

theorem SpelledAll.append {ss ss' : List Stmt} {marks marks' : List Mark} (h : SpelledAll ss marks)
    (h' : SpelledAll ss' marks') : SpelledAll (ss ++ ss') (marks ++ marks') := by
  induction ss generalizing marks with
  | nil =>
    cases h
    exact h'
  | cons s ss ih =>
    cases h with
    | cons hs hr =>
      rw [List.cons_append, List.append_assoc]
      exact .cons hs (ih hr)

/-- How loops and jumps are tied together in a program read from `tokens`. -/
structure LoopsBound (tokens : List Token) (body : List Stmt) : Prop where
  /-- In the order of the source the loops are numbered from one. -/
  numbered : ∃ (n : Nat) (marks : List Mark), SpelledAll body marks ∧
    (marks.map (·.token)).Sublist tokens ∧ marks.filterMap (·.loop) = List.range' 1 n
  /-- Every jump lies in the loop whose number it carries, which is the innermost one around it in
  its function, or the innermost with its label. -/
  targets : ∀ loops s, Within body loops s → ∀ id label, s.jump? = some (id, label) →
    Targets loops label id

end Sable
