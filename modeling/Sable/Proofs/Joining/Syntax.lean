import Sable.Proofs.Jumps.Syntax

/-!
# Loops and aliases of a program

`Stmt.loopCount` and `Stmt.aliases`: the loops and aliases in a list of statements, which reading the
list adds to what the grammar keeps. `Stmt.renumber k` adds `k` to the numbers of loops and jumps.
-/

namespace Sable

/-- An alias with the name that it stands for, if it stands for nothing but a name. -/
structure AliasDecl where
  name : String
  target : Option String
  deriving DecidableEq

/-- The name that an annotation is. -/
def TypeExpr.direct? : TypeExpr → Option String
  | named name => some name.text
  | _ => none

namespace Stmt

def isLoop : Stmt → Bool
  | whileLoop .. | forLoop .. | forIn .. | forRange .. => true
  | _ => false

def alias? : Stmt → Option AliasDecl
  | typeDecl name _ (.aliased target _) => some ⟨name.text, target.direct?⟩
  | _ => none

/-! ### All statements -/

mutual

/-- The statements inside a statement, at any depth. -/
def inside : Stmt → List Stmt
  | function decl => insideFunction decl
  | ifElse branches otherwise => insideBranches branches ++ insideElse otherwise
  | whileLoop _ _ body | forIn _ _ _ _ _ body | forRange _ _ _ _ _ body => all body
  | forLoop _ _ init _ _ body => insideInit init ++ all body
  | fulfill _ _ methods getters => insideFunctions methods ++ insideGetters getters
  | _ => []

/-- The statements of a list and those inside them. -/
def all : List Stmt → List Stmt
  | [] => []
  | s :: rest => s :: inside s ++ all rest

def insideElse : Option (List Stmt) → List Stmt
  | none => []
  | some body => all body

def insideInit : Option Stmt → List Stmt
  | none => []
  | some s => s :: inside s

def insideBranches : List (Expr × List Stmt) → List Stmt
  | [] => []
  | (_, body) :: rest => all body ++ insideBranches rest

def insideFunction : FunctionOf Stmt → List Stmt
  | ⟨_, _, _, _, _, body, _⟩ => all body

def insideFunctions : List (FunctionOf Stmt) → List Stmt
  | [] => []
  | f :: rest => insideFunction f ++ insideFunctions rest

def insideGetters : List (GetterOf Stmt) → List Stmt
  | [] => []
  | ⟨_, _, body⟩ :: rest => all body ++ insideGetters rest

end

theorem all_append (body body' : List Stmt) : all (body ++ body') = all body ++ all body' := by
  induction body with
  | nil => rfl
  | cons s rest ih => simp [all, ih]

theorem all_singleton (s : Stmt) : all [s] = s :: inside s := by
  simp [all]

theorem insideFunction_eq (f : Function) : insideFunction f = all f.body := by
  cases f
  rfl

theorem insideElse_eq (otherwise : Option (List Stmt)) :
    insideElse otherwise = all (otherwise.getD []) := by
  cases otherwise <;> rfl

theorem insideInit_eq (init : Option Stmt) : insideInit init = all init.toList := by
  cases init with
  | none => rfl
  | some s => exact (all_singleton s).symm

theorem insideBranches_eq (branches : List (Expr × List Stmt)) :
    insideBranches branches = all (branches.map (·.2)).flatten := by
  induction branches with
  | nil => rfl
  | cons branch rest ih => simp [insideBranches, all_append, ih]

theorem insideFunctions_eq (methods : List Function) :
    insideFunctions methods = all (methods.map (·.body)).flatten := by
  induction methods with
  | nil => rfl
  | cons f rest ih => simp [insideFunctions, insideFunction_eq, all_append, ih]

theorem insideGetters_eq (getters : List Getter) :
    insideGetters getters = all (getters.map (·.body)).flatten := by
  induction getters with
  | nil => rfl
  | cons g rest ih => simp [insideGetters, all_append, ih]

/-- The aliases declared in a list of statements, at any depth. -/
def aliases (body : List Stmt) : List AliasDecl :=
  (all body).filterMap alias?

/-- The number of loops in a list of statements, at any depth. -/
def loopCount (body : List Stmt) : Nat :=
  (all body).countP isLoop

theorem aliases_append (body body' : List Stmt) :
    aliases (body ++ body') = aliases body ++ aliases body' := by
  simp [aliases, all_append]

theorem append_subset_aliases {ds ds' : List AliasDecl} {body body' : List Stmt}
    (h : ds ⊆ aliases body) (h' : ds' ⊆ aliases body') : ds ++ ds' ⊆ aliases (body ++ body') := by
  rw [aliases_append]
  exact List.append_subset.2 ⟨List.Subset.trans h (List.subset_append_left _ _),
    List.Subset.trans h' (List.subset_append_right _ _)⟩

/-- What is declared inside a statement is declared in it. -/
theorem aliases_of_inside {s : Stmt} {body : List Stmt} (h : inside s = all body) :
    aliases body ⊆ aliases [s] := by
  rw [aliases, aliases, ← h, all_singleton, List.filterMap_cons]
  split
  · exact List.Subset.refl _
  · exact List.subset_cons_self _ _

theorem loopCount_append (body body' : List Stmt) :
    loopCount (body ++ body') = loopCount body + loopCount body' := by
  simp [loopCount, all_append]

theorem loopCount_of_loop {s : Stmt} (h : s.isLoop) :
    loopCount [s] = (inside s).countP isLoop + 1 := by
  rw [loopCount, all_singleton, List.countP_cons_of_pos h]

theorem loopCount_of_not_loop {s : Stmt} (h : s.isLoop = false) :
    loopCount [s] = (inside s).countP isLoop := by
  rw [loopCount, all_singleton, List.countP_cons_of_neg (by simp [h])]

theorem loopCount_of_simple {s : Stmt} (h : s.isSimple) : loopCount [s] = 0 := by
  have hs : s.isLoop = false ∧ inside s = [] := by
    cases s <;> first | exact ⟨rfl, rfl⟩ | cases h
  rw [loopCount_of_not_loop hs.1, hs.2, List.countP_nil]

/-- The loops of the members of a fulfillment, however methods and getters are mixed. -/
theorem loopCount_fulfill (contract target : Name) (members : List MemberDecl) :
    loopCount [fulfill contract target (members.filterMap (·.getLeft?))
      (members.filterMap (·.getRight?))] = loopCount (members.map MemberDecl.body).flatten := by
  rw [loopCount_of_not_loop rfl, inside, insideFunctions_eq, insideGetters_eq, List.countP_append]
  show loopCount _ + loopCount _ = _
  induction members with
  | nil => rfl
  | cons m rest ih =>
    rw [List.map_cons, List.flatten_cons, loopCount_append, ← ih]
    cases m with
    | inl f =>
      rw [List.filterMap_cons_some (f := Sum.getLeft?) rfl, List.filterMap_cons_none rfl,
        List.map_cons, List.flatten_cons, loopCount_append, Nat.add_assoc]
      rfl
    | inr g =>
      rw [List.filterMap_cons_none rfl, List.filterMap_cons_some (f := Sum.getRight?) rfl,
        List.map_cons, List.flatten_cons, loopCount_append, Nat.add_left_comm]
      rfl

/-! ### Renumbering -/

mutual

/-- The statement with `k` added to the number of every loop, on the loop and on its jumps. -/
def renumber (k : Nat) : Stmt → Stmt
  | varDecl decl => varDecl decl
  | varDecls decls => varDecls decls
  | function decl => function (renumberFunction k decl)
  | ret value span => ret value span
  | ifElse branches otherwise => ifElse (renumberBranches k branches) (renumberElse k otherwise)
  | whileLoop id condition body => whileLoop (id + k) condition (renumberAll k body)
  | forLoop id label init condition update body =>
    forLoop (id + k) label (renumberInit k init) condition update (renumberAll k body)
  | forIn id label index value iterable body =>
    forIn (id + k) label index value iterable (renumberAll k body)
  | forRange id label index value range body =>
    forRange (id + k) label index value range (renumberAll k body)
  | leave id label span => leave (id + k) label span
  | skip id label span => skip (id + k) label span
  | typeDecl name params definition => typeDecl name params definition
  | fulfill contract target methods getters =>
    fulfill contract target (renumberFunctions k methods) (renumberGetters k getters)
  | expr value => expr value

def renumberAll (k : Nat) : List Stmt → List Stmt
  | [] => []
  | s :: rest => renumber k s :: renumberAll k rest

def renumberElse (k : Nat) : Option (List Stmt) → Option (List Stmt)
  | none => none
  | some body => some (renumberAll k body)

def renumberInit (k : Nat) : Option Stmt → Option Stmt
  | none => none
  | some s => some (renumber k s)

def renumberBranches (k : Nat) : List (Expr × List Stmt) → List (Expr × List Stmt)
  | [] => []
  | (condition, body) :: rest => (condition, renumberAll k body) :: renumberBranches k rest

def renumberFunction (k : Nat) : FunctionOf Stmt → FunctionOf Stmt
  | ⟨name, typeParams, receiver, params, result, body, span⟩ =>
    ⟨name, typeParams, receiver, params, result, renumberAll k body, span⟩

def renumberFunctions (k : Nat) : List (FunctionOf Stmt) → List (FunctionOf Stmt)
  | [] => []
  | f :: rest => renumberFunction k f :: renumberFunctions k rest

def renumberGetters (k : Nat) : List (GetterOf Stmt) → List (GetterOf Stmt)
  | [] => []
  | ⟨name, result, body⟩ :: rest => ⟨name, result, renumberAll k body⟩ :: renumberGetters k rest

end

mutual

theorem renumber_zero : ∀ s : Stmt, renumber 0 s = s
  | varDecl _ | varDecls _ | ret _ _ | leave _ _ _ | skip _ _ _ | typeDecl _ _ _ | expr _ => rfl
  | function decl => by rw [renumber, renumberFunction_zero]
  | ifElse branches otherwise => by rw [renumber, renumberBranches_zero, renumberElse_zero]
  | whileLoop _ _ body => by rw [renumber, renumberAll_zero, Nat.add_zero]
  | forLoop _ _ init _ _ body => by rw [renumber, renumberInit_zero, renumberAll_zero, Nat.add_zero]
  | forIn _ _ _ _ _ body => by rw [renumber, renumberAll_zero, Nat.add_zero]
  | forRange _ _ _ _ _ body => by rw [renumber, renumberAll_zero, Nat.add_zero]
  | fulfill _ _ methods getters => by rw [renumber, renumberFunctions_zero, renumberGetters_zero]

theorem renumberAll_zero : ∀ body : List Stmt, renumberAll 0 body = body
  | [] => rfl
  | s :: rest => by rw [renumberAll, renumber_zero, renumberAll_zero]

theorem renumberElse_zero : ∀ otherwise : Option (List Stmt), renumberElse 0 otherwise = otherwise
  | none => rfl
  | some body => by rw [renumberElse, renumberAll_zero]

theorem renumberInit_zero : ∀ init : Option Stmt, renumberInit 0 init = init
  | none => rfl
  | some s => by rw [renumberInit, renumber_zero]

theorem renumberBranches_zero : ∀ branches : List (Expr × List Stmt),
    renumberBranches 0 branches = branches
  | [] => rfl
  | (_, body) :: rest => by rw [renumberBranches, renumberAll_zero, renumberBranches_zero]

theorem renumberFunction_zero : ∀ f : FunctionOf Stmt, renumberFunction 0 f = f
  | ⟨_, _, _, _, _, body, _⟩ => by rw [renumberFunction, renumberAll_zero]

theorem renumberFunctions_zero : ∀ fs : List (FunctionOf Stmt), renumberFunctions 0 fs = fs
  | [] => rfl
  | f :: rest => by rw [renumberFunctions, renumberFunction_zero, renumberFunctions_zero]

theorem renumberGetters_zero : ∀ gs : List (GetterOf Stmt), renumberGetters 0 gs = gs
  | [] => rfl
  | ⟨_, _, body⟩ :: rest => by rw [renumberGetters, renumberAll_zero, renumberGetters_zero]

end

theorem renumberAll_eq (k : Nat) (body : List Stmt) : renumberAll k body = body.map (renumber k) := by
  induction body with
  | nil => rfl
  | cons s rest ih => rw [renumberAll, ih, List.map_cons]

/-- A simple statement that is no jump carries no number. -/
theorem renumber_of_simple {s : Stmt} (k : Nat) (hs : s.isSimple) (hj : s.jump? = none) :
    renumber k s = s := by
  cases s <;> simp [isSimple, jump?, renumber] at hs hj ⊢

/-- A method or getter with its loops and jumps renumbered. -/
def renumberMember (k : Nat) : MemberDecl → MemberDecl :=
  Sum.map (renumberFunction k) fun getter => { getter with body := renumberAll k getter.body }

theorem renumberMember_left (k : Nat) (members : List MemberDecl) :
    (members.map (renumberMember k)).filterMap (·.getLeft?) =
      renumberFunctions k (members.filterMap (·.getLeft?)) := by
  induction members with
  | nil => rfl
  | cons m rest ih =>
    cases m with
    | inl f => exact congrArg _ ih
    | inr g => exact ih

theorem renumberMember_right (k : Nat) (members : List MemberDecl) :
    (members.map (renumberMember k)).filterMap (·.getRight?) =
      renumberGetters k (members.filterMap (·.getRight?)) := by
  induction members with
  | nil => rfl
  | cons m rest ih =>
    cases m with
    | inl f => exact ih
    | inr g => exact congrArg _ ih

/-- What the members of a fulfillment declare, it declares. -/
theorem aliases_fulfill (contract target : Name) (members : List MemberDecl) :
    aliases (members.map MemberDecl.body).flatten ⊆
      aliases [fulfill contract target (members.filterMap (·.getLeft?))
        (members.filterMap (·.getRight?))] := by
  refine List.Subset.trans ?_ (aliases_of_inside (by
    rw [inside, insideFunctions_eq, insideGetters_eq, ← all_append]))
  rw [aliases_append]
  induction members with
  | nil => exact List.nil_subset _
  | cons m rest ih =>
    intro d hd
    rw [List.map_cons, List.flatten_cons, aliases_append, List.mem_append] at hd
    have hrest := fun h => List.mem_append.1 (@ih d h)
    rw [List.mem_append]
    cases m with
    | inl f =>
      rw [List.filterMap_cons_some (f := Sum.getLeft?) rfl, List.filterMap_cons_none rfl,
        List.map_cons, List.flatten_cons, aliases_append, List.mem_append, or_assoc]
      exact hd.imp_right hrest
    | inr g =>
      rw [List.filterMap_cons_none rfl, List.filterMap_cons_some (f := Sum.getRight?) rfl,
        List.map_cons, List.flatten_cons, aliases_append, List.mem_append, or_left_comm]
      exact hd.imp_right hrest

end Stmt

/-! ### The number of loops -/

open Stmt

mutual

/-- A loop is written by one word that starts a loop. -/
theorem Stmt.Spelled.length_loops : ∀ {s : Stmt} {marks : List Mark}, s.Spelled marks →
    (marks.filterMap (·.loop)).length = loopCount [s]
  | _, _, .simple h => (loopCount_of_simple h).symm
  | _, _, .function _ _ h => by
    rw [loopCount_of_not_loop rfl, inside, insideFunction_eq, ← loopCount, ← h.length_loops]
    rfl
  | _, _, .ifElse h => by
    rw [loopCount_of_not_loop rfl, inside, insideBranches_eq, insideElse_eq, ← all_append,
      ← loopCount, h.length_loops]
  | _, _, .whileLoop _ h => by
    rw [loopCount_of_loop rfl, inside, ← loopCount, ← h.length_loops]
    rfl
  | _, _, .forLoop _ h => by
    rw [loopCount_of_loop rfl, inside, insideInit_eq, ← all_append, ← loopCount, ← h.length_loops]
    rfl
  | _, _, .forIn _ h => by
    rw [loopCount_of_loop rfl, inside, ← loopCount, ← h.length_loops]
    rfl
  | _, _, .forRange _ h => by
    rw [loopCount_of_loop rfl, inside, ← loopCount, ← h.length_loops]
    rfl
  | _, _, .fulfill h => by
    rw [loopCount_fulfill, h.length_loops]

theorem SpelledAll.length_loops : ∀ {body : List Stmt} {marks : List Mark}, SpelledAll body marks →
    (marks.filterMap (·.loop)).length = loopCount body
  | _, _, .nil => rfl
  | s :: rest, _, .cons h hr => by
    have hsplit := loopCount_append [s] rest
    rw [List.filterMap_append, List.length_append, h.length_loops, hr.length_loops, ← hsplit]
    rfl

theorem SpelledMembers.length_loops : ∀ {members : List MemberDecl} {marks : List Mark},
    SpelledMembers members marks →
    (marks.filterMap (·.loop)).length = loopCount (members.map MemberDecl.body).flatten
  | _, _, .nil => rfl
  | _, _, .cons _ _ h hr => by
    rw [List.map_cons, List.flatten_cons, loopCount_append, ← h.length_loops, ← hr.length_loops,
      ← List.length_append, ← List.filterMap_append]
    rfl

end

end Sable
