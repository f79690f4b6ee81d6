import Sable.Proofs.Forms.Statements
import Sable.Proofs.Values.Nesting

/-!
# Aliases do not chain

`Ty.Unchained`: no alias in a type has an alias for its target. `CodeLaw.unchained` keeps all types in a
store (`Store.Stores`) unchained: a declaration checks the target of its alias, and every other type
copies types or builds other forms around them. `Program.AliasFree`: aliases are defined by declarations
only, as in every program that was read.
-/

namespace Sable

/-! ### Types inside types -/

/-- The types that a signature names. -/
def SignatureOf.types {τ : Type} : SignatureOf τ → List τ
  | method _ params result => params ++ [result]
  | getter _ result => [result]

namespace Ty

/-- The types that a type is made of. -/
def components : Ty → List Ty
  | primitive _ => []
  | struct _ params members => params.filterMap (·.bound) ++ members.map (·.type)
  | aliased _ target => [target]
  | generic _ args => args
  | union members => members
  | array element => [element]
  | param _ bound => bound.toList
  | function params result => params ++ result.toList
  | contract _ members => members.flatMap SignatureOf.types

def isAlias : Ty → Bool
  | aliased .. => true
  | _ => false

/-- One step behind an alias. -/
def peeled : Ty → Ty
  | aliased _ target => target
  | type => type

/-- No alias is reached from a type, at any depth, that has an alias for its target. -/
inductive Unchained : Ty → Prop
  | intro {t : Ty} (direct : t.isAlias = true → t.peeled.isAlias = false)
      (components : ∀ u ∈ t.components, Unchained u) : Unchained t

namespace Unchained

variable {t : Ty}

theorem direct (h : t.Unchained) (ht : t.isAlias = true) : t.peeled.isAlias = false := by
  cases h with
  | intro direct _ => exact direct ht

theorem part (h : t.Unchained) {u : Ty} (hu : u ∈ t.components) : u.Unchained := by
  cases h with
  | intro _ components => exact components u hu

/-- Of a type that is no alias only the parts count. -/
theorem of_components (ht : t.isAlias = false) (h : ∀ u ∈ t.components, u.Unchained) : t.Unchained :=
  .intro (fun h => by rw [ht] at h; cases h) h

theorem primitive (p : Primitive) : (Ty.primitive p).Unchained :=
  .of_components rfl (by simp [components])

/-- One step is enough. -/
theorem unaliased_eq (h : t.Unchained) : t.unaliased = t.peeled := by
  cases t with
  | aliased name target =>
    have hdirect := h.direct rfl
    cases target with
    | aliased => cases hdirect
    | _ => rfl
  | _ => rfl

end Unchained

end Ty

/-! ### Annotations -/

/-- The annotations directly inside an annotation or a definition. -/
def TypeExpr.components : TypeExpr → List TypeExpr
  | word .. | named _ => []
  | generic _ args => args
  | union members _ => members
  | array element _ => [element]
  | function params result _ => params ++ result.toList
  | struct fields _ => fields.map (·.type)
  | contract members _ => members.flatMap (·.annotations)
  | aliased target _ => [target]

/-- The annotation is no definition of an alias, and none is inside it. -/
inductive TypeExpr.AliasFree : TypeExpr → Prop
  | intro {e : TypeExpr} (own : ∀ target span, e ≠ .aliased target span)
      (components : ∀ t ∈ e.components, AliasFree t) : AliasFree e

theorem TypeExpr.Proper.aliasFree {e : TypeExpr} (h : e.Proper) : e.AliasFree := by
  induction h with
  | word _ | named _ => exact ⟨by rintro _ _ ⟨⟩, by simp [components]⟩
  | generic _ _ hargs => exact ⟨by rintro _ _ ⟨⟩, hargs⟩
  | union _ _ hmembers => exact ⟨by rintro _ _ ⟨⟩, hmembers⟩
  | array _ helement => exact ⟨by rintro _ _ ⟨⟩, List.forall_mem_singleton.2 helement⟩
  | function _ _ hparams hresult =>
    exact ⟨by rintro _ _ ⟨⟩, List.forall_mem_append.2 ⟨hparams, by simpa using hresult⟩⟩

namespace Store

/-- The declared types are unchained, whatever scopes they are looked for in. -/
def Unchained (s : Store) : Prop :=
  ∀ env name t, s.type? env name = some t → t.Unchained

variable {s : Store} {env : Env} {subst : Subst}

/-- The types of parameters without an annotation are dynamic. -/
theorem of_evalTypesD {es : List (Option TypeExpr)} {ts : List Ty}
    (h : s.evalTypesD env subst es = .ok ts) :
    ∀ t ∈ ts, t = .dynamic ∨ ∃ e ∈ es.filterMap id, s.evalType env subst e = .ok t := by
  induction es generalizing ts with
  | nil =>
    cases h
    simp
  | cons e es ih =>
    obtain ⟨t, ht, h⟩ := ok_of_bind h
    obtain ⟨ts, hts, h⟩ := ok_of_bind h
    cases h
    refine List.forall_mem_cons.2 ⟨?_, fun u hu => ?_⟩
    · cases e with
      | none =>
        cases ht
        exact .inl rfl
      | some e => exact .inr ⟨e, by simp, ht⟩
    · refine (ih hts u hu).imp_right fun ⟨e', he', hu⟩ => ⟨e', ?_, hu⟩
      exact ((List.sublist_cons_self e es).filterMap id).subset he'

/-- The types in a signature are dynamic, or what an annotation of the requirement stands for. -/
theorem of_evalRequirement {r : Requirement} {signature : Signature}
    (h : s.evalRequirement env subst r = .ok signature) :
    ∀ t ∈ signature.types, t = .dynamic ∨ ∃ e ∈ r.annotations, s.evalType env subst e = .ok t := by
  cases r with
  | method name params result =>
    obtain ⟨ts, hts, h⟩ := ok_of_bind h
    obtain ⟨t, ht, h⟩ := ok_of_bind h
    cases h
    refine List.forall_mem_append.2 ⟨fun u hu => ?_, List.forall_mem_singleton.2 ?_⟩
    · refine (of_evalTypesD hts u hu).imp_right fun ⟨e, he, hu⟩ => ⟨e, ?_, hu⟩
      exact List.mem_append_left _ he
    · cases result with
      | none =>
        cases ht
        exact .inl rfl
      | some e => exact .inr ⟨e, by simp [RequirementOf.annotations], ht⟩
  | getter name result =>
    obtain ⟨t, ht, h⟩ := ok_of_bind h
    cases h
    exact List.forall_mem_singleton.2 (.inr ⟨result, List.mem_singleton_self _, ht⟩)

theorem of_evalRequirements {rs : List Requirement} {signatures : List Signature}
    (h : s.evalRequirements env subst rs = .ok signatures) :
    ∀ t ∈ signatures.flatMap SignatureOf.types, t = .dynamic ∨
      ∃ e ∈ rs.flatMap (·.annotations), s.evalType env subst e = .ok t := by
  induction rs generalizing signatures with
  | nil =>
    cases h
    simp
  | cons r rs ih =>
    obtain ⟨signature, hsignature, h⟩ := ok_of_bind h
    obtain ⟨rest, hrest, h⟩ := ok_of_bind h
    cases h
    rw [List.flatMap_cons, List.flatMap_cons]
    refine List.forall_mem_append.2 ⟨fun t ht => ?_, fun t ht => ?_⟩
    · exact (of_evalRequirement hsignature t ht).imp_right fun ⟨e, he, ht⟩ =>
        ⟨e, List.mem_append_left _ he, ht⟩
    · exact (ih hrest t ht).imp_right fun ⟨e, he, ht⟩ => ⟨e, List.mem_append_right _ he, ht⟩

/-- What an annotation stands for is no alias unless it is one that was declared, and its parts are what
the annotations inside it stand for. -/
theorem evalType_unchained (hs : s.Unchained) (hsubst : ∀ p ∈ subst, p.2.Unchained) {e : TypeExpr}
    (he : e.AliasFree) {t : Ty} (h : s.evalType env subst e = .ok t) : t.Unchained := by
  induction he generalizing t with
  | @intro e own _ ih =>
    have hlist {es : List TypeExpr} (hes : es ⊆ e.components) {ts : List Ty}
        (hts : s.evalTypes env subst es = .ok ts) : ∀ t ∈ ts, t.Unchained := by
      intro t ht
      obtain ⟨e', he', ht'⟩ := (exists_of_evalTypes hts).2 t ht
      exact ih e' (hes he') ht'
    have hform := of_evalType h
    cases e with
    | word text span =>
      obtain ⟨type, -, rfl⟩ := hform
      exact .primitive type
    | named name =>
      rcases hform with ⟨p, hp, rfl⟩ | htype
      · exact hsubst p hp
      · exact hs _ _ _ htype
    | generic name args =>
      obtain ⟨base, ts, hts, rfl⟩ := hform
      exact .of_components rfl (hlist (List.Subset.refl _) hts)
    | union members span =>
      obtain ⟨ts, hts, rfl⟩ := hform
      exact .of_components rfl (hlist (List.Subset.refl _) hts)
    | array element span =>
      obtain ⟨u, hu, rfl⟩ := hform
      exact .of_components rfl (List.forall_mem_singleton.2 (ih element List.mem_cons_self hu))
    | function params result span =>
      obtain ⟨ts, u, hts, hu, rfl⟩ := hform
      refine .of_components rfl
        (List.forall_mem_append.2 ⟨hlist (List.subset_append_left _ _) hts, ?_⟩)
      cases result with
      | none =>
        cases hu
        simp
      | some e =>
        obtain ⟨t, ht, hu⟩ := ok_of_bind hu
        cases hu
        exact List.forall_mem_singleton.2 (ih e (by simp [TypeExpr.components]) ht)
    | struct fields span =>
      obtain ⟨members, hmembers, rfl⟩ := hform
      refine .of_components rfl (List.forall_mem_map.2 fun m hm => ?_)
      obtain ⟨f, hf, ht⟩ := exists_of_evalFields hmembers m hm
      exact ih f.type (List.mem_map_of_mem hf) ht
    | contract members span =>
      obtain ⟨signatures, hsignatures, rfl⟩ := hform
      refine .of_components rfl fun t ht => ?_
      rcases of_evalRequirements hsignatures t ht with rfl | ⟨e, he, ht⟩
      · exact .primitive .dynamic
      · exact ih e he ht
    | aliased target span => exact absurd rfl (own target span)

theorem param_unchained {name : String} {bound : Option Ty} (h : ∀ t ∈ bound, t.Unchained) :
    (Ty.param name bound).Unchained :=
  .of_components rfl (by simpa [Ty.components] using h)

/-- A parameter stands for itself. -/
theorem evalTypeParams_unchained (hs : s.Unchained) {params : List TypeParam}
    (hparams : ∀ e ∈ TypeParam.bounds params, e.AliasFree) {bounds : List Bound}
    (h : s.evalTypeParams env params = .ok (bounds, subst)) : ∀ p ∈ subst, p.2.Unchained :=
  (forall_of_evalTypeParams (fun he hsubst => evalType_unchained hs hsubst he) param_unchained (by simp)
    hparams h).2

/-- The target of an alias is checked, and a synonym is a copy. -/
theorem evalTypeDef_unchained (hs : s.Unchained) {name : String} {params : List TypeParam}
    (hparams : ∀ e ∈ TypeParam.bounds params, e.AliasFree) {d : TypeExpr}
    (hd : ∀ e ∈ d.annotations, e.AliasFree) (hstruct : ∀ fields span, d ≠ .struct fields span) {t : Ty}
    (h : s.evalTypeDef env name params d = .ok t) : t.Unchained := by
  unfold evalTypeDef at h
  split at h
  · exact absurd rfl (hstruct _ _)
  · obtain ⟨⟨_, subst⟩, hsubst, h⟩ := ok_of_bind h
    obtain ⟨signatures, hsignatures, h⟩ := ok_of_bind h
    cases h
    have hsubst := evalTypeParams_unchained hs hparams hsubst
    refine .of_components rfl fun t ht => ?_
    rcases of_evalRequirements hsignatures t ht with rfl | ⟨e, he, ht⟩
    · exact .primitive .dynamic
    · exact evalType_unchained hs hsubst (hd e he) ht
  · obtain ⟨⟨_, subst⟩, hsubst, h⟩ := ok_of_bind h
    obtain ⟨target, htarget, h⟩ := ok_of_bind h
    have hunchained := evalType_unchained hs (evalTypeParams_unchained hs hparams hsubst)
      (hd _ List.mem_cons_self) htarget
    split at h
    · cases h
    · rename_i hne
      cases h
      -- the declaration has checked that the target is no alias itself
      refine .intro (fun _ => ?_) (List.forall_mem_singleton.2 hunchained)
      cases target with
      | aliased other u => exact absurd rfl (hne other u)
      | _ => rfl
  · rename_i hforms
    obtain ⟨⟨_, subst⟩, hsubst, h⟩ := ok_of_bind h
    have hown : d.AliasFree := hd d (by cases d <;> simp_all [TypeExpr.annotations])
    exact evalType_unchained hs (evalTypeParams_unchained hs hparams hsubst) hown h

theorem struct_unchained {name : String} {params : List Bound} {members : List Member}
    (hparams : ∀ p ∈ params, ∀ t ∈ p.bound, t.Unchained) (hmembers : ∀ m ∈ members, m.type.Unchained) :
    (Ty.struct name params members).Unchained := by
  refine .of_components rfl (List.forall_mem_append.2 ⟨fun t ht => ?_, List.forall_mem_map.2 hmembers⟩)
  obtain ⟨p, hp, ht⟩ := List.mem_filterMap.1 ht
  exact hparams p hp t ht

/-! ### Types of values -/

theorem arrayType_unchained {ts : List Ty} (h : ∀ t ∈ ts, t.Unchained) : (arrayType ts).Unchained := by
  have hmem : ∀ t ∈ distinct ts, t.Unchained := fun t ht => h t (mem_distinct.1 ht)
  unfold arrayType
  split
  · exact .of_components rfl (List.forall_mem_singleton.2 (.primitive .dynamic))
  · rename_i t heq
    exact .of_components rfl (List.forall_mem_singleton.2 (hmem t (by simp [heq])))
  · exact .of_components rfl (List.forall_mem_singleton.2 (.of_components rfl hmem))

/-- The only types that a value brings along are the arguments of instances. -/
theorem typeWithin_unchained (hargs : ∀ a, ∀ t ∈ (s.object a).typeArgs, t.Unchained) (depth : Nat)
    (seen : List Container) (v : Value) : (s.typeWithin depth seen v).Unchained := by
  induction depth generalizing seen v with
  | zero => exact .primitive .dynamic
  | succ depth ih =>
    cases v with
    | object a =>
      rw [typeWithin]
      split
      · exact .primitive .dynamic
      · have hobject := hargs a
        dsimp only
        split
        · rename_i heq
          rw [heq] at hobject
          exact .of_components rfl hobject
        · refine struct_unchained (by simp) (List.forall_mem_map.2 fun p _ => ih _ _)
    | array a =>
      rw [typeWithin]
      split
      · exact .primitive .dynamic
      · exact arrayType_unchained (List.forall_mem_map.2 fun v _ => ih _ v)
    | function f =>
      refine .of_components rfl (List.forall_mem_append.2 ⟨?_, by simp⟩)
      exact List.forall_mem_map.2 fun _ _ => .primitive .dynamic
    | _ => exact .primitive _

end Store

/-! ### Stores -/

/-- No annotation in the statement itself has the definition of an alias inside. -/
def Stmt.AliasFree (s : Stmt) : Prop :=
  ∀ t ∈ s.annotations, t.AliasFree

def Expr.AliasFree (e : Expr) : Prop :=
  ∀ t ∈ e.annotations, t.AliasFree

/-- Aliases are defined by declarations only, and nowhere inside an annotation. -/
def Program.AliasFree (p : Program) : Prop :=
  ∀ s ∈ p.body, s.All Stmt.AliasFree (Expr.All Expr.AliasFree)

theorem Program.IsParsed.aliasFree {p : Program} (h : p.IsParsed) : p.AliasFree := fun s hs =>
  (h.proper s hs).imp (fun _ h t ht => (h.types t ht).aliasFree)
    fun _ h => h.imp fun _ h t ht => (h.types t ht).aliasFree

/-- The law that the types of a store are unchained. -/
def CodeLaw.unchained : CodeLaw :=
  { within Stmt.AliasFree Expr.AliasFree TypeExpr.AliasFree (fun _ h => h) (fun _ h => h) with
    type := Ty.Unchained
    held := Ty.Unchained
    primitive := .primitive
    meant := fun he hs hsubst h => Store.evalType_unchained hs hsubst he h
    parameter := Store.param_unchained
    typed := fun v hargs => Store.typeWithin_unchained hargs _ _ v
    struct := Store.struct_unchained
    defined := fun hdecl hs hd h => by
      obtain ⟨hparams, hannotations⟩ := List.forall_mem_append.1 (List.forall_mem_append.1 hdecl.own).1
      exact Store.evalTypeDef_unchained hs hparams hannotations hd h }

/-- A type that is kept in a store: declared, recorded for a variable, as an argument of an instance or
as a value, or at any depth inside one of these. -/
inductive Store.Stores (s : Store) : Ty → Prop
  | declared {a : Nat} {name : String} {t : Ty} (h : (name, t) ∈ (s.scope a).types) : Stores s t
  | recorded {a : Nat} {name : String} {b : Binding} {t : Ty} (h : (name, b) ∈ (s.scope a).vars)
      (ht : b.type = some t) : Stores s t
  | argument {a : Nat} {t : Ty} (h : t ∈ (s.object a).typeArgs) : Stores s t
  | named {a : Nat} {name : String} {b : Binding} {t : Ty} (h : (name, b) ∈ (s.scope a).vars)
      (ht : b.value = .type t) : Stores s t
  | method {a : Nat} {key : String × String} {t : Ty} (h : (key, .type t) ∈ (s.scope a).methods) :
      Stores s t
  | getter {a : Nat} {key : String × String} {t : Ty} (h : (key, .type t) ∈ (s.scope a).getters) :
      Stores s t
  | property {a : Nat} {name : String} {t : Ty} (h : (name, .type t) ∈ (s.object a).properties) :
      Stores s t
  | element {a : Nat} {t : Ty} (h : .type t ∈ s.array a) : Stores s t
  | part {t u : Ty} (h : Stores s t) (hu : u ∈ t.components) : Stores s u

theorem Store.Stores.unchained {s : Store} (hs : s.Lawful .unchained) {t : Ty} (h : s.Stores t) :
    t.Unchained := by
  induction h with
  | declared h => exact (hs.scope _).types _ h
  | recorded h ht => exact (hs.scope _).recorded _ h _ ht
  | argument h => exact hs.typeArgs _ _ h
  | named h ht =>
    have hv := (hs.scope _).vars _ h
    rw [ht] at hv
    exact hv
  | method h => exact (hs.scope _).methods _ h
  | getter h => exact (hs.scope _).getters _ h
  | property h => exact hs.object _ _ h
  | element h => exact hs.array _ _ h
  | part _ hu ih => exact ih.part hu

/-- No alias in the store has an alias for its target, so `Ty.unaliased` takes off one alias at
most. -/
structure Store.Direct (s : Store) : Prop where
  target : ∀ name target, s.Stores (.aliased name target) → target.isAlias = false
  unaliased : ∀ t, s.Stores t → t.unaliased = t.peeled

theorem Store.Lawful.direct {s : Store} (hs : s.Lawful .unchained) : s.Direct where
  target _ _ h := (h.unchained hs).direct rfl
  unaliased _ h := (h.unchained hs).unaliased_eq

namespace Session

/-- Whatever programs are run in a session, one after another, as long as aliases are defined by
declarations only, as they are in all programs that were read: neither between the runs nor at any moment
of one is there an alias that has another alias for its target. -/
theorem aliases_never_chain :
    (∀ p : Program, p.IsParsed → p.AliasFree) ∧
    ∀ s : Session, s.Reached Program.AliasFree → s.store.Direct ∧
      ∀ cfg fuel p, p.AliasFree → ∀ x ∈ s.history cfg fuel p, x.machine.store.Direct := by
  have hlaw : ∀ p : Program, p.AliasFree → ∀ t ∈ p.body, CodeLaw.unchained.stmt t := fun _ h => h
  refine ⟨fun _ => Program.IsParsed.aliasFree, fun s hs => ⟨(hs.lawful hlaw).1.direct, ?_⟩⟩
  exact fun cfg fuel p hp x hx => (hs.moment_lawful hlaw hp hx).direct

/-- Runs sources one after another, whether they succeed or fail. -/
def runSources (cfg : Config) (fuel : Nat) : Session → List String → Option Session
  | s, [] => some s
  | s, source :: rest =>
    match Program.parse "main" source with
    | .ok p => (s.run cfg fuel p).bind fun answer => runSources cfg fuel answer.2 rest
    | .error _ => none

theorem reached_of_runSources {cfg : Config} {fuel : Nat} {sources : List String} {s s' : Session}
    (hs : Reached Program.IsParsed s) (h : s.runSources cfg fuel sources = some s') :
    Reached Program.IsParsed s' := by
  induction sources generalizing s with
  | nil =>
    cases h
    exact hs
  | cons source rest ih =>
    rw [runSources] at h
    split at h
    · rename_i p hp
      obtain ⟨⟨result, s₁⟩, hrun, hrest⟩ := Option.bind_eq_some_iff.1 h
      exact ih (.run hs ⟨_, source, hp⟩ hrun) hrest
    · cases h

end Session

/-- A type of the given name that is declared in some scope. -/
def Store.declares (s : Store) (name : String) (t : Ty) : Bool :=
  (List.range s.scopes.size).any fun a => (s.scope a).types.any fun p => p.1 == name && p.2.beq t

theorem Store.stores_of_declares {s : Store} {name : String} {t : Ty}
    (h : s.declares name t = true) : s.Stores t := by
  obtain ⟨a, -, h⟩ := List.any_eq_true.1 h
  obtain ⟨p, hp, h⟩ := List.any_eq_true.1 h
  have ht : p.2 = t := Ty.eq_of_beq (Bool.and_eq_true_iff.1 h).2
  exact ht ▸ .declared hp

/-- An alias and a synonym of it; in a later program, a struct with a member of the synonym and a
function with a second synonym and an alias around it; and a program that fails, since it takes a
synonym for the target of an alias. -/
def countSources : List String :=
  ["alias Count = number\ntype Total = Count",
    "type Box struct\x7bn: Total\x7d\nfn f() \x7b\n type Local = Total\n alias Counts = Local[]\n\x7d\nf()",
    "alias Wide = Total"]

def countType : Ty :=
  .aliased "Count" (.primitive .number)

/-- The synonyms name the alias itself, and no alias has it for a target. -/
theorem countSources_direct :
    ∃ s, Session.start.runSources { file := "main" } 40 countSources = some s ∧
      s.context.failure.isSome = true ∧ s.store.declares "Local" countType = true ∧
      s.store.Stores (.aliased "Counts" (.array countType)) ∧
      s.store.Stores (.struct "Box" [] [⟨"n", countType, false⟩]) ∧ s.store.Direct := by
  have hrun : (Session.start.runSources { file := "main" } 40 countSources).any (fun s =>
      s.context.failure.isSome && s.store.declares "Local" countType &&
        s.store.declares "Counts" (.aliased "Counts" (.array countType)) &&
        s.store.declares "Box" (.struct "Box" [] [⟨"n", countType, false⟩])) = true := by
    decide +kernel
  obtain ⟨s, hs, h⟩ := (Option.any_eq_true _ _).1 hrun
  simp only [Bool.and_eq_true] at h
  obtain ⟨⟨⟨hfailed, hlocal⟩, hcounts⟩, hbox⟩ := h
  obtain ⟨hparsed, hall⟩ := Session.aliases_never_chain
  have hdirect := hall s ((Session.reached_of_runSources .start hs).mono hparsed)
  exact ⟨s, hs, hfailed, hlocal, Store.stores_of_declares hcounts, Store.stores_of_declares hbox,
    hdirect.1⟩

end Sable
