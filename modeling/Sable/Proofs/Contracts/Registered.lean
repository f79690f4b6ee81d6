import Sable.Proofs.Contracts.Fulfilled
import Sable.Proofs.Types.Texts

/-!
# Registered members

A fulfillment checks the first of what it gives for a member, by the texts of the two signatures, and
registers all of it, so that a lookup finds the last. If a member is `GivenOnce` and its signatures are
`Readable`, what is found has the types of the contract (`Provides`).
-/

namespace Sable

/-! ### Signatures and their texts -/

namespace Signature

/-- The name is a word, and the types can be told from their texts. -/
def Readable (meaning : String → Ty) : Signature → Prop
  | .method name params result =>
    IsWord name ∧ (∀ p ∈ params, p.Readable meaning) ∧ result.Readable meaning
  | .getter name result => IsWord name ∧ result.Readable meaning

variable {meaning : String → Ty}

theorem toList_method (name : String) (params : List Ty) (result : Ty) :
    (Signature.text (.method name params result)).toList =
      name.toList ++ '(' :: (Ty.listed params ++ ')' :: (Ty.given (some result) ++ [])) := by
  simp only [text, ← Ty.texts_eq, String.toList_append, Ty.toList_listed]
  simp [Ty.given]

theorem toList_getter (name : String) (result : Ty) :
    (Signature.text (.getter name result)).toList =
      "get".toList ++ ' ' :: (name.toList ++ Ty.given (some result)) := by
  simp only [text, String.toList_append]
  simp [Ty.given]

theorem isWord_get : IsWord "get" :=
  .of_all rfl rfl

theorem given_some_inj {s t : Ty} (hs : s.Readable meaning) (ht : t.Readable meaning)
    (h : Ty.given (some s) = Ty.given (some t)) : s = t := by
  have htext : s.text.toList = t.text.toList := by simpa [Ty.given] using h
  exact hs.text_inj ht (String.toList_inj.1 htext)

/-- The text of a method does not begin like that of a getter. -/
theorem method_ne_getter {name name' : String} {params : List Ty} {result result' : Ty}
    (word : IsWord name) :
    Signature.text (.method name params result) ≠ Signature.text (.getter name' result') := by
  intro h
  have hlist := congrArg String.toList h
  rw [toList_method, toList_getter] at hlist
  obtain ⟨-, hrest⟩ := Ty.word_inj word isWord_get (Ty.not_word_of_cons (by decide))
    (Ty.not_word_of_cons (by decide)) hlist
  have hparen : '(' = ' ' := (List.cons.inj hrest).1
  revert hparen
  decide

/-- Signatures of one name that read the same are the same. -/
theorem text_inj {a b : Signature} (ha : a.Readable meaning) (hb : b.Readable meaning)
    (hname : a.name = b.name) (h : a.text = b.text) : a = b := by
  cases a with
  | method name params result =>
    obtain ⟨word, hparams, hresult⟩ := ha
    cases b with
    | getter name' result' => exact absurd h (method_ne_getter word)
    | method name' params' result' =>
      obtain rfl : name = name' := hname
      obtain ⟨-, hparams', hresult'⟩ := hb
      have hlist := congrArg String.toList h
      rw [toList_method, toList_method] at hlist
      obtain ⟨rfl, hrest⟩ := Ty.listed_inj (.inl rfl) (fun p hp => ⟨hparams p hp, (hparams p hp).told⟩)
        hparams' (List.cons.inj (List.append_cancel_left hlist)).2
      rw [List.append_nil, List.append_nil] at hrest
      rw [given_some_inj hresult hresult' hrest]
  | getter name result =>
    obtain ⟨word, hresult⟩ := ha
    cases b with
    | method name' params' result' => exact absurd h.symm (method_ne_getter hb.1)
    | getter name' result' =>
      obtain rfl : name = name' := hname
      have hlist := congrArg String.toList h
      rw [toList_getter, toList_getter] at hlist
      have hrest : Ty.given (some result) = Ty.given (some result') :=
        List.append_cancel_left (List.cons.inj (List.append_cancel_left hlist)).2
      rw [given_some_inj hresult hb.2 hrest]

end Signature

/-! ### Tables filled from a list -/

section

variable {α β κ : Type} [BEq κ] [LawfulBEq κ] {key : α → κ} {value : α → β}

theorem Assoc.lookup_foldl_of_ne {xs : List α} {k : κ} (h : ∀ x ∈ xs, key x ≠ k) (t : List (κ × β)) :
    (xs.foldl (fun t x => Assoc.set (key x) (value x) t) t).lookup k = t.lookup k := by
  induction xs generalizing t with
  | nil => rfl
  | cons x xs ih =>
    have hx : k ≠ key x := (h x List.mem_cons_self).symm
    rw [List.foldl_cons, ih fun y hy => h y (List.mem_cons_of_mem x hy), lookup_set_of_ne _ _ hx]

/-- At most one of the list has the name. -/
def Once (nameOf : α → Name) (xs : List α) (name : String) : Prop :=
  (xs.filter fun x => (nameOf x).text == name).length ≤ 1

/-- Where a name is given once, the first of the name is the last, and so the one that is found. -/
theorem Once.lookup_foldl {nameOf : α → Name} {xs : List α} {name : String} {x : α}
    (h : Once nameOf xs name) (hx : xs.find? (fun x => (nameOf x).text == name) = some x)
    {tag : String} {t : List ((String × String) × β)} :
    (xs.foldl (fun t x => Assoc.set (tag, (nameOf x).text) (value x) t) t).lookup (tag, name) =
      some (value x) := by
  obtain ⟨hname, before, after, rfl, -⟩ := List.find?_eq_some_iff_append.1 hx
  have hafter : ∀ y ∈ after, (tag, (nameOf y).text) ≠ (tag, (nameOf x).text) := by
    intro y hy heq
    have hyname : ((nameOf y).text == name) = true := (Prod.mk.inj heq).2 ▸ hname
    have hmem : y ∈ after.filter fun x => (nameOf x).text == name := List.mem_filter.2 ⟨hy, hyname⟩
    have hpos : 0 < (after.filter fun x => (nameOf x).text == name).length :=
      List.length_pos_of_mem hmem
    simp only [Once, List.filter_append, List.filter_cons, hname, if_true, List.length_append,
      List.length_cons] at h
    omega
  rw [← eq_of_beq hname, List.foldl_append, List.foldl_cons, Assoc.lookup_foldl_of_ne hafter,
    Assoc.lookup_set_self]

end

namespace Store

variable {s s' : Store} {env : Env}

/-! ### Annotations mean what the declared types say -/

variable {env' : Env}

mutual

theorem evalType_congr (h : ∀ name, s.type? env name = s'.type? env' name) (subst : Subst) :
    ∀ e : TypeExpr, s.evalType env subst e = s'.evalType env' subst e
  | .word .. => by simp only [evalType]
  | .named name => by simp only [evalType, h]
  | .generic name args => by simp only [evalType, h, evalTypes_congr h subst args]
  | .union members _ => by simp only [evalType, evalTypes_congr h subst members]
  | .array element _ => by simp only [evalType, evalType_congr h subst element]
  | .function params result _ => by
    simp only [evalType, evalTypes_congr h subst params, evalResult_congr h subst result]
  | .struct fields _ => by simp only [evalType, evalFields_congr h subst fields]
  | .contract members _ => by simp only [evalType, evalRequirements_congr h subst members]
  | .aliased target _ => by simp only [evalType, evalType_congr h subst target]

theorem evalTypes_congr (h : ∀ name, s.type? env name = s'.type? env' name) (subst : Subst) :
    ∀ es : List TypeExpr, s.evalTypes env subst es = s'.evalTypes env' subst es
  | [] => rfl
  | e :: es => by simp only [evalTypes, evalType_congr h subst e, evalTypes_congr h subst es]

theorem evalResult_congr (h : ∀ name, s.type? env name = s'.type? env' name) (subst : Subst) :
    ∀ e : Option TypeExpr, s.evalResult env subst e = s'.evalResult env' subst e
  | none => rfl
  | some e => by simp only [evalResult, evalType_congr h subst e]

theorem evalTypeD_congr (h : ∀ name, s.type? env name = s'.type? env' name) (subst : Subst) :
    ∀ e : Option TypeExpr, s.evalTypeD env subst e = s'.evalTypeD env' subst e
  | none => rfl
  | some e => by simp only [evalTypeD, evalType_congr h subst e]

theorem evalTypesD_congr (h : ∀ name, s.type? env name = s'.type? env' name) (subst : Subst) :
    ∀ es : List (Option TypeExpr), s.evalTypesD env subst es = s'.evalTypesD env' subst es
  | [] => rfl
  | e :: es => by simp only [evalTypesD, evalTypeD_congr h subst e, evalTypesD_congr h subst es]

theorem evalField_congr (h : ∀ name, s.type? env name = s'.type? env' name) (subst : Subst) :
    ∀ f : FieldOf TypeExpr, s.evalField env subst f = s'.evalField env' subst f
  | ⟨_, type, _⟩ => by simp only [evalField, evalType_congr h subst type]

theorem evalFields_congr (h : ∀ name, s.type? env name = s'.type? env' name) (subst : Subst) :
    ∀ fs : List (FieldOf TypeExpr), s.evalFields env subst fs = s'.evalFields env' subst fs
  | [] => rfl
  | f :: fs => by simp only [evalFields, evalField_congr h subst f, evalFields_congr h subst fs]

theorem evalRequirement_congr (h : ∀ name, s.type? env name = s'.type? env' name) (subst : Subst) :
    ∀ r : RequirementOf TypeExpr, s.evalRequirement env subst r = s'.evalRequirement env' subst r
  | .method _ params result => by
    simp only [evalRequirement, evalTypesD_congr h subst params, evalTypeD_congr h subst result]
  | .getter _ result => by simp only [evalRequirement, evalType_congr h subst result]

theorem evalRequirements_congr (h : ∀ name, s.type? env name = s'.type? env' name) (subst : Subst) :
    ∀ rs : List (RequirementOf TypeExpr),
      s.evalRequirements env subst rs = s'.evalRequirements env' subst rs
  | [] => rfl
  | r :: rs => by
    simp only [evalRequirements, evalRequirement_congr h subst r, evalRequirements_congr h subst rs]

end

section

variable (h : ∀ name, s.type? env name = s'.type? env' name)

include h

theorem evalTypeParams_congr (params : List TypeParam) (subst : Subst) :
    s.evalTypeParams env params subst = s'.evalTypeParams env' params subst := by
  induction params generalizing subst with
  | nil => rfl
  | cons param params ih => simp only [evalTypeParams, evalResult_congr h, ih]

theorem methodSignature_congr (f : Function) : s.methodSignature env f = s'.methodSignature env' f := by
  simp only [methodSignature, evalTypeParams_congr h, evalTypeD_congr h]

end

/-! ### What is checked and what is found -/

/-- The block gives the member once, among the methods or among the getters. -/
def GivenOnce (methods : List Function) (getters : List Getter) : Signature → Prop
  | .method name _ _ => Once (·.name) methods name
  | .getter name _ => Once (·.name) getters name

/-- What is found for a member under a tag is a function of the member's types. -/
def Provides (s : Store) (env : Env) (tag : String) : Signature → Prop
  | .method name params result => ∃ f, s.method? env tag name = some (.function ⟨f, env⟩) ∧
    s.methodSignature env f = .ok (.method name params result)
  | .getter name result => ∃ f, s.getter? env tag name = some (.function ⟨f, env⟩) ∧
    s.methodSignature env f = .ok (.method name [] result)

theorem of_checkMember {contract target : String} {methods : List Function} {getters : List Getter}
    {m : Signature} (h : s.checkMember env contract target methods getters m = .ok ()) :
    ∃ given, s.givenSignature env methods getters m.name = .ok (some given) ∧
      given.text = m.text := by
  obtain ⟨given?, hgiven, h⟩ := ok_of_bind h
  cases given? with
  | none => cases h
  | some given =>
    refine ⟨given, hgiven, ?_⟩
    dsimp only at h
    split at h <;> rename_i htext
    · exact eq_of_beq htext
    · cases h

/-- What is given for a member is the first method of the name, or else the first getter. -/
theorem of_givenSignature {methods : List Function} {getters : List Getter} {name : String}
    {given : Signature} (h : s.givenSignature env methods getters name = .ok (some given)) :
    (∃ f params result, methods.find? (·.name.text == name) = some f ∧
      given = .method name params result ∧ s.methodSignature env f = .ok given) ∨
    ∃ g result, getters.find? (·.name.text == name) = some g ∧ given = .getter name result ∧
      s.evalType env [] g.result = .ok result := by
  unfold givenSignature at h
  split at h
  · rename_i f hf
    obtain ⟨signature, hsig, h⟩ := ok_of_bind h
    cases h
    obtain ⟨_, _, hrest⟩ := ok_of_bind hsig
    obtain ⟨params, _, hrest⟩ := ok_of_bind hrest
    obtain ⟨result, _, hrest⟩ := ok_of_bind hrest
    have hname : f.name.text = name := by simpa using List.find?_some hf
    refine .inl ⟨f, params, result, hf, ?_, hsig⟩
    rw [← hname]
    exact (Except.ok.inj hrest).symm
  · split at h
    · rename_i g hg
      obtain ⟨result, hresult, h⟩ := ok_of_bind h
      cases h
      exact .inr ⟨g, result, hg, rfl, hresult⟩
    · cases h

theorem methodSignature_getter {g : Getter} {result : Ty} (h : s.evalType env [] g.result = .ok result) :
    s.methodSignature env g.toFunction = .ok (.method g.name.text [] result) := by
  show (do return SignatureOf.method g.name.text [] (← s.evalType env [] g.result)) = _
  rw [h]
  rfl

section

variable {tag contract : String} {methods : List Function} {getters : List Getter}

theorem method?_register (henv : env.here < s.scopes.size) {f : Function} {name : String}
    (honce : Once (·.name) methods name) (hf : methods.find? (·.name.text == name) = some f) :
    (s.modifyScope env.here (·.register env tag contract methods getters)).method? env tag name =
      some (.function ⟨f, env⟩) := by
  unfold method? Env.path
  rw [List.findSome?_cons, scope_modifyScope_self _ henv]
  unfold Scope.register
  dsimp only
  rw [honce.lookup_foldl hf]

theorem getter?_register (henv : env.here < s.scopes.size) {g : Getter} {name : String}
    (honce : Once (·.name) getters name) (hg : getters.find? (·.name.text == name) = some g) :
    (s.modifyScope env.here (·.register env tag contract methods getters)).getter? env tag name =
      some (.function ⟨g.toFunction, env⟩) := by
  unfold getter? Env.path
  rw [List.findSome?_cons, scope_modifyScope_self _ henv]
  unfold Scope.register
  dsimp only
  rw [honce.lookup_foldl hg]

end

end Store

/-- What a fulfillment registers is what it has checked. For each member of the contract that the
block gives once, and whose types and those of what is given for it can be told from their texts, a
method or getter is found at once whose types are the ones that the contract declares. -/
theorem Store.registered_as_checked {s s' : Store} {env : Env} {contract target : String}
    {methods : List Function} {getters : List Getter} (henv : env.here < s.scopes.size)
    (h : s.fulfill env contract target methods getters = .ok s') :
    ∃ members tag, s.contractMembers env contract = .ok members ∧
      s.structTag env target = .ok tag ∧ ∀ m ∈ members, GivenOnce methods getters m →
        (∃ meaning, m.Readable meaning ∧ ∀ given,
          s.givenSignature env methods getters m.name = .ok (some given) → given.Readable meaning) →
        s'.Provides env tag m := by
  obtain ⟨members, tag, hmembers, htag, hcheck, rfl⟩ := of_fulfill h
  refine ⟨members, tag, hmembers, htag, fun m hm honce ⟨meaning, hread, hgivenRead⟩ => ?_⟩
  obtain ⟨given, hgiven, htext⟩ := of_checkMember (hcheck m hm)
  have htypes (name : String) := (type?_register s env tag contract methods getters env name).symm
  have hname : given.name = m.name := by
    rcases of_givenSignature hgiven with ⟨_, _, _, _, rfl, _⟩ | ⟨_, _, _, rfl, _⟩ <;> rfl
  obtain rfl : given = m := Signature.text_inj (hgivenRead given hgiven) hread hname htext
  rcases of_givenSignature hgiven with
    ⟨f, params, result, hf, hm, hsig⟩ | ⟨g, result, hg, hm, hresult⟩
  · rw [hm] at honce hsig ⊢
    refine ⟨f, method?_register henv honce hf, ?_⟩
    rw [← methodSignature_congr htypes, hsig]
  · rw [hm] at honce ⊢
    refine ⟨g.toFunction, getter?_register henv honce hg, ?_⟩
    have hgname : g.name.text = given.name := by simpa using List.find?_some hg
    rw [← methodSignature_congr htypes, methodSignature_getter hresult, hgname]

/-- What the names mean that stand for their own types. -/
def paintMeaning (name : String) : Ty :=
  if name = "number" then .primitive .number
  else if name = "string" then .primitive .text
  else .struct "Canvas" [] []

/-- A method with a union and an array of functions among its parameters. -/
def paintSignature : Signature :=
  .method "paint" [.union [.primitive .number, .struct "Canvas" [] []],
    .array (.function [.primitive .number] (some (.primitive .text)))]
    (.array (.struct "Canvas" [] []))

/-- A scope with a contract of a method and a getter, and a struct that has the name of a type
parameter of another contract. -/
def canvases : Store :=
  { scopes := #[{ types := [
      ("Painter", .contract "Painter" [paintSignature, .getter "label" (.primitive .text)]),
      ("Holder", .contract "Holder" [.method "held" [] (.param "T" none)]),
      ("Canvas", .struct "Canvas" [] []), ("T", .struct "T" [] [])] }] }

/-- A method that reads like the one that the painters' contract asks for. -/
def paintFunction : Function :=
  let number := TypeExpr.primitive .number .nowhere
  let canvas := TypeExpr.named (.plain "Canvas")
  ⟨.plain "paint", [], some (.plain "self"),
    [⟨.plain "size", some (.union [number, canvas] .nowhere), none⟩,
      ⟨.plain "shades", some (.array (.function [number] (some (.primitive .text .nowhere)) .nowhere)
        .nowhere), none⟩],
    some (.array canvas .nowhere), [], .nowhere⟩

def labelGetter : Getter :=
  ⟨.plain "label", .primitive .text .nowhere, []⟩

theorem readable_number : (Ty.primitive .number).Readable paintMeaning :=
  .named rfl (.of_all rfl rfl) rfl

theorem readable_text : (Ty.primitive .text).Readable paintMeaning :=
  .named rfl (.of_all rfl rfl) rfl

theorem readable_canvas : (Ty.struct "Canvas" [] []).Readable paintMeaning :=
  .named rfl (.of_all rfl rfl) rfl

theorem readable_paint : paintSignature.Readable paintMeaning := by
  have hsize : (Ty.union [.primitive .number, .struct "Canvas" [] []]).Readable paintMeaning := by
    refine .union (Nat.le_refl 2) ?_ ?_ ?_
    · simp [Ty.isUnion]
    · simp [Ty.hasResult]
    · simp [readable_number, readable_canvas]
  have hshades : (Ty.array (.function [.primitive .number] (some (.primitive .text)))).Readable
      paintMeaning := by
    refine .array (.function ?_ ?_)
    · simp [readable_number]
    · simp [readable_text]
  refine ⟨.of_all rfl rfl, ?_, .array readable_canvas⟩
  simp [hsize, hshades]

/-- A method with composite types and a getter, found as the contract declares them. -/
theorem paintings_as_checked : ∃ s', canvases.fulfill ⟨0, []⟩ "Painter" "Canvas" [paintFunction]
      [labelGetter] = .ok s' ∧
    s'.Provides ⟨0, []⟩ "Canvas" paintSignature ∧
    s'.Provides ⟨0, []⟩ "Canvas" (.getter "label" (.primitive .text)) := by
  refine ⟨_, rfl, ?_⟩
  obtain ⟨members, tag, hmembers, htag, hprovides⟩ :=
    @Store.registered_as_checked canvases _ ⟨0, []⟩ "Painter" "Canvas" [paintFunction] [labelGetter]
      (by decide) rfl
  obtain rfl : [paintSignature, .getter "label" (.primitive .text)] = members :=
    Except.ok.inj hmembers
  obtain rfl : "Canvas" = tag := Except.ok.inj htag
  constructor
  · refine hprovides _ List.mem_cons_self (show List.length _ ≤ 1 by decide)
      ⟨paintMeaning, readable_paint, fun given hgiven => ?_⟩
    obtain rfl : paintSignature = given := Option.some.inj (Except.ok.inj hgiven)
    exact readable_paint
  · have hlabel : Signature.Readable paintMeaning (.getter "label" (.primitive .text)) :=
      ⟨.of_all rfl rfl, readable_text⟩
    refine hprovides _ (List.mem_cons_of_mem _ List.mem_cons_self) (show List.length _ ≤ 1 by decide)
      ⟨paintMeaning, hlabel, fun given hgiven => ?_⟩
    obtain rfl : SignatureOf.getter "label" (.primitive .text) = given :=
      Option.some.inj (Except.ok.inj hgiven)
    exact hlabel

/-- Of two methods of one name the first is checked and the last is found, and a struct reads like a
type parameter of the same name. Both fulfillments succeed, and what is found has another result than
the contract declares. -/
theorem misread_registered :
    (∃ s', shapes.fulfill ⟨0, []⟩ "Shape" "Square" [.plain "area" (.primitive .number .nowhere),
        .plain "area" (.primitive .text .nowhere)] [] = .ok s' ∧
      shapes.contractMembers ⟨0, []⟩ "Shape" = .ok [.method "area" [] (.primitive .number)] ∧
      ¬ s'.Provides ⟨0, []⟩ "Square" (.method "area" [] (.primitive .number))) ∧
    ∃ s', canvases.fulfill ⟨0, []⟩ "Holder" "Canvas" [.plain "held" (.named (.plain "T"))] [] = .ok s' ∧
      canvases.contractMembers ⟨0, []⟩ "Holder" = .ok [.method "held" [] (.param "T" none)] ∧
      ¬ s'.Provides ⟨0, []⟩ "Canvas" (.method "held" [] (.param "T" none)) := by
  refine ⟨⟨_, rfl, rfl, ?_⟩, _, rfl, rfl, ?_⟩
  · rintro ⟨f, hf, hsig⟩
    obtain ⟨rfl, -⟩ : Function.plain "area" (.primitive .text .nowhere) = f ∧ _ :=
      Closure.mk.inj (Value.function.inj (Option.some.inj hf))
    have hresult : Ty.primitive .text = .primitive .number :=
      (SignatureOf.method.inj (Except.ok.inj hsig)).2.2
    cases hresult
  · rintro ⟨f, hf, hsig⟩
    obtain ⟨rfl, -⟩ : Function.plain "held" (.named (.plain "T")) = f ∧ _ :=
      Closure.mk.inj (Value.function.inj (Option.some.inj hf))
    have hresult : Ty.struct "T" [] [] = .param "T" none :=
      (SignatureOf.method.inj (Except.ok.inj hsig)).2.2
    cases hresult

end Sable
