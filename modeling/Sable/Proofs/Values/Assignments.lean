import Sable.Proofs.Runs.Statements
import Sable.Proofs.Values.Writes

/-!
# Assignments to members

An assignment to a member checks whether the variable at its root can change, and not the type of that
variable. `Store.Stays`: conditions under which the variable keeps its type. The new value has the type
of the one that it replaces, or the check of the type does not reach what is written.
-/

namespace Sable

namespace Store

variable {s s' : Store} {env : Env} {c : Container} {key v : Value} {old : Option Value}

/-! ### A member of an object without a tag -/

theorem find?_members {f : Value → Ty} {name : String} (properties : List (String × Value)) :
    (properties.map fun p => (⟨p.1, f p.2, false⟩ : Member)).find? (fun m => m.name == name) =
      (properties.lookup name).map fun y => ⟨name, f y, false⟩ := by
  induction properties with
  | nil => rfl
  | cons p properties ih =>
    obtain ⟨k, y⟩ := p
    rw [List.map_cons, List.find?_cons, List.lookup_cons]
    by_cases hk : k = name
    · subst hk
      simp
    · simp only [beq_false_of_ne hk, beq_false_of_ne (Ne.symm hk), ih]

/-- An object without a tag is accepted for a struct by its properties. -/
theorem accepts_untagged {a : Nat} {name : String} {params : List Bound} {wanted : List Member}
    (htag : (s.object a).tag = none) {f : Value → Ty}
    (hf : s.typeOf (.object a) = s.shape f (.object a)) :
    s.accepts env (.struct name params wanted) (.object a) = true ↔ ∀ w ∈ wanted,
      (match (s.object a).properties.lookup w.name with
        | some y => (f y).fits w.type
        | none => w.optional) = true := by
  have hsealed : (s.object a).isSealed = false := by simp [Obj.isSealed, htag]
  have hverdict : s.accepts env (.struct name params wanted) (.object a) =
      (s.typeOf (.object a)).fits (.struct name params wanted) := by
    rw [accepts_eq_verdict rfl (by rintro _ _ ⟨⟩)]
    simp only [head, verdict, htag]
  rw [hverdict, hf]
  simp only [shape, hsealed, Bool.false_eq_true, if_false]
  rw [Ty.fits_eq rfl rfl, Ty.matchesForm, Ty.covers_iff]
  refine forall₂_congr fun w _ => ?_
  rw [find?_members]
  cases (s.object a).properties.lookup w.name <;> rfl

/-- An object without a tag stays what it is if the new value fits what is asked for under its name. -/
theorem Writes.accepts_field {a : Nat} {field name : String} {params : List Bound}
    {wanted : List Member} (h : s.Writes v (.object a) (.text field) old s')
    (htag : (s.object a).tag = none)
    (haccepts : s.accepts env (.struct name params wanted) (.object a) = true)
    (hv : ¬ s.Within (.object a) v)
    (hnew : ∀ w ∈ wanted, w.name = field → (s.typeOf v).fits w.type = true) :
    s'.accepts env (.struct name params wanted) (.object a) = true := by
  -- inside the object both stores give the same types
  have htype : s'.typeOf (.object a) =
      s'.shape (s.typeWithin (s.objects.size + s.arrays.size) [.object a]) (.object a) := by
    have hsize : s'.objects.size + s'.arrays.size = s.objects.size + s.arrays.size :=
      Nat.succ.inj h.depth_eq
    have hmem : Container.object a ∈ [Container.object a] := List.mem_cons_self
    have hinside := funext fun y => h.typeWithin_of_mem hmem (s.objects.size + s.arrays.size) y
    rw [← hinside, ← hsize]
    exact typeOf_eq_shape (.object a)
  rw [accepts_untagged htag (typeOf_eq_shape (.object a))] at haccepts
  rw [accepts_untagged ((h.tag_eq a).1.trans htag) htype]
  intro w hw
  cases h
  rcases Nat.lt_or_ge a s.objects.size with hlt | hge
  · rw [object_setProperty_self field hlt]
    by_cases hname : w.name = field
    · have hfits : (s.typeWithin (s.objects.size + s.arrays.size) [.object a] v).fits w.type = true := by
        have htrail : s.Trail (s.objects.size + s.arrays.size) [.object a] := .inside hlt
        rw [typeWithin_eq_typeOf htrail (by simpa [Container.value] using hv)]
        exact hnew w hw hname
      simp only [hname, Assoc.lookup_set_self]
      exact hfits
    · simp only [Assoc.lookup_set_of_ne _ _ hname]
      exact haccepts w hw
  · rw [object_setProperty_of_le field hge]
    exact haccepts w hw

/-! ### Why a type is kept -/

/-- The reasons for which a value keeps a type when another value is written into a container. -/
inductive Stays (s : Store) (env : Env) (c : Container) (key : Value) (old : Option Value) (v : Value) :
    Ty → Value → Prop
  /-- The new value has the type of the one it replaces. -/
  | same {type : Ty} {x o : Value} (was : old = some o) (h : s.Replaces c o v) :
      Stays s env c key old v type x
  /-- The container lies elsewhere. -/
  | apart {type : Ty} {x : Value} (h : ¬ s.Within c.value x) : Stays s env c key old v type x
  /-- The container is an instance that shows its type arguments only. -/
  | hidden {type : Ty} {x : Value} {a : Nat} (here : c = .object a)
      (h : (s.object a).isSealed = true) : Stays s env c key old v type x
  /-- The new value fits what is asked for under its name. -/
  | field {a : Nat} {field name : String} {params : List Bound} {wanted : List Member}
      (untagged : (s.object a).tag = none) (here : c = .object a) (under : key = .text field)
      (apart : ¬ s.Within (.object a) v)
      (fits : ∀ w ∈ wanted, w.name = field → (s.typeOf v).fits w.type = true) :
      Stays s env c key old v (.struct name params wanted) (.object a)
  /-- Instances are known by their structs. -/
  | tagged {a : Nat} {tag name : String} {params : List Bound} {members : List Member}
      (h : (s.object a).tag = some tag) (named : name ≠ "") :
      Stays s env c key old v (.struct name params members) (.object a)
  | contract {a : Nat} {name : String} {members : List Signature} :
      Stays s env c key old v (.contract name members) (.object a)
  /-- What is written into an array has to be right for its elements. -/
  | array {a : Nat} {element : Ty} (held : ∀ y ∈ (s.array a).toList, Stays s env c key old v element y)
      (accepted : c = .array a → s.accepts env element v = true)
      (new : c = .array a → Stays s env c key old v element v) :
      Stays s env c key old v (.array element) (.array a)
  | aliased {name : String} {target : Ty} {x : Value} (h : Stays s env c key old v target x) :
      Stays s env c key old v (.aliased name target) x
  | union {members : List Ty} {x : Value}
      (h : ∀ m ∈ members, s.accepts env m x = true → Stays s env c key old v m x) :
      Stays s env c key old v (.union members) x
  | dynamic (x : Value) : Stays s env c key old v .dynamic x

/-- Each of the reasons is one. -/
theorem Writes.accepts (h : s.Writes v c key old s') {type : Ty} {x : Value}
    (hstays : s.Stays env c key old v type x) :
    s.accepts env type x = true → s'.accepts env type x = true := by
  induction hstays with
  | same was hr =>
    subst was
    exact h.accepts_of_replaces hr
  | apart hx => exact h.accepts_of_untouched (h.untouched_of_apart hx)
  | hidden here hsealed => exact h.accepts_of_untouched (h.untouched_of_sealed here hsealed _)
  | field untagged here under hv fits =>
    subst here under
    intro haccepts
    exact h.accepts_field untagged haccepts hv fits
  | @tagged a tag name params members htag named =>
    rw [accepts_eq_verdict rfl (by rintro _ _ ⟨⟩), accepts_eq_verdict rfl (by rintro _ _ ⟨⟩)]
    simp [head, verdict, (h.tag_eq a).1, htag, named]
  | @contract a name members =>
    rw [accepts_eq_verdict rfl (by rintro _ _ ⟨⟩), accepts_eq_verdict rfl (by rintro _ _ ⟨⟩),
      h.head_eq, verdict_congr h.scopes_eq]
    simp only [head, verdict]
    cases (s.object a).tag <;> exact id
  | array held accepted new ihheld ihnew =>
    intro haccepts
    rw [accepts_array] at haccepts ⊢
    intro y hy
    rcases h.mem_array hy with hy | ⟨hc, rfl⟩
    · exact ihheld y hy (haccepts y hy)
    · exact ihnew hc (accepted hc)
  | aliased _ ih =>
    rw [accepts_aliased, accepts_aliased]
    exact ih
  | union _ ih =>
    intro haccepts
    rw [accepts_union] at haccepts ⊢
    obtain ⟨m, hm, hx⟩ := haccepts
    exact ⟨m, hm, ih m hm hx hx⟩
  | dynamic x => exact fun _ => rfl

end Store

/-! ### Evaluating an assignment -/

section

variable {ω α β : Type}

theorem Eval.of_bind {p : Eval ω α} {f : α → Eval ω β} {m m' : Machine} {w w' : ω} {b : β}
    (h : (p >>= f) m w = .done b m' w') :
    ∃ a m₁ w₁, p m w = .done a m₁ w₁ ∧ f a m₁ w₁ = .done b m' w' := by
  replace h : Eval.bind p f m w = .done b m' w' := h
  unfold Eval.bind at h
  split at h
  · exact ⟨_, _, _, by assumption, h⟩
  · cases h
  · cases h

variable [Observer ω]

theorem Eval.of_query {f : Store → Except Fault α} {m m' : Machine} {w w' : ω} {a : α}
    (h : Eval.query f m w = .done a m' w') : f m.store = .ok a ∧ m' = m ∧ w' = w := by
  unfold Eval.query at h
  split at h
  · cases h
    exact ⟨by assumption, rfl, rfl⟩
  · cases h

theorem Eval.of_resolve {types : List TypeExpr} {f : Store → Except Fault α} {m m' : Machine}
    {w w' : ω} {a : α} (h : Eval.resolve types f m w = .done a m' w') :
    f m.store = .ok a ∧ m' = m := by
  obtain ⟨_, m₁, w₁, hreport, hquery⟩ := Eval.of_bind h
  cases hreport
  obtain ⟨hf, hm, -⟩ := Eval.of_query hquery
  exact ⟨hf, hm⟩

/-- What can be written is written into a container. -/
theorem Inner.of_writeMember {env : Env} {container key v : Value} {path : String} {m m' : Machine}
    {w w' : ω} {u : Unit} (h : Inner.writeMember env container key v path m w = .done u m' w') :
    ∃ c old, container = c.value ∧ m.store.Writes v c key old m'.store := by
  unfold Inner.writeMember at h
  split at h
  · obtain ⟨_, m₁, w₁, hcheck, hchange⟩ := Eval.of_bind h
    obtain ⟨-, rfl, rfl⟩ := Eval.of_query hcheck
    cases hchange
    exact ⟨.object _, _, rfl, .property _ _⟩
  · rename_i a x
    obtain ⟨_, m₁, w₁, hask, hchange⟩ := Eval.of_bind h
    cases hask
    cases hslot : Number.slot? x (m.store.array a).size with
    | some slot =>
      simp only [hslot] at hchange
      cases hchange
      exact ⟨.array a, _, rfl, .element hslot⟩
    | none =>
      simp only [hslot] at hchange
      cases hchange
  · cases h
  · obtain ⟨_, m₁, w₁, hask, hraise⟩ := Eval.of_bind h
    cases hraise

/-- Variables keep their types under assignments to members, where there is a reason for it. An
assignment evaluates the container, the key and the value, and writes the value into the container.
If the variable at the root has a type, and its value is accepted for it before the write, then it is
accepted after it for each of the reasons above. -/
theorem Inner.root_staysTyped {inner : Inner ω} {env : Env} {object value : Expr} {key : Eval ω Value}
    {m m' : Machine} {w w' : ω} {v : Value}
    (h : inner.assignMember env object key value m w = .done v m' w') :
    ∃ root c k old m₁ w₁ m₂ w₂ m₃ w₃, object.root? = some root ∧
      inner.expr env object m w = .done c.value m₁ w₁ ∧ key m₁ w₁ = .done k m₂ w₂ ∧
      inner.expr env value m₂ w₂ = .done v m₃ w₃ ∧ m₃.store.Writes v c k old m'.store ∧
      ∀ b type, m₃.store.binding? env root = some b → b.type = some type →
        m₃.store.accepts env type b.value = true → m₃.store.Stays env c k old v type b.value →
        m'.store.binding? env root = some b ∧ m'.store.accepts env type b.value = true := by
  unfold Inner.assignMember at h
  cases hroot : object.root? with
  | none =>
    simp only [hroot] at h
    cases h
  | some root =>
    simp only [hroot] at h
    obtain ⟨_, m₀, w₀, hcheck, hrest⟩ := Eval.of_bind h
    obtain ⟨-, rfl, rfl⟩ := Eval.of_query hcheck
    obtain ⟨container, m₁, w₁, hcontainer, hrest⟩ := Eval.of_bind hrest
    obtain ⟨k, m₂, w₂, hkey, hrest⟩ := Eval.of_bind hrest
    obtain ⟨v', m₃, w₃, hvalue, hrest⟩ := Eval.of_bind hrest
    obtain ⟨_, m₄, w₄, hwrite, hend⟩ := Eval.of_bind hrest
    cases hend
    obtain ⟨c, old, rfl, hwrites⟩ := Inner.of_writeMember hwrite
    refine ⟨root, c, k, old, m₁, w₁, m₂, w₂, m₃, w₃, rfl, hcontainer, hkey, hvalue, hwrites, ?_⟩
    intro b type hb _ haccepts hstays
    refine ⟨?_, hwrites.accepts hstays haccepts⟩
    rw [← hb]
    simp only [Store.binding?, Store.scope, hwrites.scopes_eq]

end

/-- The type of an object with a member of its own, the same one again and a list of texts. -/
def sharingType : Ty :=
  let inner := Ty.struct "" [] [⟨"x", .primitive .text, false⟩]
  .struct "" [] [⟨"inner", inner, false⟩, ⟨"again", inner, false⟩, ⟨"list", .array (.primitive .text), false⟩]

/-- A machine with a variable of that type, and one whose elements are numbers. -/
def sharing : Machine where
  store :=
    { scopes := #[{ vars := [("r", ⟨.object 0, .mutable, some sharingType⟩),
        ("a", ⟨.array 1, .mutable, some (.array (.primitive .number))⟩),
        ("t", ⟨.text "b", .final, none⟩)] }]
      objects := #[⟨none, [], [("inner", .object 1), ("again", .object 1), ("list", .array 0)]⟩,
        ⟨none, [], [("x", .text "a")]⟩]
      arrays := #[#[.text "p"], #[.number 1]] }

/-- The evaluators, with enough fuel for what is evaluated here. -/
def shallow : Inner Unit :=
  Eval.inner { file := "main" } 2 Unit

theorem accepts_sharing :
    sharing.store.accepts ⟨0, []⟩ sharingType (.object 0) = true := by
  have hinner : Ty.Coherent (.struct "" [] [⟨"x", .primitive .text, false⟩]) :=
    .struct (by decide) (by simp [Ty.Coherent.primitive])
  refine (Store.accepts_untagged rfl (Store.typeOf_eq_shape (.object 0))).2 ?_
  intro w hw
  simp only [List.mem_cons, List.not_mem_nil, or_false] at hw
  rcases hw with rfl | rfl | rfl
  · exact hinner.fits_core.1
  · exact hinner.fits_core.1
  · exact (Ty.Coherent.array (.primitive .text)).fits_core.1

/-- A text in the place of another, two steps down and in a container that is met twice. -/
theorem sharedMember_staysTyped : ∃ m',
    shallow.assignMember ⟨0, []⟩ (.field (.var ⟨"r", .nowhere⟩) ⟨"again", .nowhere⟩ .nowhere)
      (pure (.text "x")) (.var ⟨"t", .nowhere⟩) sharing () = .done (.text "b") m' () ∧
    m'.store.binding? ⟨0, []⟩ "r" = some ⟨.object 0, .mutable, some sharingType⟩ ∧
    m'.store.accepts ⟨0, []⟩ sharingType (.object 0) = true ∧
    (m'.store.object 1).properties = [("x", .text "b")] := by
  refine ⟨_, rfl, ?_⟩
  obtain ⟨root, c, k, old, m₁, w₁, m₂, w₂, m₃, w₃, hroot, hcontainer, hkey, hvalue, hwrites, hkeeps⟩ :=
    @Inner.root_staysTyped Unit _ shallow ⟨0, []⟩
      (.field (.var ⟨"r", .nowhere⟩) ⟨"again", .nowhere⟩ .nowhere) (.var ⟨"t", .nowhere⟩)
      (pure (.text "x")) sharing _ () () (.text "b") rfl
  obtain rfl : "r" = root := Option.some.inj hroot
  obtain ⟨hc, rfl, rfl⟩ : Value.object 1 = c.value ∧ sharing = m₁ ∧ () = w₁ := Outcome.done.inj hcontainer
  obtain rfl : Container.object 1 = c := Container.value_inj hc
  obtain ⟨rfl, rfl, rfl⟩ : Value.text "x" = k ∧ sharing = m₂ ∧ () = w₂ := Outcome.done.inj hkey
  obtain ⟨-, rfl, rfl⟩ : _ ∧ sharing = m₃ ∧ () = w₃ := Outcome.done.inj hvalue
  have hreplaces : sharing.store.Replaces (.object 1) (.text "a") (.text "b") := by
    refine ⟨rfl, .leaf rfl, .leaf rfl, ?_⟩
    intro hin
    cases hin with
    | part hp _ => cases hp
  have hold {s' : Store} (h : sharing.store.Writes (.text "b") (.object 1) (.text "x") old s') :
      old = some (.text "a") := by
    cases h
    rfl
  obtain ⟨hbinding, haccepts⟩ := hkeeps _ _ rfl rfl accepts_sharing (.same (hold hwrites) hreplaces)
  exact ⟨hbinding, haccepts, rfl⟩

/-- A text is written among the elements of an array of numbers. The variable can change, so that it
succeeds, and what the variable stands for has its type no more. -/
theorem mixedElements_untyped : ∃ m',
    shallow.assignMember ⟨0, []⟩ (.var ⟨"a", .nowhere⟩) (pure (.number 0)) (.var ⟨"t", .nowhere⟩)
      sharing () = .done (.text "b") m' () ∧
    sharing.store.binding? ⟨0, []⟩ "a" =
      some ⟨.array 1, .mutable, some (.array (.primitive .number))⟩ ∧
    sharing.store.accepts ⟨0, []⟩ (.array (.primitive .number)) (.array 1) = true ∧
    m'.store.binding? ⟨0, []⟩ "a" = some ⟨.array 1, .mutable, some (.array (.primitive .number))⟩ ∧
    m'.store.accepts ⟨0, []⟩ (.array (.primitive .number)) (.array 1) = false := by
  have hslot : Number.slot? 0 (sharing.store.array 1).size = some 0 := by decide +kernel
  have hwrite : (Inner.writeMember ⟨0, []⟩ (.array 1) (.number 0) (.text "b") "a" : Eval Unit Unit)
      sharing () = .done () { sharing with store := sharing.store.setElement 1 0 (.text "b") } () := by
    simp only [Inner.writeMember, Bind.bind, Eval.bind, Eval.ask, hslot]
    rfl
  refine ⟨{ sharing with store := sharing.store.setElement 1 0 (.text "b") }, ?_, rfl, ?_, rfl, ?_⟩
  · have hcheck : Eval.query (fun store => store.checkMutable ⟨0, []⟩ "a") sharing () =
        .done () sharing () := rfl
    have hcontainer : shallow.expr ⟨0, []⟩ (.var ⟨"a", .nowhere⟩) sharing () =
        .done (.array 1) sharing () := rfl
    have hvalue : shallow.expr ⟨0, []⟩ (.var ⟨"t", .nowhere⟩) sharing () =
        .done (.text "b") sharing () := rfl
    simp only [Inner.assignMember, Expr.root?, Expr.path, Bind.bind, Pure.pure, Eval.bind, Eval.pure,
      hcheck, hcontainer, hvalue, hwrite]
  · rw [Store.accepts_array]
    intro y hy
    obtain rfl : y = .number 1 := by simpa [sharing, Store.array] using hy
    rw [Store.accepts_eq_verdict rfl (by rintro _ _ ⟨⟩)]
    exact (Ty.Coherent.primitive .number).fits_core.1
  · rw [Bool.eq_false_iff]
    intro haccepts
    rw [Store.accepts_array] at haccepts
    have hfirst := haccepts (.text "b") (by simp [sharing, Store.array, Store.setElement])
    rw [Store.accepts_eq_verdict rfl (by rintro _ _ ⟨⟩)] at hfirst
    have hfits : Ty.fits (.primitive .text) (.primitive .number) = true := hfirst
    simp [Ty.fits, Ty.matchesForm, Ty.isDynamic] at hfits

end Sable
