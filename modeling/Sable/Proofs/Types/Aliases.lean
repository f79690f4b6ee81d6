import Sable.Proofs.Types.Reflexivity

/-!
# Types up to aliases

`Ty.expand` replaces every alias by what it stands for. Types that are `Clear` and have the same
expansion fit the same types. In general they do not: the members of a union in the target are tried one
by one before an alias in the source is followed, so an alias of a union (`hidesUnion`) has to fit a
single member, while the members of the union itself may fit different ones.
-/

namespace Sable

namespace Ty

/-! ### Alternatives of a union -/

mutual

/-- The types that a union offers, with the unions in it taken apart. Any other type offers itself. -/
def alternatives : Ty → List Ty
  | union members => allAlternatives members
  | type => [type]

def allAlternatives : List Ty → List Ty
  | [] => []
  | type :: rest => alternatives type ++ allAlternatives rest

end

theorem alternatives_of_not_union {t : Ty} (h : t.isUnion = false) : t.alternatives = [t] := by
  cases t <;> simp_all [alternatives, isUnion]

theorem mem_allAlternatives {u : Ty} {ts : List Ty} :
    u ∈ allAlternatives ts ↔ ∃ t ∈ ts, u ∈ t.alternatives := by
  induction ts with
  | nil => simp [allAlternatives]
  | cons t ts ih => simp [allAlternatives, ih]

theorem mem_alternatives_union {u : Ty} {ts : List Ty} :
    u ∈ (union ts).alternatives ↔ ∃ t ∈ ts, u ∈ t.alternatives := by
  rw [alternatives, mem_allAlternatives]

/-- An alias of a union is among the alternatives. -/
def hidesUnion (t : Ty) : Bool :=
  t.alternatives.any fun u => u.unaliased.isUnion

theorem hidesUnion_aliased (n : String) (t : Ty) :
    (aliased n t).hidesUnion = t.unaliased.isUnion := by
  simp [hidesUnion, alternatives, unaliased]

/-- What is not a union behind its aliases hides none. -/
theorem hidesUnion_of_unaliased {t : Ty} (h : t.unaliased.isUnion = false) :
    t.hidesUnion = false := by
  have hself : t.isUnion = false := by
    cases t <;> simp_all [unaliased, isUnion]
  simp [hidesUnion, alternatives_of_not_union hself, h]

theorem hidesUnion_of_mem {t : Ty} {ts : List Ty} (h : (union ts).hidesUnion = false) (ht : t ∈ ts) :
    t.hidesUnion = false := by
  simp only [hidesUnion, List.any_eq_false] at h ⊢
  intro u hu
  exact h u (mem_alternatives_union.2 ⟨t, ht, hu⟩)

/-! ### A single alias -/

section

variable {s t : Ty} {n : String}

/-- An alias fits a type where what it stands for fits one of the alternatives alone. -/
theorem aliased_fits_iff : ∀ t : Ty,
    fits (aliased n s) t = true ↔ ∃ u ∈ t.alternatives, fits s u = true
  | union ts => by
    rw [fits_union_right rfl rfl]
    constructor
    · rintro ⟨t, ht, hfit⟩
      have := List.sizeOf_lt_of_mem ht
      obtain ⟨u, hu, hsu⟩ := (aliased_fits_iff t).1 hfit
      exact ⟨u, mem_alternatives_union.2 ⟨t, ht, hu⟩, hsu⟩
    · rintro ⟨u, hu, hsu⟩
      obtain ⟨t, ht, hut⟩ := mem_alternatives_union.1 hu
      have := List.sizeOf_lt_of_mem ht
      exact ⟨t, ht, (aliased_fits_iff t).2 ⟨u, hut, hsu⟩⟩
  | primitive _ | struct _ _ _ | aliased _ _ | generic _ _ | array _ | param _ _ | function _ _
  | contract _ _ => by
    rw [fits_aliased_left rfl]
    simp [alternatives]
termination_by t => sizeOf t

/-- What is neither a union nor dynamic fits a union by one of its alternatives. -/
theorem exists_alternative (hs : s.isUnion = false) (hd : s.isDynamic = false) :
    ∀ t : Ty, fits s t = true → ∃ u ∈ t.alternatives, fits s u = true
  | union ts, h => by
    obtain ⟨t, ht, hfit⟩ := (fits_union_right hs hd).1 h
    have := List.sizeOf_lt_of_mem ht
    obtain ⟨u, hu, hsu⟩ := exists_alternative hs hd t hfit
    exact ⟨u, mem_alternatives_union.2 ⟨t, ht, hu⟩, hsu⟩
  | primitive _, h | struct _ _ _, h | aliased _ _, h | generic _ _, h | array _, h | param _ _, h
  | function _ _, h | contract _ _, h => ⟨_, List.mem_singleton_self _, h⟩
termination_by t => sizeOf t

/-- Where a union is asked for, the source hides none, and the union offers something. -/
def Meets (s t : Ty) : Prop :=
  t.isUnion = true → s.hidesUnion = false ∧ t.alternatives ≠ []

/-- An alias in the source counts for what it stands for. -/
theorem fits_aliased_source (h : (aliased n s).Meets t) : fits (aliased n s) t = fits s t := by
  rw [Bool.eq_iff_iff]
  refine ⟨fits_of_aliased t, fun hfit => ?_⟩
  cases ht : t.isUnion with
  | false => exact (fits_aliased_left ht).2 hfit
  | true =>
    obtain ⟨hhides, hsome⟩ := h ht
    rw [hidesUnion_aliased] at hhides
    rw [aliased_fits_iff]
    cases hd : s.isDynamic with
    | true =>
      obtain ⟨u, hu⟩ := List.exists_mem_of_ne_nil _ hsome
      exact ⟨u, hu, fits_of_dynamic (.inl hd)⟩
    | false =>
      have hs : s.isUnion = false := by
        cases s <;> simp_all [unaliased, isUnion]
      exact exists_alternative hs hd t hfit

/-- Where a type fits an alias, it fits what that stands for. -/
theorem fits_of_fits_aliased (ht : t.isUnion = true → t.alternatives ≠ []) :
    ∀ s : Ty, (t.isUnion = true → s.hidesUnion = false) → fits s (aliased n t) = true →
      fits s t = true
  | union ns, hs, h => by
    rw [fits_union_left] at h ⊢
    intro x hx
    have := List.sizeOf_lt_of_mem hx
    exact fits_of_fits_aliased ht x (fun hu => hidesUnion_of_mem (hs hu) hx) (h x hx)
  | aliased m u, hs, h => by
    have hinner : t.isUnion = true → u.hidesUnion = false := by
      intro hu
      have hhides := hs hu
      rw [hidesUnion_aliased] at hhides
      exact hidesUnion_of_unaliased hhides
    have hfit : fits u t = true := fits_of_fits_aliased ht u hinner ((fits_aliased_left rfl).1 h)
    rwa [fits_aliased_source fun hu => ⟨hs hu, ht hu⟩]
  | primitive p, _, h => by
    cases hp : (primitive p).isDynamic with
    | true => exact fits_of_dynamic (.inl hp)
    | false => exact (fits_aliased_right rfl hp).1 h
  | struct _ _ _, _, h | generic _ _, _, h | array _, _, h | param _ _, _, h | function _ _, _, h
  | contract _ _, _, h => (fits_aliased_right rfl rfl).1 h
termination_by s => sizeOf s

/-- An alias in the target counts for what it stands for. -/
theorem fits_aliased_target (h : s.Meets t) : fits s (aliased n t) = fits s t := by
  rw [Bool.eq_iff_iff]
  exact ⟨fits_of_fits_aliased (fun hu => (h hu).2) s fun hu => (h hu).1, fits_aliased s⟩

end

/-! ### All aliases -/

mutual

/-- A type with every alias in it replaced by what it stands for. -/
def expand : Ty → Ty
  | primitive type => primitive type
  | struct name params members => struct name (expandBounds params) (expandMembers members)
  | aliased _ target => expand target
  | generic name args => generic name (expandAll args)
  | union members => union (expandAll members)
  | array element => array (expand element)
  | param name bound => param name (expandOption bound)
  | function params result => function (expandAll params) (expandOption result)
  | contract name members => contract name (expandSignatures members)

def expandAll : List Ty → List Ty
  | [] => []
  | type :: rest => expand type :: expandAll rest

def expandOption : Option Ty → Option Ty
  | none => none
  | some type => some (expand type)

def expandBounds : List (BoundOf Ty) → List (BoundOf Ty)
  | [] => []
  | ⟨name, bound⟩ :: rest => ⟨name, expandOption bound⟩ :: expandBounds rest

def expandMembers : List (MemberOf Ty) → List (MemberOf Ty)
  | [] => []
  | ⟨name, type, optional⟩ :: rest => ⟨name, expand type, optional⟩ :: expandMembers rest

def expandSignatures : List (SignatureOf Ty) → List (SignatureOf Ty)
  | [] => []
  | .method name params result :: rest =>
    .method name (expandAll params) (expand result) :: expandSignatures rest
  | .getter name result :: rest => .getter name (expand result) :: expandSignatures rest

end

theorem expandAll_eq (ts : List Ty) : expandAll ts = ts.map expand := by
  induction ts with
  | nil => rfl
  | cons t ts ih => rw [expandAll, ih, List.map_cons]

theorem expandMembers_eq (ms : List Member) :
    expandMembers ms = ms.map fun m => ⟨m.name, expand m.type, m.optional⟩ := by
  induction ms with
  | nil => rfl
  | cons m ms ih => rw [expandMembers, ih, List.map_cons]

theorem isDynamic_expand {t : Ty} (h : t.isDirect = true) : t.expand.isDynamic = t.isDynamic := by
  cases t <;> simp_all [expand, isDynamic, isDirect]

theorem isDirect_expand {t : Ty} (h : t.isDirect = true) : t.expand.isDirect = true := by
  cases t <;> simp_all [expand, isDirect]

/-- The two sides of a comparison. The parameters of a function change sides. -/
inductive Side where
  | source
  | target

def Side.other : Side → Side
  | source => target
  | target => source

/-- No alias that is compared as a source stands for a union, and no union is empty. -/
inductive Clear : Side → Ty → Prop
  | primitive {side : Side} (p : Primitive) : Clear side (.primitive p)
  | struct {side : Side} {name : String} {params : List Bound} {members : List Member}
      (h : ∀ m ∈ members, Clear side m.type) : Clear side (.struct name params members)
  | aliased {side : Side} {name : String} {target : Ty}
      (single : side = .source → target.unaliased.isUnion = false) (h : Clear side target) :
      Clear side (.aliased name target)
  | generic {side : Side} {name : String} {args : List Ty} (h : ∀ a ∈ args, Clear side a) :
      Clear side (.generic name args)
  | union {side : Side} {members : List Ty} (some : members ≠ []) (h : ∀ m ∈ members, Clear side m) :
      Clear side (.union members)
  | array {side : Side} {element : Ty} (h : Clear side element) : Clear side (.array element)
  | param {side : Side} {name : String} {bound : Option Ty} (h : ∀ b ∈ bound, Clear side b) :
      Clear side (.param name bound)
  | function {side : Side} {params : List Ty} {result : Option Ty}
      (hp : ∀ p ∈ params, Clear side.other p) (hr : ∀ r ∈ result, Clear side r) :
      Clear side (.function params result)
  | contract {side : Side} (name : String) (members : List Signature) :
      Clear side (.contract name members)

theorem Clear.alternatives_ne_nil {side : Side} {t : Ty} (h : t.Clear side) :
    t.alternatives ≠ [] := by
  induction h with
  | union hsome _ ih =>
    obtain ⟨m, hm⟩ := List.exists_mem_of_ne_nil _ hsome
    obtain ⟨u, hu⟩ := List.exists_mem_of_ne_nil _ (ih m hm)
    exact List.ne_nil_of_mem (mem_alternatives_union.2 ⟨m, hm, hu⟩)
  | _ => simp [alternatives]

theorem Clear.hidesUnion {side : Side} {t : Ty} (h : t.Clear side) (hside : side = .source) :
    t.hidesUnion = false := by
  induction h with
  | aliased single _ _ => rw [hidesUnion_aliased, single hside]
  | union _ _ ih =>
    simp only [Ty.hidesUnion, List.any_eq_false] at ih ⊢
    intro u hu
    obtain ⟨m, hm, hum⟩ := mem_alternatives_union.1 hu
    exact ih m hm hside u hum
  | _ => exact hidesUnion_of_unaliased rfl

theorem Clear.meets {s t : Ty} (hs : s.Clear .source) (ht : t.Clear .target) : s.Meets t :=
  fun _ => ⟨hs.hidesUnion rfl, ht.alternatives_ne_nil⟩

/-! ### Comparing without aliases -/

/-- The types compare as they do without their aliases. -/
def SameExpanded (s t : Ty) : Prop :=
  s.Clear .source → t.Clear .target → fits s t = fits s.expand t.expand

section

variable {s t : Ty}

theorem pairsFit_expand : ∀ {ss ts : List Ty},
    (∀ s ∈ ss, ∀ t ∈ ts, fits s t = fits s.expand t.expand) →
      pairsFit ss ts = pairsFit (expandAll ss) (expandAll ts)
  | [], [], _ => rfl
  | [], _ :: _, _ | _ :: _, [], _ => by simp [pairsFit, expandAll]
  | s :: ss, t :: ts, h => by
    have hhead : fits s t = fits s.expand t.expand := h s List.mem_cons_self t List.mem_cons_self
    have hrest : pairsFit ss ts = pairsFit (expandAll ss) (expandAll ts) :=
      pairsFit_expand fun s hs t ht => h s (List.mem_cons_of_mem _ hs) t (List.mem_cons_of_mem _ ht)
    rw [expandAll, expandAll, pairsFit, pairsFit, hhead, hrest]

theorem covers_expand {ms ws : List Member}
    (h : ∀ m ∈ ms, ∀ w ∈ ws, fits m.type w.type = fits m.type.expand w.type.expand) :
    covers ms ws = covers (expandMembers ms) (expandMembers ws) := by
  rw [Bool.eq_iff_iff, covers_iff, covers_iff, expandMembers_eq ws, List.forall_mem_map]
  refine forall₂_congr fun w hw => ?_
  have hfind : (expandMembers ms).find? (fun m => m.name == w.name) =
      (ms.find? fun m => m.name == w.name).map fun m => ⟨m.name, expand m.type, m.optional⟩ := by
    rw [expandMembers_eq, List.find?_map]
    rfl
  rw [hfind]
  cases hm : ms.find? fun m => m.name == w.name with
  | none => rfl
  | some m =>
    have hsame := h m (List.mem_of_find?_eq_some hm) w hw
    simp [hsame]

theorem sizeOf_type_lt {m : Member} {ms : List Member} (h : m ∈ ms) :
    sizeOf m.type < sizeOf ms := by
  have hlt : sizeOf m < sizeOf ms := List.sizeOf_lt_of_mem h
  obtain ⟨name, type, optional⟩ := m
  simp only [MemberOf.mk.sizeOf_spec] at hlt
  show sizeOf type < sizeOf ms
  omega

theorem function_expand {ps qs : List Ty} {r r' : Option Ty}
    (hpairs : pairsFit qs ps = pairsFit (expandAll qs) (expandAll ps))
    (hresult : ∀ a ∈ r, ∀ b ∈ r', fits a b = fits a.expand b.expand) :
    matchesForm (function ps r) (function qs r') =
      matchesForm (function ps r).expand (function qs r').expand := by
  cases r with
  | none => simp [expand, expandOption, matchesForm, hpairs]
  | some a =>
    cases r' with
    | none => simp [expand, expandOption, matchesForm, hpairs]
    | some b => simp [expand, expandOption, matchesForm, hpairs, hresult a rfl b rfl]

/-- Two types, neither of them dynamic, a union, an alias or a parameter, compare by their parts. -/
theorem matchesForm_expand (hs : s.isDirect = true) (ht : t.isDirect = true)
    (hps : ∀ n b, s ≠ param n b) (hpt : ∀ n b, t ≠ param n b) (hcs : s.Clear .source)
    (hct : t.Clear .target)
    (ih : ∀ s' t' : Ty, sizeOf s' + sizeOf t' < sizeOf s + sizeOf t → SameExpanded s' t') :
    matchesForm s t = matchesForm s.expand t.expand := by
  cases hcs with
  | aliased | union => cases hs
  | param => exact absurd rfl (hps _ _)
  | primitive p =>
    cases hct with
    | aliased | union => cases ht
    | param => exact absurd rfl (hpt _ _)
    | _ => simp [matchesForm, expand]
  | contract name members =>
    cases hct with
    | aliased | union => cases ht
    | param => exact absurd rfl (hpt _ _)
    | _ => simp [matchesForm, expand]
  | @array _ a ha =>
    cases hct with
    | aliased | union => cases ht
    | param => exact absurd rfl (hpt _ _)
    | @array _ b hb =>
      have hlt : sizeOf a + sizeOf b < sizeOf (array a) + sizeOf (array b) := by
        rw [array.sizeOf_spec, array.sizeOf_spec]
        omega
      rw [expand, expand, matchesForm, matchesForm, ih a b hlt ha hb]
    | _ => simp [matchesForm, expand]
  | @struct _ name params members hm =>
    cases hct with
    | aliased | union => cases ht
    | param => exact absurd rfl (hpt _ _)
    | @struct _ name' params' wanted hw =>
      rw [expand, expand, matchesForm, matchesForm]
      refine covers_expand fun m hmem w hwant => ih m.type w.type ?_ (hm m hmem) (hw w hwant)
      have hlt := sizeOf_type_lt hmem
      have hlt' := sizeOf_type_lt hwant
      simp only [struct.sizeOf_spec]
      omega
    | _ => simp [matchesForm, expand]
  | @generic _ name args ha =>
    cases hct with
    | aliased | union => cases ht
    | param => exact absurd rfl (hpt _ _)
    | @generic _ name' args' ha' =>
      have hpairs : pairsFit args args' = pairsFit (expandAll args) (expandAll args') := by
        refine pairsFit_expand fun a hmem a' hmem' => ih a a' ?_ (ha a hmem) (ha' a' hmem')
        have hlt := List.sizeOf_lt_of_mem hmem
        have hlt' := List.sizeOf_lt_of_mem hmem'
        simp only [generic.sizeOf_spec]
        omega
      rw [expand, expand, matchesForm, matchesForm, hpairs]
    | _ => simp [matchesForm, expand]
  | @function _ params result hp hr =>
    cases hct with
    | aliased | union => cases ht
    | param => exact absurd rfl (hpt _ _)
    | @function _ params' result' hp' hr' =>
      -- the parameters of the target are compared as sources
      have hpairs : pairsFit params' params = pairsFit (expandAll params') (expandAll params) := by
        refine pairsFit_expand fun p hmem q hmem' => ih p q ?_ (hp' p hmem) (hp q hmem')
        have hlt := List.sizeOf_lt_of_mem hmem
        have hlt' := List.sizeOf_lt_of_mem hmem'
        simp only [function.sizeOf_spec]
        omega
      refine function_expand hpairs ?_
      rintro r ⟨⟩ r' ⟨⟩
      refine ih r r' ?_ (hr r rfl) (hr' r' rfl)
      simp only [function.sizeOf_spec, Option.some.sizeOf_spec]
      omega
    | _ => simp [matchesForm, expand]

/-- A parameter in the target gives way to its bound, whatever the source is. -/
theorem sameExpanded_param {n : String} {bound : Option Ty} (hs : s.isDirect = true)
    (hd : s.isDynamic = false) (ih : ∀ b ∈ bound, SameExpanded s b) :
    SameExpanded s (param n bound) := by
  intro hcs hct
  have hs' : s.expand.isDirect = true := isDirect_expand hs
  have hd' : s.expand.isDynamic = false := by rw [isDynamic_expand hs, hd]
  cases hct with
  | param hbound =>
    cases bound with
    | none => rw [fits_free hs hd, expand, expandOption, fits_free hs' hd']
    | some b =>
      have hb : fits s b = fits s.expand b.expand := ih b rfl hcs (hbound b rfl)
      rw [Bool.eq_iff_iff, fits_bounded hs hd, expand, expandOption, fits_bounded hs' hd', hb]

/-- A parameter in the source gives way to its bound, unless the target is one too. -/
theorem matchesForm_param {n : String} {bound : Option Ty} (ht : t.isDirect = true)
    (hpt : ∀ n b, t ≠ param n b) :
    matchesForm (param n bound) t = bound.any fun b => fits b t := by
  cases bound <;> cases t <;> simp_all [matchesForm, isDirect]

/-- Types that are neither unions nor aliases. -/
theorem sameExpanded_direct (hs : s.isDirect = true) (ht : t.isDirect = true)
    (ih : ∀ s' t' : Ty, sizeOf s' + sizeOf t' < sizeOf s + sizeOf t → SameExpanded s' t') :
    SameExpanded s t := by
  intro hcs hct
  by_cases hd : s.isDynamic = true ∨ t.isDynamic = true
  · have hd' : s.expand.isDynamic = true ∨ t.expand.isDynamic = true := by
      rwa [isDynamic_expand hs, isDynamic_expand ht]
    rw [fits_of_dynamic hd, fits_of_dynamic hd']
  have hsd : s.isDynamic = false := by simpa using fun h => hd (.inl h)
  have htd : t.isDynamic = false := by simpa using fun h => hd (.inr h)
  -- a parameter in the target counts for its bound, whatever the form of the source
  by_cases hpt : ∃ n b, t = param n b
  · obtain ⟨n, bound, rfl⟩ := hpt
    refine sameExpanded_param hs hsd (fun b hb => ih s b ?_) hcs hct
    cases hb
    simp
    omega
  rw [fits_eq hsd htd, fits_eq (by rw [isDynamic_expand hs, hsd]) (by rw [isDynamic_expand ht, htd])]
  have hpt' : ∀ n b, t ≠ param n b := fun n b h => hpt ⟨n, b, h⟩
  by_cases hps : ∃ n b, s = param n b
  · obtain ⟨n, bound, rfl⟩ := hps
    have hexp : ∀ n b, t.expand ≠ param n b := by
      cases t <;> simp_all [expand, isDirect]
    rw [matchesForm_param ht hpt', expand, matchesForm_param (isDirect_expand ht) hexp]
    cases bound with
    | none => rfl
    | some b =>
      cases hcs with
      | param hbound =>
        have hb : fits b t = fits b.expand t.expand :=
          ih b t (by rw [param.sizeOf_spec, Option.some.sizeOf_spec]; omega) (hbound b rfl) hct
        simp [expandOption, hb]
  · exact matchesForm_expand hs ht (fun n b h => hps ⟨n, b, h⟩) hpt' hcs hct ih

theorem direct_or (t : Ty) :
    t.isDirect = true ∨ (∃ n u, t = aliased n u) ∨ ∃ ts, t = union ts := by
  cases t <;> simp [isDirect]

/-- A source that is neither a union nor an alias. -/
theorem sameExpanded_source (hs : s.isDirect = true)
    (ih : ∀ s' t' : Ty, sizeOf s' + sizeOf t' < sizeOf s + sizeOf t → SameExpanded s' t') :
    SameExpanded s t := by
  rcases direct_or t with ht | ⟨n, u, rfl⟩ | ⟨ts, rfl⟩
  · exact sameExpanded_direct hs ht ih
  · intro hcs hct
    cases hct with
    | aliased _ hclear =>
      rw [fits_aliased_target (hcs.meets hclear), expand, ih s u (by rw [aliased.sizeOf_spec]; omega) hcs hclear]
  -- a dynamic source fits a union without looking at its members
  · intro hcs hct
    cases hd : s.isDynamic with
    | true =>
      have hd' : s.expand.isDynamic = true := by rw [isDynamic_expand hs, hd]
      rw [fits_of_dynamic (.inl hd), fits_of_dynamic (.inl hd')]
    | false =>
      have hd' : s.expand.isDynamic = false := by rw [isDynamic_expand hs, hd]
      have hs' : s.expand.isUnion = false := by
        cases s <;> simp_all [expand, isUnion, isDirect]
      have hu : s.isUnion = false := by
        cases s <;> simp_all [isUnion, isDirect]
      cases hct with
      | union _ hclear =>
        have hsame : ∀ t ∈ ts, fits s t = fits s.expand t.expand := by
          intro t hmem
          have hlt := List.sizeOf_lt_of_mem hmem
          refine ih s t ?_ hcs (hclear t hmem)
          simp only [union.sizeOf_spec]
          omega
        rw [Bool.eq_iff_iff, fits_union_right hu hd, expand, expandAll_eq, fits_union_right hs' hd']
        constructor
        · rintro ⟨t, hmem, hfit⟩
          exact ⟨t.expand, List.mem_map_of_mem hmem, by rwa [← hsame t hmem]⟩
        · rintro ⟨_, hmem, hfit⟩
          obtain ⟨t, ht, rfl⟩ := List.mem_map.1 hmem
          exact ⟨t, ht, by rwa [hsame t ht]⟩

/-- Aliases make no difference to which types fit which. -/
theorem fits_expand (s t : Ty) : SameExpanded s t := by
  -- by the size of both types, since the parameters of functions change sides
  induction hn : sizeOf s + sizeOf t using Nat.strongRecOn generalizing s t with
  | _ n ih =>
    subst hn
    have ih' : ∀ s' t' : Ty, sizeOf s' + sizeOf t' < sizeOf s + sizeOf t → SameExpanded s' t' :=
      fun s' t' hlt => ih _ hlt s' t' rfl
    rcases direct_or s with hs | ⟨n, u, rfl⟩ | ⟨ss, rfl⟩
    · exact sameExpanded_source hs ih'
    · intro hcs hct
      have hmeets := hcs.meets hct
      cases hcs with
      | aliased _ hclear =>
        rw [fits_aliased_source hmeets, expand, ih' u t (by rw [aliased.sizeOf_spec]; omega) hclear hct]
    · intro hcs hct
      cases hcs with
      | union _ hclear =>
        have hsame : ∀ s ∈ ss, fits s t = fits s.expand t.expand := by
          intro s hmem
          have hlt := List.sizeOf_lt_of_mem hmem
          refine ih' s t ?_ (hclear s hmem) hct
          simp only [union.sizeOf_spec]
          omega
        rw [Bool.eq_iff_iff, fits_union_left, expand, expandAll_eq, fits_union_left,
          List.forall_mem_map]
        exact forall₂_congr fun s hmem => by rw [hsame s hmem]

end

end Ty

/-! ### Arguments of generic structs -/

/-- Checks made in order pass if each of them does. -/
theorem forM_eq_ok {ε α : Type} {f : α → Except ε Unit} {xs : List α} :
    xs.forM f = .ok () ↔ ∀ x ∈ xs, f x = .ok () := by
  induction xs with
  | nil => simp [pure, Except.pure]
  | cons x xs ih =>
    rw [List.forM, List.forall_mem_cons, ← ih]
    cases hx : f x with
    | error e => simp [bind, Except.bind]
    | ok u => simp [bind, Except.bind]

/-- A parameter with every alias in its bound replaced. -/
def Bound.expand (p : Bound) : Bound :=
  ⟨p.name, p.bound.map Ty.expand⟩

namespace Store

theorem checkTypeArgs_eq_ok {name : String} {params : List Bound} {args : List Ty} :
    checkTypeArgs name params args = .ok () ↔ args.length = params.length ∧
      ∀ p ∈ params.zip args, ∀ b ∈ p.1.bound, p.2.fits b = true := by
  unfold checkTypeArgs
  by_cases hlen : args.length = params.length
  · rw [if_neg (not_not_intro hlen), forM_eq_ok]
    simp only [hlen, true_and]
    refine forall₂_congr fun p _ => ?_
    obtain ⟨⟨name, bound⟩, arg⟩ := p
    cases bound with
    | none => simp
    | some b => cases hfit : arg.fits b <;> simp [hfit]
  · rw [if_pos hlen]
    simp [hlen]

/-- Arguments are within their bounds if they are once all aliases are replaced. -/
theorem checkTypeArgs_expand {name : String} {params : List Bound} {args : List Ty}
    (hparams : ∀ p ∈ params, ∀ b ∈ p.bound, b.Clear .target) (hargs : ∀ a ∈ args, a.Clear .source) :
    checkTypeArgs name params args = .ok () ↔
      checkTypeArgs name (params.map Bound.expand) (args.map Ty.expand) = .ok () := by
  rw [checkTypeArgs_eq_ok, checkTypeArgs_eq_ok, List.length_map, List.length_map]
  refine and_congr_right fun _ => ?_
  rw [List.zip_map, List.forall_mem_map]
  refine forall₂_congr fun p hp => ?_
  obtain ⟨hparam, harg⟩ := List.of_mem_zip hp
  show (∀ b ∈ p.1.bound, p.2.fits b = true) ↔
    ∀ b ∈ p.1.bound.map Ty.expand, p.2.expand.fits b = true
  cases hbound : p.1.bound with
  | none => simp
  | some b =>
    have hsame : p.2.fits b = p.2.expand.fits b.expand :=
      Ty.fits_expand p.2 b (hargs _ harg) (hparams _ hparam b hbound)
    simp [hsame]

end Store

/-- Aliases are transparent. One in the source or in the target counts for what it stands for, unless
an alias of a union meets a union. And replacing aliases anywhere inside the arguments of a generic
struct, or inside the bounds on them, makes no difference to whether the arguments are accepted. -/
theorem Ty.aliases_transparent (n : String) (s t : Ty) :
    ((aliased n s).Meets t → fits (aliased n s) t = fits s t) ∧
    (s.Meets t → fits s (aliased n t) = fits s t) ∧
    ∀ (name : String) (params params' : List Bound) (args args' : List Ty),
      (∀ p ∈ params ++ params', ∀ b ∈ p.bound, b.Clear .target) →
      (∀ a ∈ args ++ args', a.Clear .source) →
      params.map Bound.expand = params'.map Bound.expand → args.map expand = args'.map expand →
      (Store.checkTypeArgs name params args = .ok () ↔
        Store.checkTypeArgs name params' args' = .ok ()) := by
  refine ⟨fits_aliased_source, fits_aliased_target, ?_⟩
  intro name params params' args args' hbounds hargs hparams hsame
  rw [List.forall_mem_append] at hbounds hargs
  rw [Store.checkTypeArgs_expand hbounds.1 hargs.1, Store.checkTypeArgs_expand hbounds.2 hargs.2,
    hparams, hsame]

namespace Ty

/-- A number or a text. -/
def either : Ty :=
  union [.primitive .number, .primitive .text]

/-- Lists of numbers behind an alias fit a union. A bound behind an alias of a union, on an argument
with an alias inside, accepts what the union itself accepts. -/
theorem aliasedBound_transparent :
    (aliased "Counts" (.array (.primitive .number))).Meets (union [either, .array either]) ∧
    fits (aliased "Counts" (.array (.primitive .number))) (union [either, .array either]) =
      fits (.array (.primitive .number)) (union [either, .array either]) ∧
    (Store.checkTypeArgs "Box" [⟨"T", some (.array (aliased "Either" either))⟩]
        [.array (aliased "Count" (.primitive .number))] = .ok () ↔
      Store.checkTypeArgs "Box" [⟨"T", some (.array either)⟩] [.array (.primitive .number)] =
        .ok ()) := by
  have hmeets : (aliased "Counts" (.array (.primitive .number))).Meets
      (union [either, .array either]) := fun _ => ⟨rfl, by decide⟩
  have heither : Clear .target either := .union (by simp) (by simp [Clear.primitive])
  obtain ⟨hsource, -, hargs⟩ := aliases_transparent "Counts" (.array (.primitive .number))
    (union [either, .array either])
  refine ⟨hmeets, hsource hmeets, hargs _ _ _ _ _ ?_ ?_ rfl rfl⟩
  · simp only [List.cons_append, List.nil_append, List.forall_mem_cons, List.not_mem_nil,
      false_imp_iff, implies_true, and_true, Option.mem_def, Option.some.injEq, forall_eq']
    exact ⟨.array (.aliased nofun heither), .array heither⟩
  · simp only [List.cons_append, List.nil_append, List.forall_mem_cons, List.not_mem_nil,
      false_imp_iff, implies_true, and_true]
    exact ⟨.array (.aliased (fun _ => rfl) (.primitive _)), .array (.primitive _)⟩

/-- An alias of a union does not fit the union, though the union does, and though the alias fits
another alias of it. So a generic struct accepts the union as an argument and not the alias. -/
theorem hiddenUnion_unfit :
    ({} : Store).evalTypeDef ⟨0, []⟩ "E" [] (.aliased (.union [.primitive .number .nowhere,
      .primitive .text .nowhere] .nowhere) .nowhere) = .ok (aliased "E" either) ∧
    fits either either = true ∧ fits (aliased "E" either) either = false ∧
    fits (aliased "E" either) (aliased "F" either) = true ∧
    Store.checkTypeArgs "Box" [⟨"T", some either⟩] [either] = .ok () ∧
    Store.checkTypeArgs "Box" [⟨"T", some either⟩] [aliased "E" either] ≠ .ok () := by
  have hself : fits either either = true := by
    simp [either, fits, matchesForm, allFit, anyFits, isDynamic]
  have hhidden : fits (aliased "E" either) either = false := by
    simp [either, fits, matchesForm, allFit, anyFits, isDynamic]
  refine ⟨rfl, hself, hhidden, ?_, ?_, ?_⟩
  · rw [fits_aliased_left rfl]
    exact fits_aliased either hself
  · simp [Store.checkTypeArgs_eq_ok, hself]
  · simp [Store.checkTypeArgs_eq_ok, hhidden]

end Ty

end Sable
