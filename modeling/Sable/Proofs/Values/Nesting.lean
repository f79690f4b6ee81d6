import Mathlib.Data.List.Perm.Subperm
import Sable.Proofs.Types.Equality
import Sable.Proofs.Types.Reflexivity

/-!
# Values inside values

`Store.parts`: the values that the type of a value is made of, with `Store.Within` for any depth. For an
`Acyclic` value `Store.typeWithin` depends neither on the containers around it nor on the depth, and the
type of a container is its `shape`, made of the types of its parts.
-/

namespace Sable

/-! ### Types of arrays -/

namespace Store

theorem mem_distinct {t : Ty} {ts : List Ty} : t ∈ distinct ts ↔ t ∈ ts := by
  have hfold (seen : List Ty) :
      t ∈ ts.foldl (fun seen t => if seen.contains t then seen else seen ++ [t]) seen ↔
        t ∈ seen ∨ t ∈ ts := by
    induction ts generalizing seen with
    | nil => simp
    | cons u us ih =>
      rw [List.foldl_cons, ih]
      split <;> rename_i hold
      · obtain ⟨u', hu', hbeq⟩ := List.contains_iff_exists_mem_beq.1 hold
        obtain rfl : u = u' := Ty.eq_of_beq hbeq
        constructor
        · rintro (h | h)
          · exact .inl h
          · exact .inr (List.mem_cons_of_mem u h)
        · rintro (h | h)
          · exact .inl h
          · rcases List.mem_cons.1 h with rfl | h
            · exact .inl hu'
            · exact .inr h
      · simp [or_assoc]
  unfold distinct
  simpa using hfold []

/-- An array without elements, with elements of one type, or of several. -/
theorem arrayType_cases (ts : List Ty) :
    ts = [] ∧ arrayType ts = .array .dynamic ∨
    (∃ t, (∀ u, u ∈ ts ↔ u = t) ∧ arrayType ts = .array t) ∨
    ∃ us, (∀ u, u ∈ ts ↔ u ∈ us) ∧ arrayType ts = .array (.union us) := by
  have hmem (u : Ty) : u ∈ ts ↔ u ∈ distinct ts := mem_distinct.symm
  unfold arrayType
  split <;> rename_i hd
  · rw [hd] at hmem
    exact .inl ⟨List.eq_nil_iff_forall_not_mem.2 fun u hu => by simpa using (hmem u).1 hu, rfl⟩
  · rw [hd] at hmem
    exact .inr (.inl ⟨_, fun u => by simpa using hmem u, rfl⟩)
  · exact .inr (.inr ⟨_, hmem, rfl⟩)

/-- An array type fits another if the type of every element does. -/
theorem arrayType_fits {ts : List Ty} {element : Ty} :
    (arrayType ts).fits (.array element) = true ↔ ∀ t ∈ ts, t.fits element = true := by
  rcases arrayType_cases ts with ⟨rfl, h⟩ | ⟨t, hmem, h⟩ | ⟨us, hmem, h⟩ <;>
    rw [h, Ty.fits_eq rfl rfl, Ty.matchesForm]
  · simp [Ty.fits_of_dynamic (s := .dynamic) (.inl rfl)]
  · simp [hmem]
  · rw [Ty.fits_union_left]
    simp [hmem]

/-- Arrays of one type have elements of the same types, as long as none is dynamic or a union. -/
theorem mem_of_arrayType_eq {ts us : List Ty} (h : arrayType ts = arrayType us)
    (hts : ∀ t ∈ ts, t.isDynamic = false ∧ t.isUnion = false)
    (hus : ∀ u ∈ us, u.isDynamic = false ∧ u.isUnion = false) {u : Ty} (hu : u ∈ us) : u ∈ ts := by
  rcases arrayType_cases ts with ⟨rfl, ht⟩ | ⟨t, hmem, ht⟩ | ⟨all, hmem, ht⟩ <;>
    rcases arrayType_cases us with ⟨rfl, hu'⟩ | ⟨t', hmem', hu'⟩ | ⟨all', hmem', hu'⟩ <;>
    replace h := ht.symm.trans (h.trans hu')
  · exact hu
  · cases h
    exact absurd (hus _ ((hmem' _).2 rfl)).1 (by decide)
  · cases h
  · cases hu
  · cases h
    rw [hmem]
    exact (hmem' u).1 hu
  · cases h
    exact absurd (hts _ ((hmem _).2 rfl)).2 (by simp [Ty.isUnion])
  · cases hu
  · cases h
    exact absurd (hus _ ((hmem' _).2 rfl)).2 (by simp [Ty.isUnion])
  · cases h
    rw [hmem]
    exact (hmem' u).1 hu

end Store

/-! ### Containers and their parts -/

/-- A container as a value. -/
def Container.value : Container → Value
  | object a => .object a
  | array a => .array a

theorem Container.value_inj {c c' : Container} (h : c.value = c'.value) : c = c' := by
  cases c <;> cases c' <;> cases h <;> rfl

theorem Value.container_or (x : Value) :
    (∃ c : Container, x = c.value) ∨ ∀ c : Container, x ≠ c.value := by
  cases x with
  | object a => exact .inl ⟨.object a, rfl⟩
  | array a => exact .inl ⟨.array a, rfl⟩
  | _ => exact .inr fun c => by cases c <;> exact nofun

/-- An instance with type arguments, whose type shows the arguments and nothing of what it holds. -/
def Obj.isSealed (o : Obj) : Bool :=
  o.tag.isSome && !o.typeArgs.isEmpty

theorem Obj.isSealed_iff {o : Obj} :
    o.isSealed = true ↔ ∃ name arg args, o.tag = some name ∧ o.typeArgs = arg :: args := by
  unfold isSealed
  cases o.tag <;> cases o.typeArgs <;> simp

/-- Neither a container nor one of the values that count as anything. -/
def Value.isTyped : Value → Bool
  | .null | .nothing | .number _ | .text _ | .bool _ | .function _ => true
  | _ => false

/-- What is seen of a value apart from its type: whether it is an object, of which struct and with
type arguments or not, or an array. -/
inductive Head where
  | object (tag : Option String) (isSealed : Bool)
  | array
  | plain

/-- The head of the values of a type. -/
def Ty.head : Ty → Head
  | .struct name _ _ => .object (if name = "" then none else some name) false
  | .generic name _ => .object (some name) true
  | .array _ => .array
  | _ => .plain

namespace Store

variable {s : Store}

/-- The container is in the store. -/
def Has (s : Store) : Container → Prop
  | .object a => a < s.objects.size
  | .array a => a < s.arrays.size

/-- The values that the type of a value is made of. -/
def parts (s : Store) : Value → List Value
  | .object a => if (s.object a).isSealed then [] else (s.object a).properties.map (·.2)
  | .array a => (s.array a).toList
  | _ => []

/-- The type of a container, given the types of what it holds. -/
def shape (s : Store) (type : Value → Ty) : Container → Ty
  | .object a =>
    let o := s.object a
    if o.isSealed then .generic (o.tag.getD "") o.typeArgs
    else .struct (o.tag.getD "") [] (o.properties.map fun p => ⟨p.1, type p.2, false⟩)
  | .array a => arrayType ((s.array a).toList.map type)

theorem shape_congr {f g : Value → Ty} {c : Container} (h : ∀ y ∈ s.parts c.value, f y = g y) :
    s.shape f c = s.shape g c := by
  cases c with
  | object a =>
    simp only [Container.value, parts] at h
    simp only [shape]
    cases hsealed : (s.object a).isSealed with
    | true => rfl
    | false =>
      simp only [hsealed, Bool.false_eq_true, if_false, List.forall_mem_map] at h ⊢
      congr 1
      exact List.map_congr_left fun p hp => by rw [h p hp]
  | array a => exact congrArg arrayType (List.map_congr_left h)

theorem typeWithin_container (d : Nat) (seen : List Container) (c : Container) :
    s.typeWithin (d + 1) seen c.value =
      if c ∈ seen then .dynamic else s.shape (s.typeWithin d (c :: seen)) c := by
  cases c with
  | array a => rfl
  | object a =>
    simp only [Container.value, typeWithin, shape]
    split
    · rfl
    · split
      · rename_i name arg args htag hargs
        rw [if_pos (Obj.isSealed_iff.2 ⟨name, arg, args, htag, hargs⟩), htag, hargs]
        rfl
      · rename_i hopen
        rw [if_neg]
        rintro hsealed
        obtain ⟨name, arg, args, htag, hargs⟩ := Obj.isSealed_iff.1 hsealed
        exact hopen name arg args htag hargs

/-- What is not a container has the same type everywhere. -/
theorem typeWithin_leaf {s' : Store} {x : Value} (h : ∀ c : Container, x ≠ c.value) (d d' : Nat)
    (seen seen' : List Container) : s.typeWithin (d + 1) seen x = s'.typeWithin (d' + 1) seen' x := by
  cases x with
  | object a => exact absurd rfl (h (.object a))
  | array a => exact absurd rfl (h (.array a))
  | _ => rfl

theorem has_of_part {c : Container} {y : Value} (h : y ∈ s.parts c.value) : s.Has c := by
  cases c with
  | object a =>
    refine Nat.lt_of_not_le fun hle => ?_
    have hobject : s.object a = default := by simp [object, Nat.not_lt.2 hle]
    simp [Container.value, parts, hobject, default] at h
  | array a =>
    refine Nat.lt_of_not_le fun hle => ?_
    have harray : s.array a = #[] := by simp [array, Nat.not_lt.2 hle]
    simp [Container.value, parts, harray] at h

/-! ### The depth of a search -/

/-- The containers around a value on the way down, so that the depth left is enough. -/
structure Trail (s : Store) (depth : Nat) (seen : List Container) : Prop where
  nodup : seen.Nodup
  has : ∀ z ∈ seen, s.Has z
  deep : s.depth ≤ depth + seen.length

theorem Trail.start (s : Store) : s.Trail s.depth [] where
  nodup := .nil
  has := nofun
  deep := Nat.le_refl _

theorem Trail.push {d : Nat} {seen : List Container} {c : Container} (h : s.Trail (d + 1) seen)
    (hc : c ∉ seen) (hhas : s.Has c) : s.Trail d (c :: seen) where
  nodup := List.nodup_cons.2 ⟨hc, h.nodup⟩
  has := List.forall_mem_cons.2 ⟨hhas, h.has⟩
  deep := by
    have hdeep := h.deep
    rw [List.length_cons]
    omega

theorem Trail.inside {c : Container} (h : s.Has c) :
    s.Trail (s.objects.size + s.arrays.size) [c] :=
  Trail.push (.start s) List.not_mem_nil h

/-- No more containers are met on the way down than there are. -/
theorem Trail.length_le {d : Nat} {seen : List Container} (h : s.Trail d seen) :
    seen.length ≤ s.objects.size + s.arrays.size := by
  have hsubset : seen ⊆ (List.range s.objects.size).map Container.object ++
      (List.range s.arrays.size).map Container.array := by
    intro c hc
    have hhas := h.has c hc
    cases c <;> simpa [Has] using hhas
  simpa using (h.nodup.subperm hsubset).length_le

theorem Trail.depth_pos {d : Nat} {seen : List Container} (h : s.Trail d seen) : 0 < d := by
  have hlength := h.length_le
  have hdeep := h.deep
  unfold depth at hdeep
  omega

/-- More depth than enough does not change a type. -/
theorem typeWithin_deeper {d : Nat} {seen : List Container} (h : s.Trail d seen) (k : Nat) (x : Value) :
    s.typeWithin (d + k) seen x = s.typeWithin d seen x := by
  induction d generalizing seen x with
  | zero => exact absurd h.depth_pos (Nat.lt_irrefl 0)
  | succ d ih =>
    rw [Nat.add_right_comm]
    rcases x.container_or with ⟨c, rfl⟩ | hx
    · rw [typeWithin_container, typeWithin_container]
      split <;> rename_i hc
      · rfl
      · exact shape_congr fun y hy => ih (h.push hc (has_of_part hy)) y
    · exact typeWithin_leaf hx _ _ _ _

/-- The type of a container, by what it holds. -/
theorem typeOf_eq_shape (c : Container) :
    s.typeOf c.value = s.shape (s.typeWithin (s.objects.size + s.arrays.size) [c]) c := by
  unfold typeOf depth
  rw [typeWithin_container, if_neg List.not_mem_nil]

/-! ### What lies in what -/

/-- The first value is the second or lies in it. -/
inductive Within (s : Store) (y : Value) : Value → Prop
  | self : Within s y y
  | part {x p : Value} (hp : p ∈ s.parts x) (h : Within s y p) : Within s y x

theorem Within.trans {x y z : Value} (h : s.Within z y) (h' : s.Within y x) : s.Within z x := by
  induction h' with
  | self => exact h
  | part hp _ ih => exact .part hp ih

/-- Of the containers around a value only those count that lie in it. -/
theorem typeWithin_eq_of_within {seen seen' : List Container} (d : Nat) (x : Value)
    (h : ∀ z : Container, s.Within z.value x → (z ∈ seen ↔ z ∈ seen')) :
    s.typeWithin d seen x = s.typeWithin d seen' x := by
  induction d generalizing seen seen' x with
  | zero => rfl
  | succ d ih =>
    rcases x.container_or with ⟨c, rfl⟩ | hx
    · have hc : c ∈ seen ↔ c ∈ seen' := h c .self
      rw [typeWithin_container, typeWithin_container]
      simp only [hc]
      split
      · rfl
      · refine shape_congr fun y hy => ih y fun z hz => ?_
        rw [List.mem_cons, List.mem_cons, h z (.part hy hz)]
    · exact typeWithin_leaf hx _ _ _ _

/-- A value has one type wherever it is met, if none of the containers around it lies in it. -/
theorem typeWithin_eq_typeOf {x : Value} {d : Nat} {seen : List Container} (ht : s.Trail d seen)
    (hseen : ∀ z ∈ seen, ¬ s.Within z.value x) : s.typeWithin d seen x = s.typeOf x := by
  obtain ⟨k, hk⟩ := Nat.exists_eq_add_of_le ht.deep
  have hnone (z : Container) (hz : s.Within z.value x) : z ∈ seen ↔ z ∈ [] :=
    ⟨fun hmem => absurd hz (hseen z hmem), nofun⟩
  calc s.typeWithin d seen x
      = s.typeWithin (d + seen.length) seen x := (typeWithin_deeper ht _ x).symm
    _ = s.typeWithin (d + seen.length) [] x := typeWithin_eq_of_within _ x hnone
    _ = s.typeWithin (s.depth + k) [] x := by rw [hk]
    _ = s.typeOf x := typeWithin_deeper (.start s) k x

/-! ### Values without cycles -/

/-- A value without cycles: every way down from it ends. -/
inductive Acyclic (s : Store) : Value → Prop
  | intro {x : Value} (h : ∀ y ∈ s.parts x, Acyclic s y) : Acyclic s x

theorem Acyclic.not_within {x y : Value} (h : s.Acyclic x) (hy : y ∈ s.parts x) :
    ¬ s.Within x y := by
  induction h generalizing y with
  | @intro x _ ih =>
    intro hxy
    have hyx : s.Within y x := .part hy .self
    cases hxy with
    | self => exact ih x hy hy .self
    | @part _ p hp hxp => exact ih y hy hp (hyx.trans hxp)

/-- A container around a value without cycles does not lie in it. -/
theorem Acyclic.not_around {c o : Value} (h : s.Acyclic o) (ho : o ∈ s.parts c) :
    ¬ s.Within c o := by
  intro hco
  have hoc : s.Within o c := .part ho .self
  cases hco with
  | self => exact h.not_within ho .self
  | @part _ p hp hcp => exact h.not_within hp (hoc.trans hcp)

/-- The type of a container without cycles follows from the types of its parts. -/
theorem Acyclic.typeOf_container {c : Container} (h : s.Acyclic c.value) :
    s.typeOf c.value = s.shape s.typeOf c := by
  rw [typeOf_eq_shape]
  refine shape_congr fun y hy => ?_
  refine typeWithin_eq_typeOf (.inside (has_of_part hy)) ?_
  simpa using h.not_within hy

def tag? (s : Store) : Container → Option String
  | .object a => (s.object a).tag
  | .array _ => none

/-- A value without cycles. Its instances are of named structs, and all else in it shows its type. -/
inductive Tree (s : Store) : Value → Prop
  | leaf {x : Value} (typed : x.isTyped = true) : Tree s x
  | container {x : Value} {c : Container} (is : x = c.value) (named : s.tag? c ≠ some "")
      (h : ∀ y ∈ s.parts x, Tree s y) : Tree s x

theorem Tree.part {x y : Value} (h : s.Tree x) (hy : y ∈ s.parts x) : s.Tree y := by
  cases h with
  | leaf typed => cases x <;> simp_all [Value.isTyped, parts]
  | container _ _ h => exact h y hy

theorem Tree.acyclic {x : Value} (h : s.Tree x) : s.Acyclic x := by
  induction h with
  | @leaf x typed => exact .intro fun y hy => by cases x <;> simp_all [Value.isTyped, parts]
  | container _ _ _ ih => exact .intro ih

/-! ### What the type of a value tells -/

def head (s : Store) : Value → Head
  | .object a => .object (s.object a).tag (s.object a).isSealed
  | .array _ => .array
  | _ => .plain

theorem arrayType_eq (ts : List Ty) : ∃ t, arrayType ts = .array t := by
  rcases arrayType_cases ts with ⟨-, h⟩ | ⟨t, -, h⟩ | ⟨us, -, h⟩ <;> exact ⟨_, h⟩

theorem Tree.head_eq {x : Value} (h : s.Tree x) : s.head x = (s.typeOf x).head := by
  cases h with
  | leaf typed => cases x <;> first | rfl | cases typed
  | @container _ c hx named hparts =>
    subst hx
    rw [(Tree.container rfl named hparts).acyclic.typeOf_container]
    cases c with
    | array a =>
      obtain ⟨t, ht⟩ := arrayType_eq ((s.array a).toList.map s.typeOf)
      simp only [shape, ht]
      rfl
    | object a =>
      cases hsealed : (s.object a).isSealed with
      | true =>
        obtain ⟨tag, arg, args, htag, hargs⟩ := Obj.isSealed_iff.1 hsealed
        simp [Container.value, head, shape, hsealed, htag, Ty.head]
      | false =>
        cases htag : (s.object a).tag with
        | none => simp [Container.value, head, shape, hsealed, htag, Ty.head]
        | some tag =>
          have hne : tag ≠ "" := fun hempty => named (by rw [tag?, htag, hempty])
          simp [Container.value, head, shape, hsealed, htag, Ty.head, hne]

theorem Tree.type_shown {x : Value} (h : s.Tree x) :
    (s.typeOf x).isDynamic = false ∧ (s.typeOf x).isUnion = false := by
  cases h with
  | leaf typed => cases x <;> first | exact ⟨rfl, rfl⟩ | cases typed
  | @container _ c hx named hparts =>
    subst hx
    rw [(Tree.container rfl named hparts).acyclic.typeOf_container]
    cases c with
    | array a =>
      obtain ⟨t, ht⟩ := arrayType_eq ((s.array a).toList.map s.typeOf)
      simp only [shape, ht]
      exact ⟨rfl, rfl⟩
    | object a =>
      simp only [shape]
      split <;> exact ⟨rfl, rfl⟩

/-- In an array of the same type there is an element of the type of each. -/
theorem Tree.exists_element {a b : Nat} (ha : s.Tree (.array a)) (hb : s.Tree (.array b))
    (h : s.typeOf (.array b) = s.typeOf (.array a)) {q : Value} (hq : q ∈ (s.array b).toList) :
    ∃ p ∈ (s.array a).toList, s.typeOf q = s.typeOf p := by
  have hshown {a : Nat} (ha : s.Tree (.array a)) :
      ∀ t ∈ (s.array a).toList.map s.typeOf, t.isDynamic = false ∧ t.isUnion = false :=
    List.forall_mem_map.2 fun y hy => (ha.part hy).type_shown
  have harrays : arrayType ((s.array a).toList.map s.typeOf) =
      arrayType ((s.array b).toList.map s.typeOf) := by
    have ha' := ha.acyclic.typeOf_container (c := .array a)
    have hb' := hb.acyclic.typeOf_container (c := .array b)
    exact ha'.symm.trans (h.symm.trans hb')
  have hmem := mem_of_arrayType_eq harrays (hshown ha) (hshown hb) (List.mem_map_of_mem hq)
  obtain ⟨p, hp, heq⟩ := List.mem_map.1 hmem
  exact ⟨p, hp, heq.symm⟩

end Store

end Sable
