import Sable.Proofs.Runs.Expressions
import Sable.Proofs.Values.Checks

/-!
# Writing into a container

`Store.Writes`: a value is written into a container. The types of all values are unchanged that are
`Untouched`: those that the container is not in, and all of them if it is an instance with type
arguments. They are unchanged too if the new value has the type of the one that it `Replaces`.
-/

namespace Sable

theorem Assoc.map_set {κ α β : Type} [BEq κ] {k : κ} {a o : α} {t : List (κ × α)} {f : κ × α → β}
    (ho : t.lookup k = some o) (hf : ∀ k', f (k', a) = f (k', o)) : (set k a t).map f = t.map f := by
  induction t with
  | nil => cases ho
  | cons p t ih =>
    obtain ⟨k', a'⟩ := p
    rw [List.lookup_cons] at ho
    unfold set
    split <;> rename_i hk
    · rw [hk] at ho
      cases ho
      rw [List.map_cons, List.map_cons, hf]
    · rw [Bool.not_eq_true] at hk
      rw [hk] at ho
      rw [List.map_cons, List.map_cons, ih ho]

namespace Store

variable {s s' : Store} {env : Env} {c : Container} {key v : Value} {old : Option Value}

/-! ### What a write changes -/

/-- A value is written into a container under a key, in the place of another if there is one. -/
inductive Writes (s : Store) (v : Value) : Container → (key : Value) → (old : Option Value) → Store → Prop
  | property (a : Nat) (field : String) :
      Writes s v (.object a) (.text field) ((s.object a).properties.lookup field)
        (s.setProperty a field v)
  | element {a : Nat} {x : Float} {slot : Nat} (h : Number.slot? x (s.array a).size = some slot) :
      Writes s v (.array a) (.number x) (s.array a)[slot]? (s.setElement a slot v)

theorem object_setProperty_self {a : Nat} (field : String) (h : a < s.objects.size) :
    (s.setProperty a field v).object a =
      { s.object a with properties := Assoc.set field v (s.object a).properties } := by
  simp [object, setProperty, Array.getElem_modify, h]

theorem object_setProperty_of_ne {a b : Nat} (field : String) (h : b ≠ a) :
    (s.setProperty a field v).object b = s.object b := by
  simp [object, setProperty, Array.getElem?_modify, Ne.symm h]

theorem object_setProperty_of_le {a : Nat} (field : String) (h : s.objects.size ≤ a) (b : Nat) :
    (s.setProperty a field v).object b = s.object b := by
  by_cases hb : b = a
  · subst hb
    simp [object, setProperty, Nat.not_lt.2 h]
  · exact object_setProperty_of_ne field hb

theorem array_setElement_self {a slot : Nat} :
    (s.setElement a slot v).array a = (s.array a).setIfInBounds slot v := by
  by_cases h : a < s.arrays.size
  · simp [array, setElement, Array.getElem_modify, h]
  · simp [array, setElement, h]

theorem array_setElement_of_ne {a b slot : Nat} (h : b ≠ a) :
    (s.setElement a slot v).array b = s.array b := by
  simp [array, setElement, Array.getElem?_modify, Ne.symm h]

namespace Writes

variable (h : s.Writes v c key old s')

include h

theorem scopes_eq : s'.scopes = s.scopes := by
  cases h <;> rfl

theorem depth_eq : s'.depth = s.depth := by
  cases h <;> simp [depth, setProperty, setElement]

theorem object_of_ne {a : Nat} (ha : c ≠ .object a) : s'.object a = s.object a := by
  cases h with
  | property b field => exact object_setProperty_of_ne field fun hab => ha (hab ▸ rfl)
  | element => rfl

theorem array_of_ne {a : Nat} (ha : c ≠ .array a) : s'.array a = s.array a := by
  cases h with
  | property => rfl
  | element => exact array_setElement_of_ne fun hab => ha (hab ▸ rfl)

/-- An object stays an instance of what it is. -/
theorem tag_eq (a : Nat) :
    (s'.object a).tag = (s.object a).tag ∧ (s'.object a).typeArgs = (s.object a).typeArgs := by
  by_cases ha : c = .object a
  · cases h with
    | element => cases ha
    | property b field =>
      cases ha
      rcases Nat.lt_or_ge a s.objects.size with hlt | hge
      · rw [object_setProperty_self field hlt]
        exact ⟨rfl, rfl⟩
      · rw [object_setProperty_of_le field hge]
        exact ⟨rfl, rfl⟩
  · rw [h.object_of_ne ha]
    exact ⟨rfl, rfl⟩

theorem isSealed_eq (a : Nat) : (s'.object a).isSealed = (s.object a).isSealed := by
  obtain ⟨htag, hargs⟩ := h.tag_eq a
  rw [Obj.isSealed, htag, hargs]
  rfl

theorem head_eq (x : Value) : s'.head x = s.head x := by
  cases x with
  | object a => rw [head, (h.tag_eq a).1, h.isSealed_eq a]; rfl
  | _ => rfl

theorem shape_of_ne {z : Container} (hz : z ≠ c) (f : Value → Ty) : s'.shape f z = s.shape f z := by
  cases z with
  | object a => rw [shape, shape, h.object_of_ne hz.symm]
  | array a => rw [shape, shape, h.array_of_ne hz.symm]

/-- What an instance with type arguments holds does not show. -/
theorem shape_of_sealed {a : Nat} (hc : c = .object a) (ha : (s.object a).isSealed = true)
    (z : Container) (f : Value → Ty) : s'.shape f z = s.shape f z := by
  by_cases hz : z = c
  · subst hz hc
    simp only [shape, h.isSealed_eq a, ha, if_true, h.tag_eq a]
  · exact h.shape_of_ne hz f

/-- The type of the container stays if the new value has the type of the old one. -/
theorem shape_self {o : Value} (ho : old = some o) {f : Value → Ty}
    (hf : o ∈ s.parts c.value → f v = f o) : s'.shape f c = s.shape f c := by
  cases h with
  | property a field =>
    cases hsealed : (s.object a).isSealed with
    | true => exact (Writes.property a field).shape_of_sealed rfl hsealed _ f
    | false =>
      have hmem : o ∈ s.parts (.object a) := by
        simp only [parts, hsealed, Bool.false_eq_true, if_false]
        exact List.mem_map_of_mem (f := (·.2)) (Assoc.mem_of_lookup ho)
      have hlt : a < s.objects.size := has_of_part (c := .object a) hmem
      have hprops : (Assoc.set field v (s.object a).properties).map
            (fun p => (⟨p.1, f p.2, false⟩ : Member)) =
          (s.object a).properties.map fun p => ⟨p.1, f p.2, false⟩ :=
        Assoc.map_set ho fun name => by rw [hf hmem]
      have hsealed' := (Writes.property (s := s) (v := v) a field).isSealed_eq a
      simp only [shape, hsealed', hsealed]
      rw [object_setProperty_self field hlt, hprops]
  | @element a x slot _ =>
    obtain ⟨hlt, rfl⟩ := Array.getElem?_eq_some_iff.1 ho
    have hmem : (s.array a)[slot] ∈ s.parts (.array a) := by simp [parts]
    rw [shape, shape, array_setElement_self, Array.toList_setIfInBounds, List.map_set, hf hmem,
      ← List.map_set, ← Array.getElem_toList hlt, List.set_getElem_self]

theorem mem_array {a : Nat} {y : Value} (hy : y ∈ (s'.array a).toList) :
    y ∈ (s.array a).toList ∨ c = .array a ∧ y = v := by
  by_cases ha : c = .array a
  · cases h with
    | property => cases ha
    | element hslot =>
      cases ha
      rw [array_setElement_self, Array.toList_setIfInBounds] at hy
      rcases List.mem_or_eq_of_mem_set hy with hy | hy
      · exact .inl hy
      · exact .inr ⟨rfl, hy⟩
  · rw [h.array_of_ne ha] at hy
    exact .inl hy

theorem old_mem {a : Nat} {o : Value} (hc : c = .array a) (ho : old = some o) :
    o ∈ (s.array a).toList := by
  cases h with
  | property => cases hc
  | element =>
    cases hc
    exact Array.mem_toList_iff.2 (Array.mem_of_getElem? ho)

/-- Inside the container itself a write does not show. -/
theorem typeWithin_of_mem {seen : List Container} (hc : c ∈ seen) (d : Nat) (x : Value) :
    s'.typeWithin d seen x = s.typeWithin d seen x := by
  induction d generalizing seen x with
  | zero => rfl
  | succ d ih =>
    rcases x.container_or with ⟨z, rfl⟩ | hx
    · rw [typeWithin_container, typeWithin_container]
      split <;> rename_i hz
      · rfl
      · have hne : z ≠ c := fun heq => hz (heq ▸ hc)
        rw [h.shape_of_ne hne]
        exact shape_congr fun y _ => ih (List.mem_cons_of_mem z hc) y
    · exact typeWithin_leaf hx _ _ _ _

end Writes

/-! ### What a write leaves alone -/

/-- The write does not show in the value. -/
structure Untouched (s s' : Store) (x : Value) : Prop where
  shape (z : Container) (hz : s.Within z.value x) (f : Value → Ty) : s'.shape f z = s.shape f z
  array (a : Nat) (ha : s.Within (.array a) x) : s'.array a = s.array a

theorem Untouched.part {x y : Value} (h : s.Untouched s' x) (hy : y ∈ s.parts x) : s.Untouched s' y where
  shape z hz := h.shape z (.part hy hz)
  array a ha := h.array a (.part hy ha)

theorem Untouched.typeWithin_eq {x : Value} (h : s.Untouched s' x) (d : Nat) (seen : List Container) :
    s'.typeWithin d seen x = s.typeWithin d seen x := by
  induction d generalizing seen x with
  | zero => rfl
  | succ d ih =>
    rcases x.container_or with ⟨z, rfl⟩ | hx
    · rw [typeWithin_container, typeWithin_container, h.shape z .self]
      split
      · rfl
      · exact shape_congr fun y hy => ih (h.part hy) _
    · exact typeWithin_leaf hx _ _ _ _

namespace Writes

variable (h : s.Writes v c key old s')

include h

theorem untouched_of_apart {x : Value} (hx : ¬ s.Within c.value x) : s.Untouched s' x where
  shape z hz f := by
    refine h.shape_of_ne ?_ f
    rintro rfl
    exact hx hz
  array a ha := by
    refine h.array_of_ne ?_
    rintro rfl
    exact hx ha

theorem untouched_of_sealed {a : Nat} (hc : c = .object a) (ha : (s.object a).isSealed = true)
    (x : Value) : s.Untouched s' x where
  shape z _ f := h.shape_of_sealed hc ha z f
  array _ _ := h.array_of_ne fun hb => nomatch hc.symm.trans hb

theorem typeOf_of_untouched {x : Value} (hx : s.Untouched s' x) : s'.typeOf x = s.typeOf x := by
  rw [typeOf, h.depth_eq, hx.typeWithin_eq]
  rfl

theorem accepts_of_untouched {type : Ty} {x : Value} (hx : s.Untouched s' x)
    (haccepts : s.accepts env type x = true) : s'.accepts env type x = true := by
  have hsim : s.Simulates s' fun x x' => x' = x ∧ s.Untouched s' x := by
    refine ⟨h.scopes_eq, ?_, ?_, ?_⟩
    · rintro _ x ⟨rfl, hx⟩
      exact h.typeOf_of_untouched hx
    · rintro _ x ⟨rfl, -⟩
      exact h.head_eq x
    · rintro a _ ⟨heq, ha⟩ y hy
      cases heq
      rw [ha.array a .self] at hy
      exact ⟨y, hy, rfl, ha.part hy⟩
  exact hsim.accepts type ⟨rfl, hx⟩ haccepts

end Writes

/-! ### A value of the same type in the place of another -/

/-- The new value has the type of the one it replaces. Neither has a cycle in it, and the container
is not inside the new value. -/
structure Replaces (s : Store) (c : Container) (o v : Value) : Prop where
  type : s.typeOf v = s.typeOf o
  old : s.Tree o
  new : s.Tree v
  apart : ¬ s.Within c.value v

namespace Writes

variable {o : Value} (h : s.Writes v c key (some o) s') (hr : s.Replaces c o v)

include h hr

/-- No type changes anywhere on the way down. -/
theorem typeWithin_eq {d : Nat} {seen : List Container} (ht : s.Trail d seen) {x : Value}
    (hx : ∀ z ∈ seen, s.Within x z.value) : s'.typeWithin d seen x = s.typeWithin d seen x := by
  induction d generalizing seen x with
  | zero => rfl
  | succ d ih =>
    rcases x.container_or with ⟨z, rfl⟩ | hx'
    · rw [typeWithin_container, typeWithin_container]
      split <;> rename_i hz
      · rfl
      · -- a part of `z` lies in `z` and in all that is around it
        have hpart {y : Value} (hy : y ∈ s.parts z.value) :
            s'.typeWithin d (z :: seen) y = s.typeWithin d (z :: seen) y := by
          refine ih (ht.push hz (has_of_part hy)) (List.forall_mem_cons.2 ⟨.part hy .self, ?_⟩)
          intro w hw
          exact Within.trans (.part hy .self) (hx w hw)
        by_cases hzc : z = c
        · subst hzc
          rw [h.shape_self rfl, shape_congr fun y hy => hpart hy]
          intro ho
          have htrail : s.Trail d (z :: seen) := ht.push hz (has_of_part ho)
          have hapart {w : Value} (hw : ¬ s.Within z.value w) : ∀ u ∈ z :: seen, ¬ s.Within u.value w := by
            refine List.forall_mem_cons.2 ⟨hw, fun u hu huw => hw ((hx u hu).trans huw)⟩
          calc s'.typeWithin d (z :: seen) v
              = s.typeWithin d (z :: seen) v := (h.untouched_of_apart hr.apart).typeWithin_eq _ _
            _ = s.typeOf v := typeWithin_eq_typeOf htrail (hapart hr.apart)
            _ = s.typeOf o := hr.type
            _ = s.typeWithin d (z :: seen) o :=
              (typeWithin_eq_typeOf htrail (hapart (hr.old.acyclic.not_around ho))).symm
            _ = s'.typeWithin d (z :: seen) o := (hpart ho).symm
        · rw [h.shape_of_ne hzc]
          exact shape_congr fun y hy => hpart hy
    · exact typeWithin_leaf hx' _ _ _ _

theorem typeOf_eq (x : Value) : s'.typeOf x = s.typeOf x := by
  rw [typeOf, h.depth_eq, h.typeWithin_eq hr (.start s) nofun]
  rfl

theorem accepts_of_replaces {type : Ty} {x : Value} (haccepts : s.accepts env type x = true) :
    s'.accepts env type x = true := by
  -- a value goes with itself, and with another of its type that the write does not reach
  have hsim : s.Simulates s' fun x x' => x' = x ∨ s.Replaces c x x' := by
    refine ⟨h.scopes_eq, ?_, ?_, ?_⟩
    · rintro x x' (rfl | hx)
      · exact h.typeOf_eq hr x'
      · rw [h.typeOf_eq hr, hx.type]
    · rintro x x' (rfl | hx)
      · exact h.head_eq x'
      · rw [h.head_eq, hx.new.head_eq, hx.type, hx.old.head_eq]
    · rintro a a' (heq | hx) y' hy'
      · cases heq
        rcases h.mem_array hy' with hy | ⟨hc, rfl⟩
        · exact ⟨y', hy, .inl rfl⟩
        · exact ⟨o, h.old_mem hc rfl, .inr hr⟩
      · rw [(h.untouched_of_apart hx.apart).array a' .self] at hy'
        obtain ⟨y, hy, htype⟩ := hx.old.exists_element hx.new hx.type hy'
        refine ⟨y, hy, .inr ⟨htype, hx.old.part hy, hx.new.part hy', ?_⟩⟩
        exact fun hin => hx.apart (.part hy' hin)
  exact hsim.accepts type (.inl rfl) haccepts

end Writes

end Store

end Sable
