import Sable.Proofs.Values.Nesting

/-!
# What the check of a value depends on

`Store.verdict` decides by the type of a value and its `Head`, and by the declarations in the scopes;
aliases, unions and the elements of arrays are taken apart before. Values of two stores that agree in
these are accepted alike (`Simulates`).
-/

namespace Sable

namespace Store

variable {s s' : Store} {env : Env}

/-! ### What a check looks at -/

/-- Whether a type accepts a value of the given type and head. Aliases, unions and the elements of
arrays are left aside. -/
def verdict (s : Store) (env : Env) (type actual : Ty) : Head → Bool
  | .object tag isSealed =>
    match type, tag with
    | .struct name _ _, some tag => if name.isEmpty then actual.fits type else tag == name
    | .contract name _, some tag => s.fulfills env tag name
    | .contract _ _, none => false
    | .generic name args, some tag =>
      if tag != name then false
      else if isSealed then actual.fits type
      else
        match s.type? env name with
        | some (.struct base params members) =>
          actual.fits (Ty.subst (.ofArgs params args) (.struct base params members))
        | _ => false
    | _, _ => actual.fits type
  | _ => actual.fits type

theorem isNone_compare (type : Ty) (x : Value) :
    (s.compare type x).isNone = (s.typeOf x).fits type := by
  unfold compare
  split <;> simp_all

theorem isNone_compareGeneric {name : String} {args : List Ty} (a : Nat) :
    (s.compareGeneric env name args (s.object a) (.object a)).isNone =
      s.verdict env (.generic name args) (s.typeOf (.object a)) (s.head (.object a)) := by
  unfold compareGeneric
  simp only [head, verdict]
  cases htag : (s.object a).tag with
  | none => exact isNone_compare _ _
  | some tag =>
    dsimp only
    have hsealed : (s.object a).isSealed = !(s.object a).typeArgs.isEmpty := by
      simp [Obj.isSealed, htag]
    rw [hsealed]
    split
    · rfl
    · split
      · exact isNone_compare _ _
      · cases s.type? env name with
        | none => rfl
        | some declared =>
          cases declared with
          | struct base params members => exact (Option.isNone_map ..).trans (isNone_compare _ _)
          | _ => rfl

/-- A check apart from aliases, unions and arrays depends on the type and the head of a value. -/
theorem accepts_eq_verdict {type : Ty} {x : Value} (hdirect : type.isDirect = true)
    (harray : ∀ element a, type = .array element → x ≠ .array a) :
    s.accepts env type x = s.verdict env type (s.typeOf x) (s.head x) := by
  unfold accepts
  cases type with
  | union => cases hdirect
  | aliased => cases hdirect
  | primitive p =>
    have hcompare : (s.mismatch? env (.primitive p) x).isNone = (s.typeOf x).fits (.primitive p) := by
      cases p with
      | dynamic => rw [Ty.fits_of_dynamic (.inr rfl)]; simp [mismatch?]
      | _ => cases x <;> exact isNone_compare _ _
    rw [hcompare]
    unfold verdict
    split <;> rfl
  -- structs, contracts and instances ask for the name of an object; the other forms compare types
  | struct name params members =>
    cases x with
    | object a =>
      simp only [mismatch?, head, verdict]
      cases (s.object a).tag with
      | none => exact isNone_compare _ _
      | some tag =>
        dsimp only
        split
        · exact isNone_compare _ _
        · split <;> simp_all
    | _ => exact isNone_compare _ _
  | contract name members =>
    cases x with
    | object a =>
      simp only [mismatch?, head, verdict]
      cases (s.object a).tag with
      | none => rfl
      | some tag =>
        dsimp only
        split <;> simp_all
    | _ => exact isNone_compare _ _
  | generic name args =>
    cases x with
    | object a => simpa only [mismatch?] using isNone_compareGeneric a
    | _ => exact isNone_compare _ _
  | array element =>
    cases x with
    | array a => exact absurd rfl (harray element a rfl)
    | _ => exact isNone_compare _ _
  | param name bound => cases x <;> exact isNone_compare _ _
  | function params result => cases x <;> exact isNone_compare _ _

theorem verdict_congr (hscopes : s'.scopes = s.scopes) (type actual : Ty) (h : Head) :
    s'.verdict env type actual h = s.verdict env type actual h := by
  have htypes : s'.type? env = s.type? env := by
    funext name
    simp only [type?, scope, hscopes]
  have hfulfills : s'.fulfills env = s.fulfills env := by
    funext tag name
    simp only [fulfills, scope, hscopes]
  unfold verdict
  rw [htypes, hfulfills]

theorem accepts_aliased {name : String} {target : Ty} {x : Value} :
    s.accepts env (.aliased name target) x = s.accepts env target x := by
  simp [accepts, mismatch?]

theorem accepts_union {members : List Ty} {x : Value} :
    s.accepts env (.union members) x = true ↔ ∃ m ∈ members, s.accepts env m x = true := by
  have hany : s.anyAccepts env members x = true ↔ ∃ m ∈ members, s.accepts env m x = true := by
    induction members with
    | nil => simp [anyAccepts]
    | cons m ms ih => simp [anyAccepts, ih, accepts]
  rw [← hany]
  simp [accepts, mismatch?]

theorem accepts_array {element : Ty} {a : Nat} :
    s.accepts env (.array element) (.array a) = true ↔
      ∀ y ∈ (s.array a).toList, s.accepts env element y = true := by
  rw [← List.all_eq_true]
  unfold accepts
  rw [mismatch?]
  split <;> rename_i hall
  · exact iff_of_true rfl hall
  · exact iff_of_false nofun hall

/-! ### Values that look alike in two stores -/

/-- Values of two stores that have the same type and head, and arrays of which each element in the
second store has a counterpart in the first. -/
structure Simulates (s s' : Store) (R : Value → Value → Prop) : Prop where
  scopes : s'.scopes = s.scopes
  type {x x' : Value} (h : R x x') : s'.typeOf x' = s.typeOf x
  head {x x' : Value} (h : R x x') : s'.head x' = s.head x
  elements {a a' : Nat} (h : R (.array a) (.array a')) :
    ∀ y' ∈ (s'.array a').toList, ∃ y ∈ (s.array a).toList, R y y'

theorem exists_array_of_head {x' : Value} {a : Nat} (h : s'.head x' = s.head (.array a)) :
    ∃ a', x' = .array a' := by
  cases x' with
  | array a' => exact ⟨a', rfl⟩
  | _ => cases h

theorem Simulates.accepts_direct {R : Value → Value → Prop} (h : s.Simulates s' R) {type : Ty}
    (hdirect : type.isDirect = true) {x x' : Value} (hR : R x x')
    (harray : ∀ element a, type = .array element → x ≠ .array a) :
    s'.accepts env type x' = s.accepts env type x := by
  have harray' : ∀ element a, type = .array element → x' ≠ .array a := by
    rintro element a htype rfl
    obtain ⟨a', rfl⟩ := exists_array_of_head (h.head hR).symm
    exact harray element a' htype rfl
  rw [accepts_eq_verdict hdirect harray, accepts_eq_verdict hdirect harray', h.type hR, h.head hR,
    verdict_congr h.scopes]

/-- What a type accepts in the first store it accepts in the second. -/
theorem Simulates.accepts {R : Value → Value → Prop} (h : s.Simulates s' R) :
    ∀ (type : Ty) {x x' : Value}, R x x' → s.accepts env type x = true →
      s'.accepts env type x' = true
  | .aliased name target, x, x', hR, hx => by
    rw [accepts_aliased] at hx ⊢
    exact h.accepts target hR hx
  | .union members, x, x', hR, hx => by
    rw [accepts_union] at hx ⊢
    obtain ⟨m, hm, hmx⟩ := hx
    have := List.sizeOf_lt_of_mem hm
    exact ⟨m, hm, h.accepts m hR hmx⟩
  | .array element, x, x', hR, hx => by
    by_cases harray : ∃ a, x = .array a
    · obtain ⟨a, rfl⟩ := harray
      obtain ⟨a', rfl⟩ := exists_array_of_head (h.head hR)
      rw [accepts_array] at hx ⊢
      intro y' hy'
      obtain ⟨y, hy, hRy⟩ := h.elements hR y' hy'
      exact h.accepts element hRy (hx y hy)
    · rwa [h.accepts_direct rfl hR fun _ a _ ha => harray ⟨a, ha⟩]
  | .primitive _, _, _, hR, hx | .struct _ _ _, _, _, hR, hx | .generic _ _, _, _, hR, hx
  | .param _ _, _, _, hR, hx | .function _ _, _, _, hR, hx | .contract _ _, _, _, hR, hx =>
    (h.accepts_direct rfl hR (by rintro _ _ ⟨⟩)).trans hx
termination_by type => sizeOf type

end Store

end Sable
