import Sable.Ty.Subst

/-!
# Replacing parameters twice

`Subst.andThen`: the substitution that does what one and then another do (`Composes`), for all
parameters that a substitution reaches (`Ty.exposed`). A `Settled` substitution changes nothing the
second time.
-/

namespace Sable

namespace Ty

/-! ### The parameters that are reached -/

mutual

/-- The parameters that stand where a substitution reaches. Those in aliases, contracts and bounds are
not among them. -/
def exposed : Ty → List String
  | param name _ => [name]
  | union members => exposedAll members
  | array element => exposed element
  | generic _ args => exposedAll args
  | function params result => exposedAll params ++ exposedOption result
  | struct _ _ members => exposedMembers members
  | primitive _ | aliased _ _ | contract _ _ => []

def exposedAll : List Ty → List String
  | [] => []
  | type :: rest => exposed type ++ exposedAll rest

def exposedOption : Option Ty → List String
  | none => []
  | some type => exposed type

def exposedMembers : List (MemberOf Ty) → List String
  | [] => []
  | ⟨_, type, _⟩ :: rest => exposed type ++ exposedMembers rest

end

mutual

theorem subst_nil : ∀ t : Ty, subst [] t = t
  | param _ _ | primitive _ | aliased _ _ | contract _ _ => by simp [subst]
  | union members => by rw [subst, substs_nil members]
  | array element => by rw [subst, subst_nil element]
  | generic _ args => by rw [subst, substs_nil args]
  | function params result => by rw [subst, substs_nil params, substOption_nil result]
  | struct _ _ members => by rw [subst, substMembers_nil members]

theorem substs_nil : ∀ ts : List Ty, substs [] ts = ts
  | [] => rfl
  | t :: ts => by rw [substs, subst_nil t, substs_nil ts]

theorem substOption_nil : ∀ t : Option Ty, substOption [] t = t
  | none => rfl
  | some t => by rw [substOption, subst_nil t]

theorem substMembers_nil : ∀ ms : List (MemberOf Ty), substMembers [] ms = ms
  | [] => rfl
  | ⟨_, t, _⟩ :: ms => by rw [substMembers, subst_nil t, substMembers_nil ms]

end

end Ty

/-! ### One substitution for two -/

/-- At the given parameters the substitution does what the first of the two and then the second do. -/
def Subst.ComposesAt (s₁ s₂ s : Subst) (names : List String) : Prop :=
  ∀ x ∈ names, ∀ bound, ((Ty.param x bound).subst s₁).subst s₂ = (Ty.param x bound).subst s

namespace Subst

variable {s₁ s₂ s : Subst} {xs ys : List String}

theorem ComposesAt.left (h : ComposesAt s₁ s₂ s (xs ++ ys)) : ComposesAt s₁ s₂ s xs :=
  fun x hx => h x (List.mem_append_left ys hx)

theorem ComposesAt.right (h : ComposesAt s₁ s₂ s (xs ++ ys)) : ComposesAt s₁ s₂ s ys :=
  fun x hx => h x (List.mem_append_right xs hx)

end Subst

namespace Ty

variable {s₁ s₂ s : Subst}

mutual

/-- Two substitutions in a row depend only on what they do to the parameters that are exposed. -/
theorem subst_subst_of : ∀ {t : Ty}, Subst.ComposesAt s₁ s₂ s t.exposed →
    (t.subst s₁).subst s₂ = t.subst s
  | param name bound, h => h name (by simp [exposed]) bound
  | primitive _, _ | aliased _ _, _ | contract _ _, _ => by simp only [subst]
  | union members, h => by
    rw [exposed] at h
    simp only [subst, substs_substs_of h]
  | array element, h => by
    rw [exposed] at h
    simp only [subst, subst_subst_of h]
  | generic _ args, h => by
    rw [exposed] at h
    simp only [subst, substs_substs_of h]
  | function params result, h => by
    rw [exposed] at h
    simp only [subst, substs_substs_of h.left, substOption_substOption_of h.right]
  | struct _ _ members, h => by
    rw [exposed] at h
    simp only [subst, substMembers_substMembers_of h]

theorem substs_substs_of : ∀ {ts : List Ty}, Subst.ComposesAt s₁ s₂ s (exposedAll ts) →
    substs s₂ (substs s₁ ts) = substs s ts
  | [], _ => rfl
  | t :: ts, h => by
    rw [exposedAll] at h
    simp only [substs, subst_subst_of h.left, substs_substs_of h.right]

theorem substOption_substOption_of : ∀ {t : Option Ty}, Subst.ComposesAt s₁ s₂ s (exposedOption t) →
    substOption s₂ (substOption s₁ t) = substOption s t
  | none, _ => rfl
  | some t, h => by
    rw [exposedOption] at h
    simp only [substOption, subst_subst_of h]

theorem substMembers_substMembers_of : ∀ {ms : List (MemberOf Ty)},
    Subst.ComposesAt s₁ s₂ s (exposedMembers ms) →
    substMembers s₂ (substMembers s₁ ms) = substMembers s ms
  | [], _ => rfl
  | ⟨_, t, _⟩ :: ms, h => by
    rw [exposedMembers] at h
    simp only [substMembers, subst_subst_of h.left, substMembers_substMembers_of h.right]

end

/-- A type is left as it is where nothing that is reached is replaced. -/
theorem subst_eq_self {t : Ty} (h : ∀ x ∈ t.exposed, s.lookup x = none) : t.subst s = t := by
  -- replacing nothing afterwards makes it a case of the law for two substitutions
  have hnone : Subst.ComposesAt s [] [] t.exposed := fun x hx bound => by
    rw [subst_nil, subst_nil, subst, h x hx, Option.getD_none]
  rw [← subst_nil (t.subst s), subst_subst_of hnone, subst_nil]

end Ty

namespace Subst

/-- The substitution gives every parameter of the first of the two what the second makes of the
first's answer, and every other parameter the second's answer. -/
def Composes (s₁ s₂ s : Subst) : Prop :=
  ∀ x, s.lookup x = match s₁.lookup x with
    | some type => some (type.subst s₂)
    | none => s₂.lookup x

/-- One substitution and then another. -/
def andThen (s₁ s₂ : Subst) : Subst :=
  s₁.map (fun p => (p.1, p.2.subst s₂)) ++ s₂

/-- No parameter that is replaced is reached in what another is replaced by. -/
def Settled (s : Subst) : Prop :=
  ∀ x type, s.lookup x = some type → ∀ y ∈ type.exposed, s.lookup y = none

variable {s₁ s₂ s : Subst}

theorem andThen_composes (s₁ s₂ : Subst) : Composes s₁ s₂ (s₁.andThen s₂) := by
  intro x
  induction s₁ with
  | nil => rfl
  | cons p rest ih =>
    obtain ⟨y, type⟩ := p
    show List.lookup x ((y, type.subst s₂) :: andThen rest s₂) = _
    rw [List.lookup_cons, List.lookup_cons]
    cases x == y with
    | true => rfl
    | false => exact ih

theorem Composes.composesAt (h : Composes s₁ s₂ s) (names : List String) :
    ComposesAt s₁ s₂ s names := by
  intro x _ bound
  have hx := h x
  simp only [Ty.subst, hx]
  cases s₁.lookup x with
  | some type => rfl
  | none => rw [Option.getD_none, Ty.subst]

/-- The substitution does no more after itself. -/
theorem Settled.composes (h : s.Settled) : Composes s s s := by
  intro x
  cases hx : s.lookup x with
  | some type =>
    show some type = some (type.subst s)
    rw [Ty.subst_eq_self (h x type hx)]
  | none => rfl

end Subst

/-- Replacing parameters twice is replacing them once, by the composition of the two substitutions,
which there always is. If a substitution puts nothing in that it replaces itself, doing it again
changes nothing. -/
theorem Ty.subst_composes (t : Ty) (s₁ s₂ : Subst) :
    (∃ s, Subst.Composes s₁ s₂ s) ∧
    (∀ s, Subst.Composes s₁ s₂ s → (t.subst s₁).subst s₂ = t.subst s) ∧
    (s₁.Settled → (t.subst s₁).subst s₁ = t.subst s₁) :=
  ⟨⟨s₁.andThen s₂, Subst.andThen_composes s₁ s₂⟩,
    fun _ h => subst_subst_of (h.composesAt _),
    fun h => subst_subst_of (h.composes.composesAt _)⟩

/-- A slot for pairs, or for what an alias of its own parameter stands for. -/
def pairSlot : Ty :=
  .struct "Slot" [⟨"T", none⟩] [⟨"item",
    .union [.generic "Pair" [.param "T" none, .param "U" none], .aliased "Own" (.param "T" none)], false⟩]

/-- A slot for pairs of lists of a second parameter, which is text in the end. -/
theorem pairSlot_composes :
    let lists : Subst := [("T", .array (.param "U" none))]
    let texts : Subst := [("U", .primitive .text), ("T", .primitive .bool)]
    (pairSlot.subst lists).subst texts = pairSlot.subst (lists.andThen texts) ∧
    pairSlot.subst (lists.andThen texts) = .struct "Slot" [⟨"T", none⟩] [⟨"item",
      .union [.generic "Pair" [.array (.primitive .text), .primitive .text],
        .aliased "Own" (.param "T" none)], false⟩] ∧
    lists.Settled ∧ (pairSlot.subst lists).subst lists = pairSlot.subst lists := by
  intro lists texts
  have hsettled : lists.Settled := by
    intro x type hx y hy
    rw [List.lookup_cons] at hx
    split at hx
    · cases hx
      obtain rfl : y = "U" := by simpa [Ty.exposed] using hy
      rfl
    · cases hx
  obtain ⟨-, hlaw, hagain⟩ := Ty.subst_composes pairSlot lists texts
  exact ⟨hlaw _ (Subst.andThen_composes lists texts), rfl, hsettled, hagain hsettled⟩

end Sable
