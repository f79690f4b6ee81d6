import Sable.Ty

/-!
# Equality of types

`Ty.beq` compares two types part by part, and gives `true` for equal types only.
-/

namespace Sable

namespace Ty

mutual

theorem eq_of_beq : ∀ {s t : Ty}, beq s t = true → s = t
  | .primitive a, t, h => by cases t <;> simp_all [beq]
  | .struct a ps ms, t, h => by
    cases t with
    | struct b qs ns =>
      simp only [beq, Bool.and_eq_true, beq_iff_eq] at h
      obtain ⟨⟨rfl, hps⟩, hms⟩ := h
      rw [eq_of_beqBounds hps, eq_of_beqMembers hms]
    | _ => simp [beq] at h
  | .aliased a s, t, h => by
    cases t with
    | aliased b t =>
      simp only [beq, Bool.and_eq_true, beq_iff_eq] at h
      rw [h.1, eq_of_beq h.2]
    | _ => simp [beq] at h
  | .generic a ss, t, h => by
    cases t with
    | generic b ts =>
      simp only [beq, Bool.and_eq_true, beq_iff_eq] at h
      rw [h.1, eq_of_beqs h.2]
    | _ => simp [beq] at h
  | .union ss, t, h => by
    cases t with
    | union ts =>
      rw [beq] at h
      rw [eq_of_beqs h]
    | _ => simp [beq] at h
  | .array s, t, h => by
    cases t with
    | array t =>
      rw [beq] at h
      rw [eq_of_beq h]
    | _ => simp [beq] at h
  | .param a s, t, h => by
    cases t with
    | param b t =>
      simp only [beq, Bool.and_eq_true, beq_iff_eq] at h
      rw [h.1, eq_of_beqOption h.2]
    | _ => simp [beq] at h
  | .function ps r, t, h => by
    cases t with
    | function qs r' =>
      simp only [beq, Bool.and_eq_true] at h
      rw [eq_of_beqs h.1, eq_of_beqOption h.2]
    | _ => simp [beq] at h
  | .contract a ms, t, h => by
    cases t with
    | contract b ns =>
      simp only [beq, Bool.and_eq_true, beq_iff_eq] at h
      rw [h.1, eq_of_beqSignatures h.2]
    | _ => simp [beq] at h

theorem eq_of_beqs : ∀ {ss ts : List Ty}, beqs ss ts = true → ss = ts
  | [], ts, h => by cases ts <;> simp_all [beqs]
  | s :: ss, ts, h => by
    cases ts with
    | nil => simp [beqs] at h
    | cons t ts =>
      simp only [beqs, Bool.and_eq_true] at h
      rw [eq_of_beq h.1, eq_of_beqs h.2]

theorem eq_of_beqOption : ∀ {s t : Option Ty}, beqOption s t = true → s = t
  | none, t, h => by cases t <;> simp_all [beqOption]
  | some s, t, h => by
    cases t with
    | none => simp [beqOption] at h
    | some t => rw [beqOption] at h; rw [eq_of_beq h]

theorem eq_of_beqBounds : ∀ {ss ts : List (BoundOf Ty)}, beqBounds ss ts = true → ss = ts
  | [], ts, h => by cases ts <;> simp_all [beqBounds]
  | ⟨a, s⟩ :: ss, ts, h => by
    cases ts with
    | nil => simp [beqBounds] at h
    | cons t ts =>
      obtain ⟨b, t⟩ := t
      simp only [beqBounds, Bool.and_eq_true, beq_iff_eq] at h
      rw [h.1.1, eq_of_beqOption h.1.2, eq_of_beqBounds h.2]

theorem eq_of_beqMembers : ∀ {ss ts : List (MemberOf Ty)}, beqMembers ss ts = true → ss = ts
  | [], ts, h => by cases ts <;> simp_all [beqMembers]
  | ⟨a, s, o⟩ :: ss, ts, h => by
    cases ts with
    | nil => simp [beqMembers] at h
    | cons t ts =>
      obtain ⟨b, t, o'⟩ := t
      simp only [beqMembers, Bool.and_eq_true, beq_iff_eq] at h
      obtain ⟨⟨⟨rfl, ht⟩, rfl⟩, hrest⟩ := h
      rw [eq_of_beq ht, eq_of_beqMembers hrest]

theorem eq_of_beqSignatures : ∀ {ss ts : List (SignatureOf Ty)}, beqSignatures ss ts = true → ss = ts
  | [], ts, h => by cases ts <;> simp_all [beqSignatures]
  | .method a ps r :: ss, ts, h => by
    cases ts with
    | nil => simp [beqSignatures] at h
    | cons t ts =>
      cases t with
      | getter => simp [beqSignatures] at h
      | method b qs r' =>
        simp only [beqSignatures, Bool.and_eq_true, beq_iff_eq] at h
        obtain ⟨⟨⟨rfl, hps⟩, hr⟩, hrest⟩ := h
        rw [eq_of_beqs hps, eq_of_beq hr, eq_of_beqSignatures hrest]
  | .getter a r :: ss, ts, h => by
    cases ts with
    | nil => simp [beqSignatures] at h
    | cons t ts =>
      cases t with
      | method => simp [beqSignatures] at h
      | getter b r' =>
        simp only [beqSignatures, Bool.and_eq_true, beq_iff_eq] at h
        obtain ⟨⟨rfl, hr⟩, hrest⟩ := h
        rw [eq_of_beq hr, eq_of_beqSignatures hrest]

end

end Ty

end Sable
