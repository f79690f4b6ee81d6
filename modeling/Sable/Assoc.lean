/-!
# Lists of pairs as tables

A table keeps its keys in the order in which they came and holds at most the first pair for a key.
-/

namespace Sable.Assoc

variable {κ α : Type} [BEq κ]

/-- Gives a key a value: in the place of the old one, or at the end if it is new. -/
def set (k : κ) (a : α) : List (κ × α) → List (κ × α)
  | [] => [(k, a)]
  | (k', a') :: rest => if k == k' then (k', a) :: rest else (k', a') :: set k a rest

theorem lookup_set_self [ReflBEq κ] (k : κ) (a : α) (t : List (κ × α)) :
    (set k a t).lookup k = some a := by
  induction t with
  | nil => simp [set]
  | cons p t ih =>
    obtain ⟨k', a'⟩ := p
    unfold set
    split <;> rename_i h
    · simp [List.lookup_cons, h]
    · simp [List.lookup_cons, h, ih]

theorem lookup_set_of_ne [LawfulBEq κ] {k k' : κ} (a : α) (t : List (κ × α)) (h : k' ≠ k) :
    (set k a t).lookup k' = t.lookup k' := by
  induction t with
  | nil => simp [set, List.lookup_cons, beq_false_of_ne h]
  | cons p t ih =>
    obtain ⟨k'', a''⟩ := p
    unfold set
    split <;> rename_i hk
    · obtain rfl := eq_of_beq hk
      simp [List.lookup_cons, beq_false_of_ne h]
    · simp [List.lookup_cons, ih]

end Sable.Assoc
