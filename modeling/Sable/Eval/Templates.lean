import Sable.Eval.Inner
import Sable.Text.Word

/-!
# Filling templates

The expressions of a template are evaluated first, in order. Then its text is gone through from left
to right, and placeholders and references are replaced by what they stand for.
-/

namespace Sable

namespace Template

/-- The first placeholder that the text begins with: what it stands for, and the text behind it. -/
def hole? (cs : List Char) : List (List Char × List Char) → Option (List Char × List Char)
  | [] => none
  | (key, shown) :: rest =>
    if key.isPrefixOf cs ∧ key ≠ [] then some (shown, cs.drop key.length) else hole? cs rest

theorem hole?_length {cs shown rest : List Char} {holes : List (List Char × List Char)}
    (h : hole? cs holes = some (shown, rest)) : rest.length < cs.length := by
  induction holes with
  | nil => simp [hole?] at h
  | cons p holes ih =>
    obtain ⟨key, text⟩ := p
    unfold hole? at h
    split at h
    · rename_i hp
      obtain ⟨_, rfl⟩ := Prod.mk.inj (Option.some.inj h)
      have hle := (List.isPrefixOf_iff_prefix.1 hp.1).length_le
      have hpos := List.length_pos_iff.2 hp.2
      simp only [List.length_drop]
      omega
    · exact ih h

/-- Replaces placeholders by the texts given for them, and references to the names given by what
`value` finds for them. -/
def fill (holes : List (List Char × List Char)) (names : List String)
    (value : String → Except Fault String) (cs : List Char) : Except Fault (List Char) :=
  match cs with
  | [] => .ok []
  | c :: rest =>
    match _h : hole? (c :: rest) holes with
    | some (shown, after) => return shown ++ (← fill holes names value after)
    | none =>
      let name := String.ofList (rest.takeWhile Text.isWordChar)
      if c = '$' ∧ name ∈ names then do
        let shown ← value name
        return shown.toList ++ (← fill holes names value (rest.dropWhile Text.isWordChar))
      else return c :: (← fill holes names value rest)
termination_by cs.length
decreasing_by
  · exact hole?_length _h
  · have := (List.dropWhile_suffix (l := rest) Text.isWordChar).length_le
    simp only [List.length_cons]
    omega
  · simp

/-- The placeholders of a template with the texts for them. -/
def keyed (shown : List String) : List (List Char × List Char) :=
  shown.mapIdx fun k s => ((placeholder k).toList, s.toList)

end Template

namespace Inner

variable {ω : Type} [Observer ω]

/-- The texts of the values of expressions, each as its value shows at the time. -/
def shown (inner : Inner ω) (env : Env) : List Expr → Eval ω (List String)
  | [] => return []
  | e :: rest => do
    let v ← inner.expr env e
    let text ← Eval.ask (·.render v)
    return text :: (← inner.shown env rest)

/-- The value of a text literal. -/
def template (inner : Inner ω) (env : Env) (text : String) (names : List String)
    (holes : List Expr) : Eval ω Value := do
  if names.isEmpty && holes.isEmpty then return .text text
  let shown ← inner.shown env holes
  let filled ← Eval.query fun store =>
    Template.fill (Template.keyed shown) names
      (fun name => (store.lookup env name).map store.render) text.toList
  return .text (String.ofList filled)

end Inner

end Sable
