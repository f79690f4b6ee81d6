import Sable.Proofs.Spans.Names

/-!
# Statements from parts that stand in a text

`Stmt.Sound` for each form of statement, from the names, expressions, statements and functions inside.
-/

namespace Sable

variable {text : String}

/-- The head and the code of a function are well-formed, and the code stands in the text. -/
abbrev FunctionOf.CodeSound (text : String) : Function → Prop :=
  FunctionOf.All (fun s => Stand text s.names ∧ s.WellMade) (Expr.Sound text) TypeExpr.Proper

namespace Stmt.Sound

variable {s : Stmt} {body : List Stmt} {id : Nat} {label index : Option Name} {value : Name}

/-- A statement that declares no function. -/
theorem of_parts (hf : s.functions = []) (hn : Stand text s.names) (hm : s.wellMade = true)
    (ht : ∀ t ∈ s.ownAnnotations, t.Proper) (he : ∀ e ∈ s.exprs, e.Sound text)
    (hp : ∀ x ∈ s.parts [], x.2.Sound text) : s.Sound text := by
  refine ⟨⟨hn, hm, ?_⟩, he, ?_, hp, ?_⟩
  · simpa [annotations, hf] using ht
  · simp [hf]
  · simp [bodies_eq, hf]

/-- A statement that declares functions. -/
theorem of_functions (he : s.exprs = []) (hp : s.parts [] = []) (ho : s.ownAnnotations = [])
    (hm : s.wellMade = true) (hn : Stand text s.names) (hf : ∀ f ∈ s.functions, f.CodeSound text) :
    s.Sound text := by
  refine ⟨⟨hn, hm, fun t ht => ?_⟩, by simp [he], fun f h => (hf f h).fallbacks, by simp [hp],
    fun b hb => ?_⟩
  · rw [annotations, ho, List.nil_append] at ht
    obtain ⟨f, h, ht⟩ := List.mem_flatMap.1 ht
    exact (hf f h).types t ht
  · rw [bodies_eq] at hb
    obtain ⟨f, h, rfl⟩ := List.mem_map.1 hb
    exact (hf f h).body

/-- A statement with nothing but expressions and annotations inside. -/
theorem simple (h : s.isSimple) (hn : Stand text s.names) (hm : s.wellMade = true)
    (ht : ∀ t ∈ s.ownAnnotations, t.Proper) (he : ∀ e ∈ s.exprs, e.Sound text) : s.Sound text := by
  refine .of_parts ?_ hn hm ht he ?_
  · cases s <;> simp [isSimple, functions] at h ⊢
  · cases s <;> simp [isSimple, parts] at h ⊢

theorem ifElse {branches : List (Expr × List Stmt)} {otherwise : Option (List Stmt)}
    (hb : ∀ b ∈ branches, b.1.Sound text ∧ ∀ s ∈ b.2, s.Sound text)
    (ho : ∀ body ∈ otherwise, ∀ s ∈ body, s.Sound text) :
    (Stmt.ifElse branches otherwise).Sound text := by
  refine .of_parts rfl .nil rfl (List.forall_mem_nil _) (fun e he => ?_) fun x hx => ?_
  · obtain ⟨b, hmem, rfl⟩ := List.mem_map.1 he
    exact (hb b hmem).1
  · obtain ⟨s, hs, rfl⟩ := List.mem_map.1 hx
    rcases List.mem_append.1 hs with hs | hs
    · obtain ⟨body, hbody, hsb⟩ := List.mem_flatten.1 hs
      obtain ⟨b, hmem, rfl⟩ := List.mem_map.1 hbody
      exact (hb b hmem).2 s hsb
    · cases otherwise with
      | none => exact absurd hs List.not_mem_nil
      | some body => exact ho body rfl s hs

section Loops

variable (hb : ∀ s ∈ body, s.Sound text)
include hb

theorem whileLoop {condition : Expr} (hc : condition.Sound text) :
    (Stmt.whileLoop id condition body).Sound text := by
  refine .of_parts rfl .nil rfl (List.forall_mem_nil _) (List.forall_mem_singleton.2 hc) fun x hx => ?_
  obtain ⟨s, hs, rfl⟩ := List.mem_map.1 hx
  exact hb s hs

theorem forLoop {init : Option Stmt} {condition update : Option Expr}
    (hl : ∀ n ∈ label, n.StandsIn text) (hi : ∀ s ∈ init, s.Sound text)
    (hc : ∀ e ∈ condition, e.Sound text) (hu : ∀ e ∈ update, e.Sound text) :
    (Stmt.forLoop id label init condition update body).Sound text := by
  refine .of_parts rfl (.toList hl) rfl (List.forall_mem_nil _) (fun e he => ?_) fun x hx => ?_
  · rcases List.mem_append.1 he with he | he
    · exact hc e (Option.mem_toList.1 he)
    · exact hu e (Option.mem_toList.1 he)
  · rcases List.mem_append.1 hx with hx | hx
    · obtain ⟨s, hs, rfl⟩ := List.mem_map.1 hx
      exact hi s (Option.mem_toList.1 hs)
    · obtain ⟨s, hs, rfl⟩ := List.mem_map.1 hx
      exact hb s hs

theorem forIn {iterable : Expr} (hn : Stand text (label.toList ++ index.toList ++ [value]))
    (he : iterable.Sound text) : (Stmt.forIn id label index value iterable body).Sound text := by
  refine .of_parts rfl hn rfl (List.forall_mem_nil _) (List.forall_mem_singleton.2 he) fun x hx => ?_
  obtain ⟨s, hs, rfl⟩ := List.mem_map.1 hx
  exact hb s hs

theorem forRange {range : RangeExpr} (hn : Stand text (label.toList ++ index.toList ++ [value]))
    (hr : ∀ e ∈ range.start :: range.stop :: range.step.toList, e.Sound text) :
    (Stmt.forRange id label index value range body).Sound text := by
  refine .of_parts rfl hn rfl (List.forall_mem_nil _) hr fun x hx => ?_
  obtain ⟨s, hs, rfl⟩ := List.mem_map.1 hx
  exact hb s hs

end Loops

end Stmt.Sound

end Sable
