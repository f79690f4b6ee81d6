import Mathlib.Data.Rat.Floor
import Sable.Proofs.Numbers.Whole
import Sable.Proofs.Runs.Statements

/-!
# Loops over ranges

`RangeLoop.Rounds n`: the body of a loop has run in `n` rounds, each in a new scope with the variables
of the loop (`loopScope`). A loop over a range with `Range.IsExact` runs `Range.count` rounds and ends.
-/

namespace Sable

open Number (IsWhole)

/-! ### How often a loop runs -/

namespace Range

/-- How many numbers a range has that goes from `a` to `b` in steps of `c`. -/
def count (a b c : Int) (inclusive : Bool) : Nat :=
  if inclusive then (⌊((b - a : Int) : ℚ) / c⌋ + 1).toNat else ⌈((b - a : Int) : ℚ) / c⌉.toNat

section

variable {a b c : Int} {k : Nat}

/-- A range without its end has the numbers on the near side of it. -/
theorem lt_count_to_iff (hc : c ≠ 0) :
    k < count a b c false ↔ if 0 < c then a + k * c < b else b < a + k * c := by
  have hceil : k < count a b c false ↔ (k : ℚ) < ((b - a : Int) : ℚ) / c := by
    show k < ⌈((b - a : Int) : ℚ) / c⌉.toNat ↔ _
    rw [Int.lt_toNat, Int.lt_ceil, Int.cast_natCast]
  rw [hceil]
  split
  · rename_i hpos
    rw [lt_div_iff₀ (Int.cast_pos.2 hpos), ← lt_sub_iff_add_lt']
    exact_mod_cast Iff.rfl
  · rename_i hneg
    have hneg : c < 0 := lt_of_le_of_ne (not_lt.1 hneg) hc
    rw [lt_div_iff_of_neg (Int.cast_lt_zero.2 hneg), ← sub_lt_iff_lt_add']
    exact_mod_cast Iff.rfl

/-- A range with its end has that too, if a step comes out there. -/
theorem lt_count_through_iff (hc : c ≠ 0) :
    k < count a b c true ↔ if 0 < c then a + k * c ≤ b else b ≤ a + k * c := by
  have hfloor : k < count a b c true ↔ (k : ℚ) ≤ ((b - a : Int) : ℚ) / c := by
    show k < (⌊((b - a : Int) : ℚ) / c⌋ + 1).toNat ↔ _
    rw [Int.lt_toNat, Int.lt_add_one_iff, Int.le_floor, Int.cast_natCast]
  rw [hfloor]
  split
  · rename_i hpos
    rw [le_div_iff₀ (Int.cast_pos.2 hpos), ← le_sub_iff_add_le']
    exact_mod_cast Iff.rfl
  · rename_i hneg
    have hneg : c < 0 := lt_of_le_of_ne (not_lt.1 hneg) hc
    rw [le_div_iff_of_neg (Int.cast_lt_zero.2 hneg), ← sub_le_iff_le_add']
    exact_mod_cast Iff.rfl

end

/-- A range of doubles goes from `a` to `b` in steps of `c`, and what is computed for it is below the
bound: the end, and for all numbers of the range and the one after them, the multiple of the step and
the number itself. -/
structure IsExact (r : Range) (a b c : Int) : Prop where
  start : IsWhole r.start a
  stop : IsWhole r.stop b
  step : IsWhole r.step c
  nonzero : c ≠ 0
  stop_lt : b.natAbs < 2 ^ 53
  product_lt : ∀ k ≤ count a b c r.inclusive, (k * c).natAbs < 2 ^ 53
  sum_lt : ∀ k ≤ count a b c r.inclusive, (a + k * c).natAbs < 2 ^ 53

namespace IsExact

variable {r : Range} {a b c : Int} (h : r.IsExact a b c) {k : Nat} (hk : k ≤ count a b c r.inclusive)
include h hk

theorem index_lt : k < 2 ^ 53 := by
  have hproduct := h.product_lt k hk
  rw [Int.natAbs_mul, Int.natAbs_natCast] at hproduct
  have hc : 0 < c.natAbs := Int.natAbs_pos.2 h.nonzero
  exact Nat.lt_of_le_of_lt (Nat.le_mul_of_pos_right k hc) hproduct

/-- The first product is exact whatever the step is, and a later one only if the step is below the
bound. -/
theorem product : IsWhole (Float.ofNat k * r.step) (k * c) := by
  cases k with
  | zero =>
    rw [Nat.cast_zero, zero_mul]
    exact h.step.zero_mul
  | succ k =>
    have hindex := h.index_lt hk
    have hc : c.natAbs < 2 ^ 53 := by
      have hproduct := h.product_lt _ hk
      rw [Int.natAbs_mul, Int.natAbs_natCast] at hproduct
      exact Nat.lt_of_le_of_lt (Nat.le_mul_of_pos_left _ k.succ_pos) hproduct
    exact (Number.isWhole_ofNat hindex).mul h.step hindex hc (h.product_lt _ hk)

theorem nth : IsWhole (r.nth k) (a + k * c) := by
  have hstart : a.natAbs < 2 ^ 53 := by simpa using h.sum_lt 0 (Nat.zero_le _)
  exact h.start.add (h.product hk) hstart (h.product_lt k hk) (h.sum_lt k hk)

/-- The range has its `k`-th number just if that is one of as many as there are. -/
theorem has_nth : r.has (r.nth k) = true ↔ k < count a b c r.inclusive := by
  have hnth := h.nth hk
  have hlt := h.sum_lt k hk
  have hstep : decide (0 < r.step) = decide (0 < c) := decide_eq_decide.2 h.step.pos_iff
  unfold has
  rw [hstep]
  cases r.inclusive with
  | true =>
    rw [lt_count_through_iff h.nonzero]
    by_cases hc : 0 < c
    · rw [if_pos hc, ← hnth.le_iff h.stop hlt h.stop_lt, decide_eq_true hc]
      exact decide_eq_true_iff
    · rw [if_neg hc, ← h.stop.le_iff hnth h.stop_lt hlt, decide_eq_false hc]
      exact decide_eq_true_iff
  | false =>
    rw [lt_count_to_iff h.nonzero]
    by_cases hc : 0 < c
    · rw [if_pos hc, ← hnth.lt_iff h.stop hlt h.stop_lt, decide_eq_true hc]
      exact decide_eq_true_iff
    · rw [if_neg hc, ← h.stop.lt_iff hnth h.stop_lt hlt, decide_eq_false hc]
      exact decide_eq_true_iff

end IsExact

end Range

/-! ### Rounds -/

/-- The machine with a scope more. -/
def Machine.withScope (m : Machine) (scope : Scope) : Machine :=
  { m with store := { m.store with scopes := m.store.scopes.push scope } }

/-- A variable of a loop: a number that stays. -/
def loopVar (x : Float) : Binding :=
  ⟨.number x, .final, some (.primitive .number)⟩

/-- The scope of a round, with the index `k`, if the loop has one, and the number `x`. -/
def loopScope (index : Option Name) (value : Name) (k : Nat) (x : Float) : Scope :=
  { vars := index.toList.map (fun i => (i.text, loopVar (Float.ofNat k))) ++ [(value.text, loopVar x)] }

section

variable {ω : Type} [Observer ω]

/-- What an observer has seen after the scope of a round has been made and filled. -/
def opened (index : Option Name) (value : Name) (k : Nat) (x : Float) (m : Machine) (w : ω) : ω :=
  let w := Observer.see w ⟨.changed, m.withScope {}⟩
  let w := match index with
    | some i => Observer.see w ⟨.changed, m.withScope { vars := [(i.text, loopVar (Float.ofNat k))] }⟩
    | none => w
  Observer.see w ⟨.changed, m.withScope (loopScope index value k x)⟩

theorem Assoc.set_of_new {κ α : Type} [BEq κ] [LawfulBEq κ] {k : κ} (a : α) {t : List (κ × α)}
    (h : ∀ p ∈ t, k ≠ p.1) : Assoc.set k a t = t ++ [(k, a)] := by
  induction t with
  | nil => rfl
  | cons p t ih =>
    obtain ⟨hne, hrest⟩ := List.forall_mem_cons.1 h
    rw [Assoc.set, if_neg (by simpa using hne), ih hrest, List.cons_append]

/-- A name that is new in the innermost scope is added to it. -/
theorem Eval.declare_loopVar (vars : List (String × Binding)) (name : String)
    (hnew : ∀ p ∈ vars, name ≠ p.1) (x : Float) (above : List Nat) (m : Machine) (w : ω) :
    Eval.declare ⟨m.store.scopes.size, above⟩ name (.number x) .final none (m.withScope { vars }) w =
      .done () (m.withScope { vars := vars ++ [(name, loopVar x)] })
        (Observer.see w ⟨.changed, m.withScope { vars := vars ++ [(name, loopVar x)] }⟩) := by
  have hscope : (m.withScope { vars }).store.scope m.store.scopes.size = { vars } := by
    simp [Machine.withScope, Store.scope]
  have hlookup : vars.lookup name = none := List.lookup_eq_none_iff.2 (by simpa using hnew)
  have hdeclaration : (m.withScope { vars }).store.declaration ⟨m.store.scopes.size, above⟩ name
      (.number x) .final none = .ok (loopVar x) := by
    unfold Store.declaration
    rw [hscope, hlookup]
    rfl
  -- the scope of the round is the last one, and the others are not touched
  have hmodify : (m.store.scopes.push { vars }).modify m.store.scopes.size (fun scope =>
      { scope with vars := Assoc.set name (loopVar x) scope.vars }) =
        m.store.scopes.push { vars := vars ++ [(name, loopVar x)] } := by
    rw [← Assoc.set_of_new _ hnew]
    apply Array.ext
    · simp
    · intro a _ ha
      rw [Array.getElem_modify]
      rcases Nat.lt_or_ge a m.store.scopes.size with hlt | hge
      · rw [if_neg (by omega), Array.getElem_push_lt hlt, Array.getElem_push_lt hlt]
      · have heq : a = m.store.scopes.size := by simp at ha; omega
        subst heq
        simp
  have hbind : (m.withScope { vars }).store.bind m.store.scopes.size name (loopVar x) =
      (m.withScope { vars := vars ++ [(name, loopVar x)] }).store :=
    congrArg (fun scopes => { m.store with scopes }) hmodify
  have hquery : Eval.query (fun store => store.declaration ⟨m.store.scopes.size, above⟩ name
      (.number x) .final none) (m.withScope { vars }) w = .done (loopVar x) (m.withScope { vars }) w := by
    simp only [Eval.query, hdeclaration]
  refine (Eval.bind_done hquery).trans ?_
  show Outcome.done () (Machine.mk (Store.bind _ m.store.scopes.size name (loopVar x)) m.context)
    (Observer.see w
      ⟨.changed, Machine.mk (Store.bind _ m.store.scopes.size name (loopVar x)) m.context⟩) = _
  rw [hbind]
  rfl

variable (inner : Inner ω) (env : Env) (index : Option Name) (value : Name) (body : List Stmt)

/-- The variables of a loop with different names are all that the scope of a round has. -/
theorem Inner.iterate_eq (hname : ∀ i ∈ index, i.text ≠ value.text) (k : Nat) (x : Float)
    (m : Machine) (w : ω) :
    inner.iterate env index value body k (.number x) m w =
      inner.body ⟨m.store.scopes.size, env.path⟩ body (m.withScope (loopScope index value k x))
        (opened index value k x m w) := by
  cases index with
  | none =>
    have hvalue := Eval.declare_loopVar [] value.text (by simp) x env.path m
      (Observer.see w ⟨.changed, m.withScope {}⟩)
    exact Eval.bind_done hvalue
  | some i =>
    have hindex := Eval.declare_loopVar [] i.text (by simp) (Float.ofNat k) env.path m
      (Observer.see w ⟨.changed, m.withScope {}⟩)
    have hnew : ∀ p ∈ [(i.text, loopVar (Float.ofNat k))], value.text ≠ p.1 := by
      simpa using (hname i rfl).symm
    have hvalue := fun w => Eval.declare_loopVar _ value.text hnew x env.path m (w : ω)
    exact (Eval.bind_done hindex).trans (Eval.bind_done (hvalue _))

end

/-- A loop over a range, with the evaluators for what it runs. -/
structure RangeLoop (ω : Type) where
  inner : Inner ω
  env : Env
  id : Nat
  index : Option Name
  value : Name
  range : Range
  body : List Stmt

namespace RangeLoop

variable {ω : Type} [Observer ω]

/-- The `k`-th round: the body runs in a new scope with the variables of the loop, to its end or up to
a jump to the next round. -/
def Round (l : RangeLoop ω) (k : Nat) (m : Machine) (w : ω) (m' : Machine) (w' : ω) : Prop :=
  ∃ flow, ((∃ v, flow = .normal v) ∨ flow = .skip l.id) ∧
    l.inner.body ⟨m.store.scopes.size, l.env.path⟩ l.body
      (m.withScope (loopScope l.index l.value k (l.range.nth k)))
      (opened l.index l.value k (l.range.nth k) m w) = .done flow m' w'

/-- The first `n` rounds, one after another. -/
inductive Rounds (l : RangeLoop ω) : Nat → Machine → ω → Machine → ω → Prop
  | start {m : Machine} {w : ω} : Rounds l 0 m w m w
  | next {k : Nat} {m m₁ m₂ : Machine} {w w₁ w₂ : ω} (before : Rounds l k m w m₁ w₁)
      (round : l.Round k m₁ w₁ m₂ w₂) : Rounds l (k + 1) m w m₂ w₂

variable {l : RangeLoop ω} {m m' : Machine} {w w' : ω} {k : Nat}

/-- After a round the loop goes on. -/
theorem Round.iterate_again (hname : ∀ i ∈ l.index, i.text ≠ l.value.text)
    (h : l.Round k m w m' w') : ∃ flow, LoopStep.ofFlow l.id flow = .again ∧
      l.inner.iterate l.env l.index l.value l.body k (.number (l.range.nth k)) m w =
        .done flow m' w' := by
  obtain ⟨flow, hflow, hbody⟩ := h
  rw [Inner.iterate_eq l.inner l.env l.index l.value l.body hname]
  refine ⟨flow, ?_, hbody⟩
  rcases hflow with ⟨v, rfl⟩ | rfl
  · rfl
  · exact if_pos rfl

/-- The numbers that are left are gone through, and then the loop ends. -/
theorem forRange_eq {a b c : Int} (hexact : l.range.IsExact a b c)
    (hname : ∀ i ∈ l.index, i.text ≠ l.value.text) {m₀ : Machine} {w₀ : ω}
    (hbody : ∀ k < Range.count a b c l.range.inclusive, ∀ m w, l.Rounds k m₀ w₀ m w →
      ∃ m' w', l.Round k m w m' w') {left fuel : Nat}
    (hleft : k + left = Range.count a b c l.range.inclusive) (hfuel : left < fuel)
    (hrounds : l.Rounds k m₀ w₀ m w) :
    ∃ m' w', l.Rounds (Range.count a b c l.range.inclusive) m₀ w₀ m' w' ∧
      Eval.forRange l.id l.range (l.inner.iterate l.env l.index l.value l.body) fuel k m w =
        .done (.normal .nothing) m' w' := by
  obtain ⟨fuel, rfl⟩ : ∃ f, fuel = f + 1 := ⟨fuel - 1, by omega⟩
  have hhas := hexact.has_nth (k := k) (by omega)
  induction left generalizing k fuel m w with
  | zero =>
    obtain rfl : k = Range.count a b c l.range.inclusive := hleft
    refine ⟨m, w, hrounds, ?_⟩
    rw [Eval.forRange, if_neg (mt hhas.1 (Nat.lt_irrefl _))]
    rfl
  | succ left ih =>
    have hlt : k < Range.count a b c l.range.inclusive := by omega
    obtain ⟨m₁, w₁, hround⟩ := hbody k hlt m w hrounds
    obtain ⟨flow, hagain, hiterate⟩ := hround.iterate_again hname
    obtain ⟨f, rfl⟩ : ∃ f, fuel = f + 1 := ⟨fuel - 1, by omega⟩
    obtain ⟨m', w', hall, hrest⟩ := ih (k := k + 1) (by omega) (.next hrounds hround) f (by omega)
      (hexact.has_nth (by omega))
    refine ⟨m', w', hall, ?_⟩
    rw [Eval.forRange, if_pos (hhas.2 hlt), Eval.bind_done hiterate, hagain]
    exact hrest

end RangeLoop

/-! ### The statement -/

section

variable {ω : Type} [Observer ω] {env : Env} {x y z : Float} {m m₁ m₂ m₃ : Machine} {w w₁ w₂ w₃ : ω}

theorem Inner.number_done {inner : Inner ω} {role : String} {e : Expr}
    (h : inner.expr env e m w = .done (.number x) m₁ w₁) :
    inner.number env role e m w = .done x m₁ w₁ := by
  rw [Inner.number, Eval.bind_done h]
  rfl

/-- A step other than zero makes a range. Without one given it is one. -/
theorem Inner.range_done {inner : Inner ω} {r : RangeExpr}
    (hstart : inner.expr env r.start m w = .done (.number x) m₁ w₁)
    (hstop : inner.expr env r.stop m₁ w₁ = .done (.number y) m₂ w₂)
    (hstep : r.step.elim (pure (.number 1)) (inner.expr env) m₂ w₂ = .done (.number z) m₃ w₃)
    (hz : (z == 0) = false) :
    inner.range env r m w = .done ⟨x, y, z, r.inclusive⟩ m₃ w₃ := by
  have hmade : (if (z == 0) = true then Eval.raise .zeroStep
      else pure ⟨x, y, z, r.inclusive⟩ : Eval ω Range) m₃ w₃ = .done ⟨x, y, z, r.inclusive⟩ m₃ w₃ := by
    rw [if_neg (by simp [hz])]
    rfl
  rw [Inner.range, Eval.bind_done (Inner.number_done hstart), Eval.bind_done (Inner.number_done hstop)]
  cases hs : r.step with
  | none =>
    rw [hs] at hstep
    cases hstep
    exact hmade
  | some e =>
    rw [hs] at hstep
    exact (Eval.bind_done (Inner.number_done hstep)).trans hmade

/-- The machine inside a loop. -/
def Machine.enterLoop (m : Machine) (name : String) : Machine :=
  { m with context := m.context.enterLoop name }

def Machine.exitLoop (m : Machine) : Machine :=
  { m with context := m.context.exitLoop }

theorem Eval.inLoop_done {α : Type} {name : String} {body : Eval ω α} {a : α}
    (h : body (m.enterLoop name) (Observer.see w ⟨.changed, m.enterLoop name⟩) = .done a m₁ w₁) :
    Eval.inLoop name body m w = .done a m₁.exitLoop (Observer.see w₁ ⟨.changed, m₁.exitLoop⟩) := by
  show Eval.ending body _ _ (m.enterLoop name) (Observer.see w ⟨.changed, m.enterLoop name⟩) = _
  rw [Eval.ending, h]
  rfl

/-- A loop over whole numbers goes from `a` to `b` in steps of `c`. If its variables have different
names, and in every round its body comes to its end or jumps to the next, then there are just as many
rounds as the range has numbers, the `k`-th with `a + k * c` and the index `k`, and the loop ends. -/
theorem Eval.stmt_forRange_rounds (cfg : Config) (fuel : Nat) (env : Env) (id : Nat)
    (label index : Option Name) (value : Name) (r : RangeExpr) (body : List Stmt) {a b c : Int}
    (hstart : Eval.expr cfg fuel env r.start m w = .done (.number x) m₁ w₁)
    (hstop : Eval.expr cfg fuel env r.stop m₁ w₁ = .done (.number y) m₂ w₂)
    (hstep : r.step.elim (pure (.number 1)) (Eval.expr cfg fuel env) m₂ w₂ = .done (.number z) m₃ w₃)
    (hexact : Range.IsExact ⟨x, y, z, r.inclusive⟩ a b c)
    (hname : ∀ i ∈ index, i.text ≠ value.text) (hfuel : Range.count a b c r.inclusive < fuel) :
    let l : RangeLoop ω := ⟨Eval.inner cfg fuel ω, env, id, index, value, ⟨x, y, z, r.inclusive⟩, body⟩
    let m₀ := m₃.enterLoop (loopName id)
    let w₀ := Observer.see w₃ ⟨.changed, m₀⟩
    (∀ k < Range.count a b c r.inclusive, ∀ m' w', l.Rounds k m₀ w₀ m' w' →
      ∃ m'' w'', l.Round k m' w' m'' w'') →
    (∀ k < Range.count a b c r.inclusive,
      IsWhole (l.range.nth k) (a + k * c) ∧ IsWhole (Float.ofNat k) k) ∧
    ∃ m' w', l.Rounds (Range.count a b c r.inclusive) m₀ w₀ m' w' ∧
      Eval.stmt cfg (fuel + 1) env (.forRange id label index value r body) m w =
        .done (.normal .nothing) m'.exitLoop (Observer.see w' ⟨.changed, m'.exitLoop⟩) := by
  intro l m₀ w₀ hbody
  refine ⟨fun k hk => ?_, ?_⟩
  · have hle := Nat.le_of_lt hk
    exact ⟨hexact.nth hle, Number.isWhole_ofNat (hexact.index_lt hle)⟩
  have hz : (z == 0) = false := by
    rw [Bool.eq_false_iff, ne_eq, hexact.step.beq_zero_iff]
    exact hexact.nonzero
  obtain ⟨m', w', hrounds, hloop⟩ :=
    RangeLoop.forRange_eq (l := l) hexact hname hbody (Nat.zero_add _) hfuel .start
  refine ⟨m', w', hrounds, ?_⟩
  have hrange : (Eval.inner cfg fuel ω).range env r m w = .done ⟨x, y, z, r.inclusive⟩ m₃ w₃ :=
    Inner.range_done hstart hstop hstep hz
  exact (Eval.bind_done hrange).trans (Eval.inLoop_done hloop)

end

/-- From five down to zero in steps of two. -/
def countdown : RangeExpr :=
  ⟨.number ⟨5, 0⟩ default, .number ⟨0, 0⟩ default, false,
    some (.unary .negate (.number ⟨2, 0⟩ default) default)⟩

def countdownRange : Range :=
  ⟨Number.Decimal.toFloat ⟨5, 0⟩, Number.Decimal.toFloat ⟨0, 0⟩, -Number.Decimal.toFloat ⟨2, 0⟩, false⟩

/-- Three rounds are made, with five, three and one, although each jumps to the next at once. -/
theorem countdown_rounds :
    let cfg : Config := { file := "main" }
    let index : Name := ⟨"i", default⟩
    let value : Name := ⟨"x", default⟩
    let body : List Stmt := [.skip 0 none default]
    let l : RangeLoop Unit := ⟨Eval.inner cfg 5 Unit, default, 0, some index, value, countdownRange, body⟩
    Range.count 5 0 (-2) false = 3 ∧
    (∀ k < 3, IsWhole (countdownRange.nth k) (5 + k * -2) ∧ IsWhole (Float.ofNat k) k) ∧
    ∃ m', l.Rounds 3 (Machine.enterLoop {} (loopName 0)) () m' () ∧
      Eval.stmt cfg 6 default (.forRange 0 none (some index) value countdown body) {} () =
        .done (.normal .nothing) m'.exitLoop () := by
  intro cfg index value body l
  have hcount : Range.count 5 0 (-2) false = 3 := by decide +kernel
  have hexact : countdownRange.IsExact 5 0 (-2) := by
    refine ⟨?_, ?_, ?_, by decide, by decide, fun k hk => ?_, fun k hk => ?_⟩
    · show IsWhole (Number.Decimal.toFloat ⟨5, 0⟩) 5
      unfold IsWhole
      decide +kernel
    · show IsWhole (Number.Decimal.toFloat ⟨0, 0⟩) 0
      unfold IsWhole
      decide +kernel
    · show IsWhole (-Number.Decimal.toFloat ⟨2, 0⟩) (-2)
      unfold IsWhole
      decide +kernel
    · have hk : k ≤ 3 := hcount ▸ hk
      omega
    · have hk : k ≤ 3 := hcount ▸ hk
      omega
  have hname : ∀ i ∈ some index, i.text ≠ value.text := by simp [index, value]
  have hfuel : Range.count 5 0 (-2) false < 5 := by
    rw [hcount]
    decide
  have hround : ∀ k m, ∃ m' w', l.Round k m () m' w' := fun k m => ⟨_, (), .skip 0, .inr rfl, rfl⟩
  obtain ⟨hnumbers, m', w', hrounds, hstmt⟩ := Eval.stmt_forRange_rounds cfg 5 default 0 none
    (some index) value countdown body (m := {}) (w := ()) rfl rfl rfl hexact hname hfuel
    fun k _ m _ _ => hround k m
  rw [show countdown.inclusive = false from rfl, hcount] at hnumbers hrounds
  exact ⟨hcount, hnumbers, m', hrounds, hstmt⟩

end Sable
