import Sable.Proofs.Values.Nesting

/-!
# Containers inside themselves

A `Traversal` is a recursion through what lies in a value; `Store.texts` shows the value and
`Store.types` finds its type. `guarded` stops at a container that is around the value, `threaded` does
so with one list that it pushes to and pops from, and `plain` has no guard. `Exact`: the first two end
in every store with the same result. It is that of the tree which is cut off where a path first returns
(`Unfolding.Covers`), and where no path returns it is that of `plain`.
-/

namespace Sable

/-- The container that a value is. -/
def Value.container? : Value → Option Container
  | .object a => some (.object a)
  | .array a => some (.array a)
  | _ => none

@[simp] theorem Value.container?_value (c : Container) : c.value.container? = some c := by
  cases c <;> rfl

theorem Value.eq_of_container? {v : Value} {c : Container} (h : v.container? = some c) :
    v = c.value := by
  cases v <;> cases h <;> rfl

/-- A recursion over the values inside a value, which combines the results for the parts of each. -/
structure Traversal (s : Store) (β : Type) where
  /-- The values that are looked at inside another. -/
  parts : Value → List Value
  /-- What is made of a value, given what was made of its parts. -/
  combine : Value → List β → β
  /-- What stands for a container inside itself. -/
  mark : β
  scalar {v : Value} (h : v.container? = none) : parts v = []
  has {c : Container} {v : Value} (h : v ∈ parts c.value) : s.Has c

namespace Traversal

variable {s : Store} {β : Type} (T : Traversal s β)

/-! ### The recursions -/

/-- The recursion without a guard, up to a depth. For a value that contains itself it gives `none`
at every depth. -/
def plain : Nat → Value → Option β
  | 0, _ => none
  | d + 1, v => do return T.combine v (← (T.parts v).mapM (plain d))

/-- The recursion that is given the containers around a value and goes into none of them again, up
to a depth. -/
def guarded : Nat → List Container → Value → Option β
  | 0, _, _ => none
  | d + 1, around, v =>
    match v.container? with
    | none => some (T.combine v [])
    | some c =>
      if c ∈ around then some T.mark
      else do return T.combine v (← (T.parts v).mapM (guarded d (c :: around)))

/-- The recursion that keeps one list of the containers around a value, pushes each container that it goes
into and pops it when it is done there. -/
def threaded : Nat → Value → StateT (List Container) Option β
  | 0, _ => failure
  | d + 1, v => do
    match v.container? with
    | none => return T.combine v []
    | some c =>
      if c ∈ (← get) then return T.mark
      modify (c :: ·)
      let found ← (T.parts v).mapM (threaded d)
      modify List.tail
      return T.combine v found

/-! ### Paths -/

/-- What a path leads to. Each of its numbers picks a part. -/
def follow : Value → List Nat → Option Value
  | v, [] => some v
  | v, i :: path => (T.parts v)[i]?.bind (follow · path)

/-- The path leads to a container that it has come through, or to one of those around its start. -/
def Returns (around : List Container) (v : Value) (path : List Nat) (c : Container) : Prop :=
  T.follow v path = some c.value ∧
    (c ∈ around ∨ ∃ way, way <+: path ∧ way ≠ path ∧ T.follow v way = some c.value)

/-- The path does not return before its end. -/
def Onward (around : List Container) (v : Value) (path : List Nat) : Prop :=
  ∀ way, way <+: path → way ≠ path → ∀ c, ¬ T.Returns around v way c

end Traversal

/-! ### What the walk finds -/

/-- A value, or a container that the walk is inside of. -/
inductive Label where
  | value (v : Value)
  | again (c : Container)

/-- The tree of the values that a traversal meets, each with its parts below it. -/
inductive Unfolding where
  | node (label : Label) (parts : List Unfolding)

namespace Unfolding

/-- What is found at the end of a path. -/
def label? : Unfolding → List Nat → Option Label
  | node label _, [] => some label
  | node _ parts, i :: path => parts[i]?.bind (label? · path)

variable {s : Store} {β : Type}

mutual

/-- What a traversal makes of what it has found. -/
def result (T : Traversal s β) : Unfolding → β
  | node (.value v) parts => T.combine v (results T parts)
  | node (.again _) _ => T.mark

def results (T : Traversal s β) : List Unfolding → List β
  | [] => []
  | t :: ts => t.result T :: results T ts

end

theorem results_eq_map (T : Traversal s β) (ts : List Unfolding) : results T ts = ts.map (result T) := by
  induction ts with
  | nil => rfl
  | cons t ts ih => rw [results, ih, List.map_cons]

/-- The tree holds what the paths from the value lead to, each up to its first return and no
further. -/
structure Covers (T : Traversal s β) (around : List Container) (v : Value) (t : Unfolding) : Prop where
  value (path : List Nat) (x : Value) : t.label? path = some (.value x) ↔
    T.follow v path = some x ∧ T.Onward around v path ∧ ∀ c, ¬ T.Returns around v path c
  again (path : List Nat) (c : Container) : t.label? path = some (.again c) ↔
    T.Returns around v path c ∧ T.Onward around v path

end Unfolding

namespace Traversal

variable {s : Store} {β : Type} {T : Traversal s β} {around : List Container} {v : Value}

/-- The walk at a value, with the containers around it, comes to an end within the depth. It is over
at a value that is no container and at a container around it; else it goes on in the parts. -/
inductive Walk (T : Traversal s β) : Nat → List Container → Value → Prop
  | scalar {d : Nat} {around : List Container} {v : Value} (h : v.container? = none) :
      Walk T (d + 1) around v
  | again {d : Nat} {around : List Container} {c : Container} (h : c ∈ around) :
      Walk T (d + 1) around c.value
  | enter {d : Nat} {around : List Container} {c : Container} (h : c ∉ around)
      (parts : ∀ y ∈ T.parts c.value, Walk T d (c :: around) y) : Walk T (d + 1) around c.value

/-- The depth never runs out on the way. -/
theorem walk (T : Traversal s β) {d : Nat} (h : s.Trail d around) (v : Value) :
    T.Walk d around v := by
  induction d generalizing around v with
  | zero => exact absurd h.depth_pos (Nat.lt_irrefl 0)
  | succ d ih =>
    cases hv : v.container? with
    | none => exact .scalar hv
    | some c =>
      obtain rfl := Value.eq_of_container? hv
      by_cases hc : c ∈ around
      · exact .again hc
      · exact .enter hc fun y hy => ih (h.push hc (T.has hy)) y

/-- What the walk finds within the given depth. -/
def unfold (T : Traversal s β) : Nat → List Container → Value → Unfolding
  | 0, _, v => .node (.value v) []
  | d + 1, around, v =>
    match v.container? with
    | none => .node (.value v) []
    | some c =>
      if c ∈ around then .node (.again c) []
      else .node (.value v) ((T.parts v).map (unfold T d (c :: around)))

section Unfold

variable {d : Nat} {c : Container}

theorem unfold_scalar (h : v.container? = none) :
    T.unfold (d + 1) around v = .node (.value v) [] := by
  rw [unfold, h]

theorem unfold_again (h : c ∈ around) : T.unfold (d + 1) around c.value = .node (.again c) [] := by
  rw [unfold, Value.container?_value]
  exact if_pos h

theorem unfold_enter (h : c ∉ around) : T.unfold (d + 1) around c.value =
    .node (.value c.value) ((T.parts c.value).map (T.unfold d (c :: around))) := by
  rw [unfold, Value.container?_value]
  exact if_neg h

end Unfold

/-! ### The tree covers the value -/

theorem forall_prefix_cons {P : List Nat → Prop} {i : Nat} {path : List Nat} :
    (∀ way, way <+: i :: path → way ≠ i :: path → P way) ↔
      P [] ∧ ∀ way, way <+: path → way ≠ path → P (i :: way) := by
  constructor
  · intro h
    refine ⟨h [] List.nil_prefix nofun, fun way hway hne => ?_⟩
    exact h (i :: way) (List.cons_prefix_cons.2 ⟨rfl, hway⟩) fun heq => hne (List.cons.inj heq).2
  · rintro ⟨hnil, hcons⟩ way hway hne
    rcases List.prefix_cons_iff.1 hway with rfl | ⟨way', rfl, hway'⟩
    · exact hnil
    · exact hcons way' hway' fun heq => hne (by rw [heq])

theorem returns_nil {c : Container} : T.Returns around v [] c ↔ v = c.value ∧ c ∈ around := by
  constructor
  · rintro ⟨hv, hc | ⟨way, hway, hne, -⟩⟩
    · exact ⟨Option.some.inj hv, hc⟩
    · exact absurd (List.prefix_nil.1 hway) hne
  · rintro ⟨rfl, hc⟩
    exact ⟨rfl, .inl hc⟩

theorem onward_nil : T.Onward around v [] :=
  fun _ hway hne => absurd (List.prefix_nil.1 hway) hne

theorem follow_cons {i : Nat} {y : Value} (h : (T.parts v)[i]? = some y) (path : List Nat) :
    T.follow v (i :: path) = T.follow y path := by
  rw [follow, h, Option.bind_some]

theorem follow_none {i : Nat} (h : (T.parts v)[i]? = none) (path : List Nat) :
    T.follow v (i :: path) = none := by
  rw [follow, h, Option.bind_none]

/-- Inside a container, a path returns to what its rest returns to, the container included. -/
theorem returns_cons {i : Nat} {c c' : Container} {y : Value} {path : List Nat}
    (h : (T.parts c.value)[i]? = some y) :
    T.Returns around c.value (i :: path) c' ↔ T.Returns (c :: around) y path c' := by
  unfold Returns
  rw [follow_cons h, List.mem_cons]
  refine and_congr_right fun _ => ?_
  constructor
  · rintro (hc | ⟨way, hway, hne, hfollow⟩)
    · exact .inl (.inr hc)
    · rcases List.prefix_cons_iff.1 hway with rfl | ⟨way', rfl, hway'⟩
      · exact .inl (.inl (Container.value_inj (Option.some.inj hfollow)).symm)
      · rw [follow_cons h] at hfollow
        exact .inr ⟨way', hway', fun heq => hne (by rw [heq]), hfollow⟩
  · rintro ((rfl | hc) | ⟨way, hway, hne, hfollow⟩)
    · exact .inr ⟨[], List.nil_prefix, nofun, rfl⟩
    · exact .inl hc
    · refine .inr ⟨i :: way, List.cons_prefix_cons.2 ⟨rfl, hway⟩, ?_, ?_⟩
      · exact fun heq => hne (List.cons.inj heq).2
      · rw [follow_cons h, hfollow]

theorem not_returns_of_none {i : Nat} {c : Container} {path : List Nat}
    (h : (T.parts v)[i]? = none) : ¬ T.Returns around v (i :: path) c := by
  rintro ⟨hfollow, -⟩
  rw [follow_none h] at hfollow
  cases hfollow

theorem onward_cons {i : Nat} {c : Container} {y : Value} {path : List Nat} (hc : c ∉ around)
    (h : (T.parts c.value)[i]? = some y) :
    T.Onward around c.value (i :: path) ↔ T.Onward (c :: around) y path := by
  unfold Onward
  rw [forall_prefix_cons]
  have hnil (c' : Container) : ¬ T.Returns around c.value [] c' := by
    rintro hreturns
    obtain ⟨hvalue, hmem⟩ := returns_nil.1 hreturns
    exact hc (Container.value_inj hvalue ▸ hmem)
  simp only [returns_cons h]
  exact and_iff_right hnil

theorem covers_scalar (h : v.container? = none) :
    (Unfolding.node (.value v) []).Covers T around v := by
  have hparts (i : Nat) : (T.parts v)[i]? = none := by rw [T.scalar h]; rfl
  have hreturns (path : List Nat) (c : Container) : ¬ T.Returns around v path c := by
    cases path with
    | nil =>
      intro hreturn
      rw [(returns_nil.1 hreturn).1, Value.container?_value] at h
      cases h
    | cons i path => exact not_returns_of_none (hparts i)
  constructor
  · intro path x
    cases path with
    | nil =>
      constructor
      · rintro ⟨⟩
        exact ⟨rfl, onward_nil, hreturns []⟩
      · rintro ⟨⟨⟩, -⟩
        rfl
    | cons i path =>
      rw [follow_none (hparts i)]
      exact ⟨nofun, nofun⟩
  · intro path c
    refine ⟨?_, fun hreturn => absurd hreturn.1 (hreturns path c)⟩
    cases path <;> exact nofun

theorem covers_again {c : Container} (h : c ∈ around) :
    (Unfolding.node (.again c) []).Covers T around c.value := by
  have hreturns : T.Returns around c.value [] c := returns_nil.2 ⟨rfl, h⟩
  have honward (i : Nat) (path : List Nat) : ¬ T.Onward around c.value (i :: path) :=
    fun honward => honward [] List.nil_prefix nofun c hreturns
  constructor
  · intro path x
    cases path with
    | nil => exact ⟨nofun, fun hvalue => absurd hreturns (hvalue.2.2 c)⟩
    | cons i path => exact ⟨nofun, fun hvalue => absurd hvalue.2.1 (honward i path)⟩
  · intro path c'
    cases path with
    | nil =>
      constructor
      · rintro ⟨⟩
        exact ⟨hreturns, onward_nil⟩
      · rintro ⟨hreturn, -⟩
        rw [Container.value_inj (returns_nil.1 hreturn).1]
        rfl
    | cons i path => exact ⟨nofun, fun hagain => absurd hagain.2 (honward i path)⟩

theorem covers_enter {c : Container} {tree : Value → Unfolding} (h : c ∉ around)
    (htree : ∀ y ∈ T.parts c.value, (tree y).Covers T (c :: around) y) :
    (Unfolding.node (.value c.value) ((T.parts c.value).map tree)).Covers T around c.value := by
  -- the container is entered for the first time, so the empty path does not return
  have hreturns (c' : Container) : ¬ T.Returns around c.value [] c' := by
    intro hreturn
    obtain ⟨hvalue, hmem⟩ := returns_nil.1 hreturn
    exact h (Container.value_inj hvalue ▸ hmem)
  have hlabel (i : Nat) (path : List Nat) :
      (Unfolding.node (.value c.value) ((T.parts c.value).map tree)).label? (i :: path) =
        (T.parts c.value)[i]?.bind fun y => (tree y).label? path := by
    rw [Unfolding.label?, List.getElem?_map, Option.bind_map]
    rfl
  constructor
  · intro path x
    cases path with
    | nil =>
      constructor
      · rintro ⟨⟩
        exact ⟨rfl, onward_nil, hreturns⟩
      · rintro ⟨⟨⟩, -⟩
        rfl
    | cons i path =>
      rw [hlabel]
      cases hy : (T.parts c.value)[i]? with
      | none =>
        rw [follow_none hy]
        exact ⟨nofun, nofun⟩
      | some y =>
        rw [Option.bind_some, (htree y (List.mem_of_getElem? hy)).value, follow_cons hy,
          onward_cons h hy]
        simp only [returns_cons hy]
  · intro path c'
    cases path with
    | nil => exact ⟨nofun, fun hagain => absurd hagain.1 (hreturns c')⟩
    | cons i path =>
      rw [hlabel]
      cases hy : (T.parts c.value)[i]? with
      | none => exact ⟨nofun, fun hagain => absurd hagain.1 (not_returns_of_none hy)⟩
      | some y =>
        rw [Option.bind_some, (htree y (List.mem_of_getElem? hy)).again, returns_cons hy,
          onward_cons h hy]

theorem covers_unfold {d : Nat} (h : T.Walk d around v) : (T.unfold d around v).Covers T around v := by
  induction h with
  | scalar h =>
    rw [unfold_scalar h]
    exact covers_scalar h
  | again h =>
    rw [unfold_again h]
    exact covers_again h
  | enter h _ ih =>
    rw [unfold_enter h]
    exact covers_enter h ih

theorem mapM_eq_some_map {α γ : Type} {f : α → Option γ} {g : α → γ} {l : List α}
    (h : ∀ a ∈ l, f a = some (g a)) : l.mapM f = some (l.map g) := by
  induction l with
  | nil => rfl
  | cons a l ih =>
    rw [List.mapM_cons, h a List.mem_cons_self, ih fun b hb => h b (List.mem_cons_of_mem a hb)]
    rfl

theorem run_mapM {α γ σ : Type} {f : α → StateT σ Option γ} {g : α → Option γ} {x : σ} {l : List α}
    (h : ∀ a ∈ l, (f a).run x = (g a).map (·, x)) : (l.mapM f).run x = (l.mapM g).map (·, x) := by
  induction l with
  | nil => rfl
  | cons a l ih =>
    have hrest := ih fun b hb => h b (List.mem_cons_of_mem a hb)
    rw [List.mapM_cons, List.mapM_cons, StateT.run_bind, h a List.mem_cons_self]
    cases g a with
    | none => rfl
    | some b =>
      show (l.mapM f >>= fun bs => pure (b :: bs)).run x = _
      rw [StateT.run_bind, hrest]
      cases l.mapM g <;> rfl

/-- The list is the same after each part of a value as before it, whichever way the recursion ends. -/
theorem run_threaded (T : Traversal s β) (d : Nat) (around : List Container) (v : Value) :
    (T.threaded d v).run around = (T.guarded d around v).map (·, around) := by
  induction d generalizing around v with
  | zero => rfl
  | succ d ih =>
    rw [threaded, guarded]
    cases v.container? with
    | none => rfl
    | some c =>
      have hparts := run_mapM fun y (_ : y ∈ T.parts v) => ih (c :: around) y
      show (if c ∈ around then (pure T.mark : StateT _ Option β)
        else do
          modify (c :: ·)
          let found ← (T.parts v).mapM (T.threaded d)
          modify List.tail
          return T.combine v found).run around = _
      split
      · rename_i hc
        simp only [hc, if_true]
        rfl
      · rename_i hc
        simp only [hc, if_false]
        show ((T.parts v).mapM (T.threaded d) >>= fun found => do
          modify List.tail
          return T.combine v found).run (c :: around) = _
        rw [StateT.run_bind, hparts]
        cases (T.parts v).mapM (T.guarded d (c :: around)) <;> rfl

/-! ### The recursions end with the result of the tree -/

theorem guarded_eq {d n : Nat} (h : T.Walk d around v) (hn : d ≤ n) :
    T.guarded n around v = some ((T.unfold d around v).result T) := by
  induction h generalizing n with
  | scalar h =>
    obtain ⟨n, rfl⟩ := Nat.exists_eq_add_of_le' hn
    rw [← Nat.add_assoc, guarded, h, unfold_scalar h]
    rfl
  | again h =>
    obtain ⟨n, rfl⟩ := Nat.exists_eq_add_of_le' hn
    rw [← Nat.add_assoc, guarded, Value.container?_value, unfold_again h]
    exact if_pos h
  | enter h _ ih =>
    obtain ⟨n, rfl⟩ := Nat.exists_eq_add_of_le' hn
    rw [← Nat.add_assoc, guarded, Value.container?_value, unfold_enter h, Unfolding.result,
      Unfolding.results_eq_map, List.map_map]
    dsimp only
    rw [if_neg h, mapM_eq_some_map fun y hy => ih y hy (Nat.le_add_left _ n)]
    rfl

theorem plain_eq {d n : Nat} (h : T.Walk d around v) (hreturns : ∀ path c, ¬ T.Returns around v path c)
    (hn : d ≤ n) : T.plain n v = some ((T.unfold d around v).result T) := by
  induction h generalizing n with
  | scalar h =>
    obtain ⟨n, rfl⟩ := Nat.exists_eq_add_of_le' hn
    rw [← Nat.add_assoc, plain, unfold_scalar h, T.scalar h]
    rfl
  | again h => exact absurd (returns_nil.2 ⟨rfl, h⟩) (hreturns [] _)
  | enter h _ ih =>
    obtain ⟨n, rfl⟩ := Nat.exists_eq_add_of_le' hn
    rw [← Nat.add_assoc, plain, unfold_enter h, Unfolding.result, Unfolding.results_eq_map, List.map_map]
    have hparts := fun y hy => ih y hy (fun path c hreturn => by
      obtain ⟨i, hi⟩ := List.mem_iff_getElem?.1 hy
      exact hreturns (i :: path) c ((returns_cons hi).2 hreturn)) (Nat.le_add_left _ n)
    rw [mapM_eq_some_map hparts]
    rfl

/-- The traversal gives `r` for the value `v`. -/
structure Exact (T : Traversal s β) (v : Value) (r : β) : Prop where
  /-- The guarded recursion ends with it, however deep it may go. -/
  ends : ∃ d, ∀ n, d ≤ n → T.guarded n [] v = some r
  /-- So does the recursion that pushes and pops, and its list is empty again. -/
  threads : ∃ d, ∀ n, d ≤ n → (T.threaded n v).run [] = some (r, [])
  /-- It is made of the tree that ends in a mark exactly where a path first returns. -/
  unfolds : ∃ t : Unfolding, t.Covers T [] v ∧ t.result T = r
  /-- Where no path returns, the recursion without a guard ends with the same. -/
  plain : (∀ path c, ¬ T.Returns [] v path c) → ∃ d, ∀ n, d ≤ n → T.plain n v = some r

theorem exact_unfold (T : Traversal s β) (v : Value) :
    T.Exact v ((T.unfold s.depth [] v).result T) :=
  have hwalk := T.walk (.start s) v
  ⟨⟨_, fun _ => guarded_eq hwalk⟩, ⟨_, fun n hn => by rw [run_threaded, guarded_eq hwalk hn]; rfl⟩,
    ⟨_, covers_unfold hwalk, rfl⟩, fun hreturns => ⟨_, fun _ => plain_eq hwalk hreturns⟩⟩

end Traversal

/-! ### Texts and types -/

namespace Store

variable {s : Store}

/-- The values that a container holds. -/
def held (s : Store) : Value → List Value
  | .object a => (s.object a).properties.map (·.2)
  | .array a => (s.array a).toList
  | _ => []

/-- The text of a value, given the texts of what it holds. -/
def shown (s : Store) (v : Value) (texts : List String) : String :=
  match v with
  | .object a =>
    let o := s.object a
    let tag := match o.tag with
      | some name => name ++ " "
      | none => ""
    if o.properties.isEmpty then tag ++ "\x7b\x7d"
    else
      let members := o.properties.zipWith (fun p text => p.1 ++ ": " ++ text) texts
      tag ++ "\x7b " ++ ", ".intercalate members ++ " \x7d"
  | .array _ => "[" ++ ", ".intercalate texts ++ "]"
  | v => s.renderWithin 1 [] v

/-- The type of a value, given the types of its parts. -/
def typed (s : Store) (v : Value) (types : List Ty) : Ty :=
  match v with
  | .object a =>
    let o := s.object a
    if o.isSealed then .generic (o.tag.getD "") o.typeArgs
    else .struct (o.tag.getD "") [] (o.properties.zipWith (fun p type => ⟨p.1, type, false⟩) types)
  | .array _ => arrayType types
  | v => s.typeWithin 1 [] v

theorem has_of_held {c : Container} {v : Value} (h : v ∈ s.held c.value) : s.Has c := by
  cases c with
  | array a => exact has_of_part (c := .array a) h
  | object a =>
    refine Nat.lt_of_not_le fun hle => ?_
    have hobject : s.object a = default := by simp [object, Nat.not_lt.2 hle]
    simp [Container.value, held, hobject, default] at h

/-- Showing a value: all that it holds is looked at. -/
def texts (s : Store) : Traversal s String where
  parts := s.held
  combine := s.shown
  mark := cycleMark
  scalar {v} h := by cases v <;> first | rfl | cases h
  has := has_of_held

/-- Finding the type of a value: an instance with type arguments is not looked into. -/
def types (s : Store) : Traversal s Ty where
  parts := s.parts
  combine := s.typed
  mark := .dynamic
  scalar {v} h := by cases v <;> first | rfl | cases h
  has := has_of_part

theorem zipWith_map_map {α γ δ ε : Type} (f : α → δ → ε) (g : α → γ) (k : γ → δ) (l : List α) :
    l.zipWith f ((l.map g).map k) = l.map fun a => f a (k (g a)) := by
  rw [List.map_map, List.zipWith_map_right, List.zipWith_self]
  rfl

theorem renderWithin_unfold {d : Nat} {around : List Container} {v : Value}
    (h : s.texts.Walk d around v) :
    s.renderWithin d around v = (s.texts.unfold d around v).result s.texts := by
  induction h with
  | scalar h =>
    rw [Traversal.unfold_scalar h]
    rename_i v
    cases v <;> first | rfl | cases h
  | @again d around c h =>
    rw [Traversal.unfold_again h]
    cases c <;> exact if_pos h
  | @enter d around c h _ ih =>
    have hparts : (s.held c.value).map (s.renderWithin d (c :: around)) =
        Unfolding.results s.texts ((s.held c.value).map (s.texts.unfold d (c :: around))) := by
      rw [Unfolding.results_eq_map, List.map_map]
      exact List.map_congr_left ih
    rw [Traversal.unfold_enter h, Unfolding.result]
    show _ = s.shown c.value (Unfolding.results s.texts ((s.held c.value).map _))
    rw [← hparts]
    cases c with
    | array a => exact if_neg h
    | object a =>
      simp only [Container.value, held, shown, zipWith_map_map]
      exact if_neg h

theorem typeWithin_unfold {d : Nat} {around : List Container} {v : Value}
    (h : s.types.Walk d around v) :
    s.typeWithin d around v = (s.types.unfold d around v).result s.types := by
  induction h with
  | scalar h =>
    rw [Traversal.unfold_scalar h]
    rename_i v
    cases v <;> first | rfl | cases h
  | @again d around c h => rw [Traversal.unfold_again h, typeWithin_container, if_pos h]; rfl
  | @enter d around c h _ ih =>
    have hparts : (s.parts c.value).map (s.typeWithin d (c :: around)) =
        Unfolding.results s.types ((s.parts c.value).map (s.types.unfold d (c :: around))) := by
      rw [Unfolding.results_eq_map, List.map_map]
      exact List.map_congr_left ih
    rw [Traversal.unfold_enter h, Unfolding.result, typeWithin_container, if_neg h]
    show _ = s.typed c.value (Unfolding.results s.types ((s.parts c.value).map _))
    rw [← hparts]
    cases c with
    | array a => rfl
    | object a =>
      simp only [Container.value, parts, typed, shape]
      split
      · rfl
      · rw [zipWith_map_map]

/-- In every store, whatever its containers share and however they contain one another, showing a
value and finding its type come to an end. A mark, or `dynamic`, stands exactly where a path first
returns to a container that it has come through, and a value in which no path does is shown and
typed as without a guard. -/
theorem shown_and_typed (s : Store) (v : Value) :
    (match v with
      | .text text => s.render v = text
      | _ => s.texts.Exact v (s.render v)) ∧
    s.types.Exact v (s.typeOf v) := by
  have htexts : s.texts.Exact v (s.renderWithin s.depth [] v) := by
    rw [renderWithin_unfold (s.texts.walk (.start s) v)]
    exact s.texts.exact_unfold v
  refine ⟨?_, ?_⟩
  · cases v with
    | text text => rfl
    | _ => exact htexts
  · rw [typeOf, typeWithin_unfold (s.types.walk (.start s) v)]
    exact s.types.exact_unfold v

example : (⟨#[], #[⟨none, [], [("left", .object 1), ("right", .object 1)]⟩,
      ⟨none, [], [("up", .object 0)]⟩], #[]⟩ : Store).render (.object 1) =
    "\x7b up: \x7b left: <cycle>, right: <cycle> \x7d \x7d" := by
  decide +kernel

end Store

end Sable
