import Sable.Proofs.Printing.Rereading
import Sable.Proofs.Termination.Expressions

/-!
# Annotations read back from their texts

`Regroups`: a flat annotation with the given words. A union inside a union is spliced into it, and a bar
behind a function with a result goes into the result. The text of an annotation is read as one that
regroups its words, and as the annotation itself if and only if that is `Flat`.
-/

namespace Sable

/-! ### Bars that go elsewhere -/

theorem separated_append (s : Symbol) {xs ys : List (List Word)} (hx : xs ≠ []) (hy : ys ≠ []) :
    separated s (xs ++ ys) = separated s xs ++ s.word :: separated s ys := by
  obtain ⟨x, xs, rfl⟩ := List.exists_cons_of_ne_nil hx
  obtain ⟨y, ys, rfl⟩ := List.exists_cons_of_ne_nil hy
  simp [separated]

namespace TypeExpr

/-- The members of a union, or the annotation itself. -/
def parts : TypeExpr → List TypeExpr
  | union members _ => members
  | t => [t]

theorem parts_of_not_union {t : TypeExpr} (h : t.isUnion = false) : t.parts = [t] := by
  cases t with
  | union => cases h
  | _ => rfl

theorem separated_parts (t : TypeExpr) : separated .pipe (wordsOf t.parts) = t.words := by
  cases t with
  | union => rfl
  | _ => simp [parts, wordsOf, separated]

/-- Annotations that can be written next to each other in a union. -/
structure Unionable (members : List TypeExpr) : Prop where
  some : members ≠ []
  formed : ∀ m ∈ members, m.Formed
  flat : ∀ m ∈ members, m.Flat
  single : ∀ m ∈ members, m.isUnion = false
  closed : ∀ m ∈ members.dropLast, m.hasResult = false

theorem unionable_parts {t : TypeExpr} (hformed : t.Formed) (hflat : t.Flat) : Unionable t.parts := by
  cases hu : t.isUnion with
  | false =>
    rw [parts_of_not_union hu]
    exact ⟨by simp, by simpa using hformed, by simpa using hflat, by simpa using hu, by simp⟩
  | true =>
    cases hformed with
    | union several hformed =>
      cases hflat with
      | union single closed hflat =>
        have hsome := List.ne_nil_of_length_pos (Nat.lt_of_lt_of_le Nat.zero_lt_two several)
        exact ⟨hsome, hformed, hflat, single, closed⟩
    | _ => cases hu

theorem Unionable.append {front back : List TypeExpr} (hf : Unionable front) (hb : Unionable back)
    (hclosed : ∀ m ∈ front, m.hasResult = false) : Unionable (front ++ back) where
  some := List.append_ne_nil_of_left_ne_nil hf.some back
  formed := List.forall_mem_append.2 ⟨hf.formed, hb.formed⟩
  flat := List.forall_mem_append.2 ⟨hf.flat, hb.flat⟩
  single := List.forall_mem_append.2 ⟨hf.single, hb.single⟩
  closed := by
    rw [List.dropLast_append_of_ne_nil hb.some]
    exact List.forall_mem_append.2 ⟨hclosed, hb.closed⟩

/-- The annotation is formed and flat, and read from the given words. -/
structure Regroups (words : List Word) (u : TypeExpr) : Prop where
  formed : u.Formed
  flat : u.Flat
  words_eq : u.words = words

theorem wordsOf_append (front back : List TypeExpr) :
    wordsOf (front ++ back) = wordsOf front ++ wordsOf back := by
  simp [wordsOf_eq]

theorem wordsOf_ne_nil {types : List TypeExpr} (h : types ≠ []) : wordsOf types ≠ [] := by
  simpa [wordsOf_eq] using h

/-- A union of types none of which leaves its text open, and of what stands behind them. -/
theorem Unionable.regroups {front : List TypeExpr} {v : TypeExpr} (hf : Unionable front)
    (hclosed : ∀ m ∈ front, m.hasResult = false) (hformed : v.Formed) (hflat : v.Flat) :
    Regroups (separated .pipe (wordsOf front) ++ Symbol.pipe.word :: v.words)
      (.union (front ++ v.parts) .nowhere) := by
  have hv := unionable_parts hformed hflat
  have hu := hf.append hv hclosed
  refine ⟨.union ?_ hu.formed, .union hu.single hu.closed hu.flat, ?_⟩
  · rw [List.length_append]
    exact Nat.add_le_add (List.length_pos_of_ne_nil hf.some) (List.length_pos_of_ne_nil hv.some)
  · rw [words, wordsOf_append, separated_append _ (wordsOf_ne_nil hf.some) (wordsOf_ne_nil hv.some),
      separated_parts]

/-- An annotation behind a bar goes into the last place that is open to it. -/
theorem exists_join {g r : TypeExpr} (hg : g.Formed) (hflat : g.Flat) (hr : r.Formed) (hrflat : r.Flat) :
    ∃ u, Regroups (g.words ++ Symbol.pipe.word :: r.words) u ∧ u.isOpen = true := by
  -- a type that is closed at its end becomes a member of the union with what follows
  have closed {g : TypeExpr} (hg : g.Formed) (hflat : g.Flat) (hu : g.isUnion = false)
      (hc : g.hasResult = false) :
      ∃ u, Regroups (g.words ++ Symbol.pipe.word :: r.words) u ∧ u.isOpen = true := by
    have hsingle : Unionable [g] :=
      ⟨by simp, by simpa using hg, by simpa using hflat, by simpa using hu, by simp⟩
    have hregroups := hsingle.regroups (by simpa using hc) hr hrflat
    rw [wordsOf, wordsOf, separated, List.flatMap_nil, List.append_nil] at hregroups
    exact ⟨_, hregroups, rfl⟩
  have hformed := hg
  induction hg with
  | primitive | named | generic | array => exact closed hformed hflat rfl rfl
  | @union members span several h ih =>
    cases hflat with
    | union single hclosed hflat =>
      have hne := List.ne_nil_of_length_pos (Nat.lt_of_lt_of_le Nat.zero_lt_two several)
      obtain ⟨front, last, rfl⟩ : ∃ front last, members = front ++ [last] :=
        ⟨_, _, (List.dropLast_append_getLast hne).symm⟩
      rw [List.dropLast_concat] at hclosed
      have hsome : front ≠ [] := by
        rintro rfl
        exact absurd several (by simp)
      have hmem : last ∈ front ++ [last] := by simp
      obtain ⟨v, hv, -⟩ := ih last hmem (hflat last hmem) (h last hmem)
      have hleft {P : TypeExpr → Prop} (hall : ∀ m ∈ front ++ [last], P m) : ∀ m ∈ front, P m :=
        (List.forall_mem_append.1 hall).1
      have hfront : Unionable front :=
        ⟨hsome, hleft h, hleft hflat, hleft single, fun m hm => hclosed m (List.dropLast_subset _ hm)⟩
      have hregroups := hfront.regroups hclosed hv.formed hv.flat
      refine ⟨.union (front ++ v.parts) .nowhere, ?_, rfl⟩
      rw [hv.words_eq] at hregroups
      rw [words, wordsOf_append, separated_append _ (wordsOf_ne_nil hsome) (wordsOf_ne_nil (by simp))]
      simpa [wordsOf, separated] using hregroups
  | @function params result span hp hres ihp ihr =>
    cases result with
    | none => exact closed hformed hflat rfl rfl
    | some res =>
      cases hflat with
      | function hflatp hflatr =>
        obtain ⟨v, hv, -⟩ := ihr res rfl (hflatr res rfl) (hres res rfl)
        refine ⟨.function params (some v) span, ⟨.function hp ?_, .function hflatp ?_, ?_⟩, rfl⟩
        · rintro x ⟨⟩
          exact hv.formed
        · rintro x ⟨⟩
          exact hv.flat
        · rw [words, resultWords, hv.words_eq, words, resultWords]
          simp

/-- One annotation for each of a list, with the same words. -/
theorem exists_regroups {types : List TypeExpr} (h : ∀ t ∈ types, ∃ u, Regroups t.words u) :
    ∃ us, (∀ u ∈ us, u.Formed ∧ u.Flat) ∧ wordsOf us = wordsOf types := by
  induction types with
  | nil => exact ⟨[], by simp, rfl⟩
  | cons t types ih =>
    obtain ⟨u, hu⟩ := h t List.mem_cons_self
    obtain ⟨us, hus, hwords⟩ := ih fun t ht => h t (List.mem_cons_of_mem _ ht)
    refine ⟨u :: us, List.forall_mem_cons.2 ⟨⟨hu.formed, hu.flat⟩, hus⟩, ?_⟩
    rw [wordsOf, hu.words_eq, hwords, wordsOf]

/-- Annotations joined one behind the other. -/
theorem exists_joined {first : TypeExpr} {others : List TypeExpr} (hfirst : first.Formed ∧ first.Flat)
    (hothers : ∀ u ∈ others, u.Formed ∧ u.Flat) :
    ∃ u, Regroups (separated .pipe (wordsOf (first :: others))) u ∧ (others ≠ [] → u.isOpen = true) := by
  induction others generalizing first with
  | nil => exact ⟨first, ⟨hfirst.1, hfirst.2, by simp [wordsOf, separated]⟩, fun h => absurd rfl h⟩
  | cons second others ih =>
    obtain ⟨hsecond, hothers⟩ := List.forall_mem_cons.1 hothers
    obtain ⟨v, hv, -⟩ := ih hsecond hothers
    obtain ⟨u, hu, hopen⟩ := exists_join hfirst.1 hfirst.2 hv.formed hv.flat
    refine ⟨u, ?_, fun _ => hopen⟩
    rw [hv.words_eq] at hu
    exact hu

/-- What a formed annotation is read back as. -/
theorem Formed.regroups {t : TypeExpr} (h : t.Formed) :
    ∃ u, Regroups t.words u ∧ u.isOpen = t.isOpen := by
  induction h with
  | primitive type span => exact ⟨_, ⟨.primitive type span, .primitive type span, rfl⟩, rfl⟩
  | @named name word free => exact ⟨_, ⟨.named word free, .named name, rfl⟩, rfl⟩
  | @generic name args word free hsome h ih =>
    obtain ⟨us, hus, hwords⟩ := exists_regroups fun a ha => (ih a ha).imp fun _ hu => hu.1
    have hne : us ≠ [] := by
      rintro rfl
      exact wordsOf_ne_nil hsome hwords.symm
    refine ⟨.generic name us, ⟨.generic word free hne fun u hu => (hus u hu).1,
      .generic fun u hu => (hus u hu).2, ?_⟩, rfl⟩
    rw [words, hwords, words]
  | @union members span several h ih =>
    obtain ⟨us, hus, hwords⟩ := exists_regroups fun m hm => (ih m hm).imp fun _ hu => hu.1
    have hlength : us.length = members.length := by
      simpa [wordsOf_eq] using congrArg List.length hwords
    obtain ⟨first, second, others, rfl⟩ := exists_two (hlength ▸ several)
    obtain ⟨hfirst, hothers⟩ := List.forall_mem_cons.1 hus
    -- members that end in a result take in what stands behind them
    obtain ⟨u, hu, hopen⟩ := exists_joined hfirst hothers
    rw [hwords] at hu
    exact ⟨u, hu, hopen (List.cons_ne_nil _ _)⟩
  | @array element span h ih =>
    obtain ⟨u, hu, hopen⟩ := ih
    refine ⟨.array u span, ⟨.array hu.formed, .array hu.flat, ?_⟩, rfl⟩
    rw [words, words, hopen, hu.words_eq]
  | @function params result span hp hr ihp ihr =>
    obtain ⟨us, hus, hwords⟩ := exists_regroups fun p hp => (ihp p hp).imp fun _ hu => hu.1
    obtain ⟨result', hresult', hgiven⟩ : ∃ result', (∀ r ∈ result', r.Formed ∧ r.Flat) ∧
        resultWords result' = resultWords result := by
      cases result with
      | none => exact ⟨none, by simp, rfl⟩
      | some r =>
        obtain ⟨u, hu, -⟩ := ihr r rfl
        refine ⟨some u, by simpa using ⟨hu.formed, hu.flat⟩, ?_⟩
        rw [resultWords, resultWords, hu.words_eq]
    refine ⟨.function us result' span, ⟨.function (fun u hu => (hus u hu).1) fun r hr => (hresult' r hr).1,
      .function (fun u hu => (hus u hu).2) fun r hr => (hresult' r hr).2, ?_⟩, rfl⟩
    rw [words, words, hwords, hgiven]

/-! ### Places aside -/

theorem isUnion_bare (t : TypeExpr) : t.bare.isUnion = t.isUnion := by
  cases t <;> rfl

theorem hasResult_bare (t : TypeExpr) : t.bare.hasResult = t.hasResult := by
  cases t with
  | function params result => cases result <;> rfl
  | _ => rfl

theorem Flat.bare {t : TypeExpr} (h : t.Flat) : t.bare.Flat := by
  induction h with
  | primitive type span => exact .primitive type _
  | named name => exact .named _
  | generic h ih =>
    rw [TypeExpr.bare, bareOf_eq]
    exact .generic (List.forall_mem_map.2 ih)
  | union single closed h ih =>
    rw [TypeExpr.bare, bareOf_eq]
    refine .union ?_ ?_ (List.forall_mem_map.2 ih)
    · exact List.forall_mem_map.2 fun m hm => (isUnion_bare m).trans (single m hm)
    · rw [← List.map_dropLast]
      exact List.forall_mem_map.2 fun m hm => (hasResult_bare m).trans (closed m hm)
  | array h ih => exact .array ih
  | @function params result span hp hr ihp ihr =>
    rw [TypeExpr.bare, bareOf_eq, bareResult_eq]
    refine .function (List.forall_mem_map.2 ihp) fun r hr => ?_
    obtain ⟨given, hgiven, rfl⟩ := Option.map_eq_some_iff.1 hr
    exact ihr given hgiven

theorem Formed.flat_of_bare {t : TypeExpr} (hformed : t.Formed) (h : t.bare.Flat) : t.Flat := by
  induction hformed with
  | primitive type span => exact .primitive type span
  | named => exact .named _
  | generic _ _ _ _ ih =>
    rw [TypeExpr.bare, bareOf_eq] at h
    cases h with
    | generic h => exact .generic fun a ha => ih a ha (h _ (List.mem_map_of_mem ha))
  | union _ _ ih =>
    rw [TypeExpr.bare, bareOf_eq] at h
    cases h with
    | union single closed h =>
      rw [← List.map_dropLast] at closed
      refine .union (fun m hm => ?_) (fun m hm => ?_) fun m hm => ih m hm (h _ (List.mem_map_of_mem hm))
      · rw [← isUnion_bare]
        exact single _ (List.mem_map_of_mem hm)
      · rw [← hasResult_bare]
        exact closed _ (List.mem_map_of_mem hm)
  | array _ ih =>
    cases h with
    | array h => exact .array (ih h)
  | function _ _ ihp ihr =>
    rw [TypeExpr.bare, bareOf_eq, bareResult_eq] at h
    cases h with
    | function hp hr =>
      exact .function (fun p hmem => ihp p hmem (hp _ (List.mem_map_of_mem hmem)))
        fun r hmem => ihr r hmem (hr _ (Option.mem_map_of_mem _ hmem))

end TypeExpr

/-- The text of a formed annotation is cut into its words. -/
theorem TypeExpr.Formed.tokenize {t : TypeExpr} (h : t.Formed) :
    ∃ tokens stop, Token.tokenize t.text = .ok tokens ∧
      Faces 1 t.words [Token.endAt stop] (Cursor.ofTokens tokens) := by
  have hspells : Spells (t.text.toList ++ []) (t.words ++ []) := h.spellsOut (by rintro c ⟨⟩) .nil
  rw [List.append_nil, List.append_nil] at hspells
  obtain ⟨tokens, stop, htokens, hfaces⟩ := hspells.tokenize
  exact ⟨_, stop, htokens, hfaces⟩

/-- The text of an annotation that was read from a source is read as an annotation to its end, and as
the same one but for its places exactly if no union in it has a union among its members, or a function
that says what it gives in any place but the last. -/
theorem TypeExpr.text_reread {source : String} {tokens : List Token} {c c' : Cursor} {b : Nat}
    {t : TypeExpr} (htokens : Token.tokenize source = .ok tokens) (hc : c.rest ⊆ tokens)
    (hb : distance c < b) (h : Parser.typeExpr b c = .ok (t, c')) :
    ∃ again t' last stop, Token.tokenize t.text = .ok again ∧
      (∀ budget, distance (Cursor.ofTokens again) < budget →
        Parser.typeExpr budget (Cursor.ofTokens again) = .ok (t', ⟨last, [Token.endAt stop]⟩)) ∧
      (t'.bare = t.bare ↔ t.Flat) := by
  have hformed := formed_of_read htokens hc hb h
  obtain ⟨again, stop, hagain, hfaces⟩ := hformed.tokenize
  obtain ⟨u, hu, -⟩ := hformed.regroups
  have hend : front [Token.endAt stop] ∈ Parser.closers := by
    show Kind.endOfFile ∈ Parser.closers
    decide
  -- one budget stands for all that are large enough
  have hread {u : TypeExpr} (hu : Regroups t.words u) :
      Parser.Rereads (Parser.typeExpr ((Cursor.ofTokens again).rest.length + 1))
        (Cursor.ofTokens again) u [Token.endAt stop] :=
    (Parser.reads_flat hu.formed hu.flat).1 1 _ _ _ (hu.words_eq ▸ hfaces) (Nat.le_succ _) hend
  obtain ⟨t', last, hrun, hbare⟩ := hread hu
  refine ⟨again, t', last, stop, hagain, fun budget hbudget => ?_, fun heq => ?_, fun hflat => ?_⟩
  · have hdistance : distance (Cursor.ofTokens again) < (Cursor.ofTokens again).rest.length + 1 :=
      Nat.lt_succ_of_le (List.takeWhile_prefix _).length_le
    exact (Parser.terminates_typeExpr.independent budget _ () _ hbudget hbudget hdistance).trans hrun
  · refine hformed.flat_of_bare ?_
    rw [← heq, hbare]
    exact hu.flat.bare
  · obtain ⟨same, last', hrun', hbare'⟩ := hread ⟨hformed, hflat, rfl⟩
    have hsame := hrun.symm.trans hrun'
    cases hsame
    exact hbare'

/-- An annotation at the head of a source has the property. -/
def ReadFrom (source : String) (P : TypeExpr → Prop) : Prop :=
  ∃ tokens c t c', Token.tokenize source = .ok tokens ∧ c.rest ⊆ tokens ∧ distance c < tokens.length ∧
    Parser.typeExpr tokens.length c = .ok (t, c') ∧ P t

theorem readFrom_of_shape (source : String) (shape : TypeExpr → Bool)
    (h : (match Token.tokenize source with
      | .error _ => false
      | .ok tokens =>
        match Parser.typeExpr tokens.length (Cursor.ofTokens tokens) with
        | .error _ => false
        | .ok (t, _) => shape t && decide ((Cursor.ofTokens tokens).rest ⊆ tokens ∧
          distance (Cursor.ofTokens tokens) < tokens.length)) = true) :
    ReadFrom source (shape · = true) := by
  split at h
  · cases h
  · rename_i tokens htokens
    split at h
    · cases h
    · rename_i t c' hread
      obtain ⟨hshape, hplace⟩ := Bool.and_eq_true_iff.1 h
      obtain ⟨hsub, hdistance⟩ := of_decide_eq_true hplace
      exact ⟨tokens, _, t, c', htokens, hsub, hdistance, hread, hshape⟩

/-- What the text of an annotation is read as. -/
def ReadBack (t t' : TypeExpr) : Prop :=
  ∃ again last stop, Token.tokenize t.text = .ok again ∧
    ∀ budget, distance (Cursor.ofTokens again) < budget →
      Parser.typeExpr budget (Cursor.ofTokens again) = .ok (t', ⟨last, [Token.endAt stop]⟩)

/-- A union whose first member is a function with a result. -/
def TypeExpr.startsWithFunction : TypeExpr → Bool
  | .union (.function _ (some _) _ :: _ :: _) _ => true
  | _ => false

/-- A union of an array and a function whose result is a union of two names. -/
def TypeExpr.endsWithFunction : TypeExpr → Bool
  | .union [.array (.named _) _, .function [] (some (.union [.named _, .named _] _)) _] _ => true
  | _ => false

/-- The text of a union that begins with a function in parentheses is read as a function, and that
of a union that ends in a function as the union. -/
theorem TypeExpr.bars_reread :
    ReadFrom "(fn(A) -> B) | (A | number)[]" (fun t => ∃ t', ReadBack t t' ∧ t'.bare ≠ t.bare) ∧
      ReadFrom "A[] | fn() -> B | C" fun t => ∃ t', ReadBack t t' ∧ t'.bare = t.bare := by
  constructor
  · obtain ⟨tokens, c, t, c', htokens, hc, hb, hread, hshape⟩ :=
      readFrom_of_shape "(fn(A) -> B) | (A | number)[]"
        TypeExpr.startsWithFunction (by decide +kernel)
    obtain ⟨again, t', last, stop, hagain, hreread, hiff⟩ := text_reread htokens hc hb hread
    refine ⟨tokens, c, t, c', htokens, hc, hb, hread, t', ⟨again, last, stop, hagain, hreread⟩, ?_⟩
    intro hbare
    have hflat := hiff.1 hbare
    unfold startsWithFunction at hshape
    split at hshape
    · cases hflat with
      | union _ closed _ => cases closed _ List.mem_cons_self
    · cases hshape
  · obtain ⟨tokens, c, t, c', htokens, hc, hb, hread, hshape⟩ :=
      readFrom_of_shape "A[] | fn() -> B | C"
        TypeExpr.endsWithFunction (by decide +kernel)
    obtain ⟨again, t', last, stop, hagain, hreread, hiff⟩ := text_reread htokens hc hb hread
    refine ⟨tokens, c, t, c', htokens, hc, hb, hread, t', ⟨again, last, stop, hagain, hreread⟩, ?_⟩
    unfold endsWithFunction at hshape
    split at hshape
    · refine hiff.2 (.union (by simp [isUnion]) (by simp [hasResult]) (List.forall_mem_cons.2
        ⟨.array (.named _), List.forall_mem_singleton.2 (.function (by simp) ?_)⟩))
      rintro r ⟨⟩
      exact .union (by simp [isUnion]) (by simp [hasResult]) (by simp [Flat.named])
    · cases hshape

end Sable
