import Sable.Proofs.Layout.Marks
import Sable.Proofs.Scanning.Tiling

/-!
# Layout loses and adds nothing

Without layout tokens the result of `Layout.mark` is what it was given. Among the tokens that are no
trivia (`visible`) an indent stands in the place of the colon at the end of the line before it (`Kept`,
`FollowsOpener`).
-/

namespace Sable

namespace Layout

/-- Nothing but trivia is left of the line. -/
def endsLine : List Token → Bool
  | [] => false
  | t :: rest => t.kind = .newline || (t.kind.isTrivia && endsLine rest)

/-- The tokens that are no trivia, each with whether it is the last of them on its line. -/
def significant : List Token → List (Token × Bool)
  | [] => []
  | t :: rest =>
    if t.kind.isTrivia then significant rest else (t, endsLine rest) :: significant rest

/-- A token stays what it is, but a colon at the end of a line may become an indent. -/
def Kept (x : Token × Bool) (t : Token) : Prop :=
  t = x.1 ∨ (x.1.kind = .symbol .colon ∧ x.2 = true ∧ ∃ span, t = marker .indent span)

/-- The last of the tokens that is no trivia is a colon, and these come after it. -/
def ColonBefore (before gap : List Token) : Prop :=
  ∃ rest colon, before = rest ++ colon :: gap ∧ colon.kind = .symbol .colon ∧
    ∀ t ∈ gap, t.kind.isTrivia

/-- The last of the tokens that is no trivia is a colon, and the last such token of its line. -/
def FollowsOpener (before : List Token) : Prop :=
  ∃ gap, ColonBefore before gap ∧ endsLine gap

/-! ### Erasing layout tokens -/

section

variable {tail : Tail} {raw out : List Token}

theorem Marks.erase (h : Marks tail raw out) (hraw : ∀ t ∈ raw, t.kind.isLayout = false) :
    out.filter (!·.kind.isLayout) = raw := by
  induction h with
  | nil => rfl
  | token h ih =>
    rw [List.filter_cons_of_pos (by simp [hraw _ List.mem_cons_self]),
      ih fun t ht => hraw t (List.mem_cons_of_mem _ ht)]
  | indent h ih | dedent h ih =>
    rw [List.filter_cons_of_neg (by simp [marker, Kind.isLayout]), ih hraw]

/-! ### Before an indent -/

/-- What a tail says of the tokens. -/
def Tail.Describes : Tail → List Token → Prop
  | .colon, before => ∃ gap, ColonBefore before gap
  | .opener, before => FollowsOpener before
  | .other, _ => True

theorem endsLine_append {gap : List Token} (h : endsLine gap) (rest : List Token) :
    endsLine (gap ++ rest) := by
  induction gap with
  | nil => cases h
  | cons t gap ih =>
    simp only [endsLine, Bool.or_eq_true, Bool.and_eq_true, List.cons_append] at h ⊢
    exact h.imp_right fun ⟨ht, hgap⟩ => ⟨ht, ih hgap⟩

theorem endsLine_newline {gap : List Token} {t : Token} (hgap : ∀ t ∈ gap, t.kind.isTrivia)
    (ht : t.kind = .newline) : endsLine (gap ++ [t]) := by
  induction gap with
  | nil => simp [endsLine, ht]
  | cons u gap ih =>
    have hrest := ih fun v hv => hgap v (List.mem_cons_of_mem _ hv)
    simp only [List.cons_append, endsLine, hgap u List.mem_cons_self, hrest, Bool.and_self,
      Bool.or_true]

theorem ColonBefore.trivia {before gap : List Token} (h : ColonBefore before gap) {t : Token}
    (ht : t.kind.isTrivia) : ColonBefore (before ++ [t]) (gap ++ [t]) := by
  obtain ⟨rest, colon, rfl, hcolon, hgap⟩ := h
  refine ⟨rest, colon, by simp, hcolon, fun u hu => ?_⟩
  rcases List.mem_append.1 hu with hu | hu
  · exact hgap u hu
  · rwa [List.mem_singleton.1 hu]

theorem Tail.Describes.trivia {before : List Token} (h : tail.Describes before) {t : Token}
    (ht : t.kind.isTrivia) : tail.Describes (before ++ [t]) := by
  cases tail with
  | other => trivial
  | colon =>
    obtain ⟨gap, hcolon⟩ := h
    exact ⟨gap ++ [t], hcolon.trivia ht⟩
  | opener =>
    obtain ⟨gap, hcolon, hline⟩ := h
    exact ⟨gap ++ [t], hcolon.trivia ht, endsLine_append hline [t]⟩

theorem Tail.Describes.next {before : List Token} (h : tail.Describes before) (t : Token) :
    (tail.next t).Describes (before ++ [t]) := by
  unfold Tail.next
  split <;> rename_i ht
  · have htrivia : t.kind.isTrivia := by rw [ht]; rfl
    cases tail with
    | other => trivial
    | opener => exact h.trivia htrivia
    | colon =>
      obtain ⟨gap, hcolon⟩ := h
      have ⟨_, _, _, _, hgap⟩ := hcolon
      exact ⟨gap ++ [t], hcolon.trivia htrivia, endsLine_newline hgap ht⟩
  · exact h.trivia (by rw [ht]; rfl)
  · exact h.trivia (by rw [ht]; rfl)
  · exact ⟨[], before, t, rfl, ht, nofun⟩
  · trivial

theorem Marks.followsOpener (h : Marks tail raw out) (hraw : ∀ t ∈ raw, t.kind.isLayout = false)
    {before : List Token} (hbefore : tail.Describes before) {pre post : List Token} {i : Token}
    (hout : out = pre ++ i :: post) (hi : i.kind = .indent) : FollowsOpener (before ++ pre) := by
  -- `before` is what has been put out already, and `tail` all that is remembered of it
  induction h generalizing before pre with
  | nil => simp at hout
  | @token tail t raw out h ih =>
    cases pre with
    | nil =>
      cases hout
      have := hraw i List.mem_cons_self
      rw [hi] at this
      cases this
    | cons u pre =>
      cases hout
      have := ih (fun t ht => hraw t (List.mem_cons_of_mem _ ht)) (hbefore.next t) rfl
      rwa [List.append_assoc] at this
  | @indent span raw out h ih =>
    cases pre with
    | nil =>
      rw [List.append_nil]
      exact hbefore
    | cons u pre =>
      cases hout
      have hother : Tail.other.Describes (before ++ [marker .indent span]) := trivial
      have := ih hraw hother rfl
      rwa [List.append_assoc] at this
  | @dedent tail span raw out h ih =>
    cases pre with
    | nil =>
      cases hout
      cases hi
    | cons u pre =>
      cases hout
      have hother : Tail.other.Describes (before ++ [marker .dedent span]) := trivial
      have := ih hraw hother rfl
      rwa [List.append_assoc] at this

/-! ### Indents for colons -/

/-- The tokens that are no trivia. -/
def visible (tokens : List Token) : List Token :=
  tokens.filter (!·.kind.isTrivia)

/-- The tokens without the dedents. -/
def withoutDedents (tokens : List Token) : List Token :=
  tokens.filter (·.kind ≠ .dedent)

/-- The tokens without an indent at the head. -/
def afterIndent : List Token → List Token
  | [] => []
  | t :: rest => if t.kind = .indent then rest else t :: rest

/-- After what the tail says, a line that ends in a colon has ended or is about to. -/
def Tail.Opens (tail : Tail) (raw : List Token) : Prop :=
  tail = .opener ∨ (tail = .colon ∧ endsLine raw)

theorem Tail.Opens.of_next {t : Token} (h : (tail.next t).Opens raw) (ht : t.kind.isTrivia) :
    tail.Opens (t :: raw) := by
  have hraw : endsLine raw → endsLine (t :: raw) := fun hline => by simp [endsLine, ht, hline]
  unfold Tail.next at h
  split at h <;> rename_i hk
  · cases tail with
    | opener => exact .inl rfl
    | colon => exact .inr ⟨rfl, by simp [endsLine, hk]⟩
    | other => exact (h.elim nofun fun h => nomatch h.1)
  · exact h.imp_right (And.imp_right hraw)
  · exact h.imp_right (And.imp_right hraw)
  · simp [hk, Kind.isTrivia] at ht
  · exact h.elim nofun fun h => nomatch h.1

/-- Where an indent comes first, it opens a block. -/
theorem Marks.opens (h : Marks tail raw out) (hraw : ∀ t ∈ raw, t.kind.isLayout = false) {i : Token}
    {rest : List Token} (hout : visible out = i :: rest) (hi : i.kind = .indent) :
    tail.Opens raw ∧ ∃ span, i = marker .indent span := by
  induction h with
  | nil => cases hout
  | @token tail t raw out h ih =>
    by_cases ht : t.kind.isTrivia
    · rw [visible, List.filter_cons_of_neg (by simp [ht])] at hout
      obtain ⟨hopens, hspan⟩ := ih (fun t ht => hraw t (List.mem_cons_of_mem _ ht)) hout
      exact ⟨hopens.of_next ht, hspan⟩
    · rw [visible, List.filter_cons_of_pos (by simp [ht])] at hout
      cases hout
      have := hraw i List.mem_cons_self
      rw [hi] at this
      cases this
  | indent h ih =>
    cases hout
    exact ⟨.inl rfl, _, rfl⟩
  | dedent h ih =>
    cases hout
    cases hi

theorem Marks.afterIndent_visible (h : Marks .other raw out)
    (hraw : ∀ t ∈ raw, t.kind.isLayout = false) : afterIndent (visible out) = visible out := by
  cases hout : visible out with
  | nil => rfl
  | cons i rest =>
    by_cases hi : i.kind = .indent
    · obtain ⟨hopens, -⟩ := h.opens hraw hout hi
      exact hopens.elim nofun fun h => nomatch h.1
    · rw [afterIndent, if_neg hi]

theorem Tail.next_other {t : Token} (ht : t.kind.isTrivia = false) (hcolon : t.kind ≠ .symbol .colon) :
    tail.next t = .other := by
  unfold Tail.next
  split <;> rename_i hk
  · simp [hk, Kind.isTrivia] at ht
  · simp [hk, Kind.isTrivia] at ht
  · simp [hk, Kind.isTrivia] at ht
  · exact absurd hk hcolon
  · rfl

theorem withoutDedents_cons {t : Token} (ht : t.kind ≠ .dedent) (rest : List Token) :
    withoutDedents (t :: rest) = t :: withoutDedents rest :=
  List.filter_cons_of_pos (by simp [ht])

/-- A token that is no trivia is dropped only if it is a colon at the end of its line, and there is an
indent in its place. -/
theorem Marks.kept_token {t : Token} (h : Marks (tail.next t) raw out)
    (hraw : ∀ t ∈ raw, t.kind.isLayout = false) (ht : t.kind.isTrivia = false)
    (hlayout : t.kind.isLayout = false)
    (hkept : List.Forall₂ Kept (significant raw)
      (withoutDedents (dropOpeners (afterIndent (visible out))))) :
    List.Forall₂ Kept ((t, endsLine raw) :: significant raw)
      (withoutDedents (dropOpeners (t :: visible out))) := by
  have hdedent : t.kind ≠ .dedent := by
    intro hk
    rw [hk] at hlayout
    cases hlayout
  -- a colon is dropped for the indent that it opens, and for nothing else
  by_cases hopens : t.kind = .symbol .colon ∧ (visible out).head?.map (·.kind) = some .indent
  · rw [dropOpeners, if_pos hopens]
    obtain ⟨hcolon, hhead⟩ := hopens
    cases hout : visible out with
    | nil => simp [hout] at hhead
    | cons i rest =>
      have hi : i.kind = .indent := by simpa [hout] using hhead
      obtain ⟨hopens, span, rfl⟩ := h.opens hraw hout hi
      have hline : endsLine raw := by
        have hnext : tail.next t = .colon := by simp [Tail.next, hcolon]
        rw [hnext] at hopens
        rcases hopens with hopens | hopens
        · cases hopens
        · exact hopens.2
      rw [hout, afterIndent, if_pos hi] at hkept
      rw [dropOpeners, if_neg (by simp [hi]), withoutDedents_cons (by simp [hi])]
      exact .cons (.inr ⟨hcolon, hline, span, rfl⟩) hkept
  · rw [dropOpeners, if_neg hopens, withoutDedents_cons hdedent]
    refine .cons (.inl rfl) ?_
    have hout : afterIndent (visible out) = visible out := by
      by_cases hcolon : t.kind = .symbol .colon
      · cases hout : visible out with
        | nil => rfl
        | cons i rest =>
          rw [afterIndent, if_neg]
          intro hi
          exact hopens ⟨hcolon, by simp [hout, hi]⟩
      · rw [Tail.next_other ht hcolon] at h
        exact h.afterIndent_visible hraw
    rwa [hout] at hkept

/-- What the grammar sees of marked tokens, without the dedents and without an indent for a colon that
has come before. -/
theorem Marks.kept (h : Marks tail raw out) (hraw : ∀ t ∈ raw, t.kind.isLayout = false) :
    List.Forall₂ Kept (significant raw)
      (withoutDedents (dropOpeners (afterIndent (visible out)))) := by
  induction h with
  | nil => exact .nil
  | @token tail t raw out h ih =>
    have hrest : ∀ t ∈ raw, t.kind.isLayout = false := fun t ht => hraw t (List.mem_cons_of_mem _ ht)
    have hlayout := hraw t List.mem_cons_self
    cases ht : t.kind.isTrivia with
    | true =>
      rw [visible, List.filter_cons_of_neg (by simp [ht]), significant, if_pos ht]
      exact ih hrest
    | false =>
      have hindent : t.kind ≠ .indent := by
        intro hk
        rw [hk] at hlayout
        cases hlayout
      rw [visible, List.filter_cons_of_pos (by simp [ht]), significant, if_neg (by simp [ht]),
        afterIndent, if_neg hindent]
      exact h.kept_token hrest ht hlayout (ih hrest)
  | @indent span raw out h ih =>
    have hkept := ih hraw
    rwa [h.afterIndent_visible hraw] at hkept
  | @dedent tail span raw out h ih =>
    have hkept := ih hraw
    rwa [h.afterIndent_visible hraw] at hkept

end

/-! ### Tokens of a source -/

theorem endsOnce_append {body : List Token} (h : ∀ t ∈ body, t.kind ≠ .endOfFile) (t : Token) :
    EndsOnce (body ++ [t]) := by
  induction body with
  | nil => exact ⟨fun _ => rfl, trivial⟩
  | cons u body ih =>
    exact ⟨fun hu => absurd hu (h u List.mem_cons_self),
      ih fun v hv => h v (List.mem_cons_of_mem _ hv)⟩

theorem scan_unmarked {kinds : List Kind} {source : String} {raw : List Token}
    (h : Token.scan kinds source = .ok raw) :
    EndsOnce raw ∧ ∀ t ∈ raw, t.kind.isLayout = false := by
  obtain ⟨body, loc, rfl, hcut⟩ := Token.scan_eq_ok h
  refine ⟨endsOnce_append (fun t ht => (hcut t ht).written.2.2) _, fun t ht => ?_⟩
  rcases List.mem_append.1 ht with ht | ht
  · obtain ⟨hindent, hdedent, -⟩ := (hcut t ht).written
    unfold Kind.isLayout
    split
    · exact absurd ‹_› hindent
    · exact absurd ‹_› hdedent
    · rfl
  · rw [List.mem_singleton.1 ht]
    rfl

/-- Marking the tokens of a source loses and invents nothing. Without the layout tokens the list is
what it was; every indent comes after a colon that ends its line; and the grammar sees, dedents aside,
the tokens that are no trivia, with indents in the place of some of these colons. -/
theorem mark_faithful {kinds : List Kind} {source : String} {raw out : List Token}
    (hraw : Token.scan kinds source = .ok raw) (hout : mark {} raw = .ok out) :
    out.filter (!·.kind.isLayout) = raw ∧
    (∀ before i after, out = before ++ i :: after → i.kind = .indent → FollowsOpener before) ∧
    List.Forall₂ Kept (significant raw) ((tidy out).filter (·.kind ≠ .dedent)) := by
  obtain ⟨hends, hlayout⟩ := scan_unmarked hraw
  have hmarks : Marks .other raw out := mark_marks (State.agrees_of_none rfl rfl _) hends hout
  refine ⟨hmarks.erase hlayout, fun before i after heq hi => ?_, ?_⟩
  · have hother : Tail.other.Describes [] := trivial
    exact hmarks.followsOpener hlayout hother heq hi
  · have hkept := hmarks.kept hlayout
    rwa [hmarks.afterIndent_visible hlayout] at hkept

/-- Blocks inside one another, with comments and lines without text after the colons. -/
def nestedBlocks : String :=
  "if a: // yes\n\n  // still\n\tb\n\tif c:\n\t\td\ne\n  f:g"

theorem nestedBlocks_faithful :
    ∃ raw out, Token.scan Kind.written nestedBlocks = .ok raw ∧ mark {} raw = .ok out ∧
      (∃ t ∈ out, t.kind = .indent) ∧ (∃ t ∈ tidy out, t.kind = .symbol .colon) ∧
      out.filter (!·.kind.isLayout) = raw ∧
      (∀ before i after, out = before ++ i :: after → i.kind = .indent → FollowsOpener before) ∧
      List.Forall₂ Kept (significant raw) ((tidy out).filter (·.kind ≠ .dedent)) := by
  have hrun : (Token.scan Kind.written nestedBlocks).toOption.any (fun raw =>
      (mark {} raw).toOption.any fun out =>
        decide ((∃ t ∈ out, t.kind = .indent) ∧ ∃ t ∈ tidy out, t.kind = .symbol .colon)) = true := by
    decide +kernel
  obtain ⟨raw, hraw, hrun⟩ := exists_of_toOption_any hrun
  obtain ⟨out, hout, hrun⟩ := exists_of_toOption_any hrun
  obtain ⟨hindent, hcolon⟩ := of_decide_eq_true hrun
  exact ⟨raw, out, hraw, hout, hindent, hcolon, mark_faithful hraw hout⟩

end Layout

end Sable
