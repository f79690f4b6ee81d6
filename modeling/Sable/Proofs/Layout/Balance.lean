import Mathlib.Logic.Relation
import Sable.Proofs.Layout.Erasure

/-!
# Layout tokens are balanced

`Step` is one step of the pass from a `Stage` to another. Every step keeps `Stage.Sound`: the widths on
the stack decrease outwards to zero, and its levels that are not silent are as many as the open blocks
among the tokens emitted (`nest`). The end of the file closes all of them.
-/

namespace Sable

namespace Layout

/-! ### The pass in steps -/

/-- The levels with the outermost one, at width zero, that is never left. -/
def stack (levels : List Level) : List Level :=
  levels ++ [⟨0, false⟩]

/-- The state once the depth of a line has been dealt with. -/
def State.entered (s : State) (columns : Nat) (levels : List Level) : State :=
  { s with levels, fresh := false, opener := none, lineWidth := columns }

/-- A point in the pass: the tokens emitted, what is known, and the tokens to come. -/
structure Stage where
  emitted : List Token
  state : State
  rest : List Token

/-- One step of the pass. The depth of a line is compared with the levels before its first token
(`enter`), and the token is passed on in a step of its own (`pass`). Blanks in front of it are
emitted in the same step as the layout tokens (`indented`). -/
inductive Step : Stage → Stage → Prop
  | pass {out : List Token} {s : State} {t : Token} {rest : List Token}
      (h : s.fresh = false ∨ lineHead (t :: rest) = none) :
      Step ⟨out, s, t :: rest⟩ ⟨out ++ (s.pass t).1, (s.pass t).2, rest⟩
  | enter {out markers : List Token} {s : State} {t first : Token} {rest : List Token}
      {levels : List Level} (hfresh : s.fresh = true) (hhead : lineHead (t :: rest) = some first)
      (ht : t.kind ≠ .space)
      (h : enter s.levels (leading (t :: rest)) s.opener first.span = .ok (markers, levels)) :
      Step ⟨out, s, t :: rest⟩ ⟨out ++ markers, s.entered (leading (t :: rest)) levels, t :: rest⟩
  | indented {out markers : List Token} {s : State} {t first : Token} {rest : List Token}
      {levels : List Level} (hfresh : s.fresh = true) (hhead : lineHead (t :: rest) = some first)
      (ht : t.kind = .space)
      (h : enter s.levels (leading (t :: rest)) s.opener first.span = .ok (markers, levels)) :
      Step ⟨out, s, t :: rest⟩ ⟨out ++ t :: markers, s.entered (leading (t :: rest)) levels, rest⟩

/-- The pass over `raw` comes to this stage. -/
def Reaches (raw : List Token) (stage : Stage) : Prop :=
  Relation.ReflTransGen Step ⟨[], {}, raw⟩ stage

/-- The tokens emitted by then, followed by what `mark` gives for the tokens to come. -/
def Stage.answer (stage : Stage) : Except LexError (List Token) :=
  (mark stage.state stage.rest).map (stage.emitted ++ ·)

section

variable {s : State} {t : Token} {raw out rest : List Token} {a b : Stage}

theorem map_append (x : Except LexError (List Token)) (xs ys : List Token) :
    (x.map (ys ++ ·)).map (xs ++ ·) = x.map ((xs ++ ys) ++ ·) := by
  cases x with
  | error e => rfl
  | ok zs => simp [Except.map, List.append_assoc]

/-- Passing a token on does not depend on whether it is the first of its line. -/
theorem State.pass_entered (s : State) (columns : Nat) (levels : List Level) (t : Token) :
    (s.entered columns levels).pass t =
      ({ s with levels, lineWidth := columns, opener := none } : State).pass t := by
  unfold State.pass State.entered
  cases t.kind <;> rfl

theorem mark_of_pass (h : s.fresh = false ∨ lineHead (t :: rest) = none) :
    mark s (t :: rest) = (mark (s.pass t).2 rest).map ((s.pass t).1 ++ ·) := by
  have hnone : (if s.fresh then lineHead (t :: rest) else none) = none := by
    rcases h with h | h
    · rw [h]
      rfl
    · rw [h, ite_self]
  rw [mark, hnone]

/-- No step changes what comes out at the end. -/
theorem Step.answer_eq (h : Step a b) : a.answer = b.answer := by
  cases h with
  | pass h =>
    simp only [Stage.answer]
    rw [mark_of_pass h, map_append]
  | @enter out markers s t first rest levels hfresh hhead ht h =>
    have hpass : (s.entered (leading (t :: rest)) levels).fresh = false ∨
        lineHead (t :: rest) = none := .inl rfl
    simp only [Stage.answer]
    rw [mark_of_pass hpass, State.pass_entered, mark, hfresh, if_pos rfl, hhead]
    simp only [h, if_neg ht]
    rw [map_append, map_append, List.append_assoc]
  | @indented out markers s t first rest levels hfresh hhead ht h =>
    simp only [Stage.answer]
    rw [mark, hfresh, if_pos rfl, hhead]
    simp only [h, if_pos ht]
    exact map_append _ _ _

theorem Reaches.answer_eq (h : Reaches raw a) : a.answer = mark {} raw := by
  have hstart : (⟨[], {}, raw⟩ : Stage).answer = mark {} raw := by
    simp only [Stage.answer]
    cases mark {} raw <;> rfl
  rw [← hstart]
  induction h with
  | refl => rfl
  | tail _ hstep ih => rw [← hstep.answer_eq, ih]

/-- Where the pass succeeds it can go on. -/
theorem exists_step (h : mark s (t :: rest) = .ok out) (emitted : List Token) :
    ∃ b, Step ⟨emitted, s, t :: rest⟩ b := by
  by_cases hpass : s.fresh = false ∨ lineHead (t :: rest) = none
  · exact ⟨_, .pass hpass⟩
  · obtain ⟨hfresh, hhead⟩ := not_or.1 hpass
    have hfresh : s.fresh = true := by simpa using hfresh
    obtain ⟨first, hfirst⟩ := Option.ne_none_iff_exists'.1 hhead
    rw [mark, hfresh, if_pos rfl, hfirst] at h
    dsimp only at h
    cases he : enter s.levels (leading (t :: rest)) s.opener first.span with
    | error e =>
      rw [he] at h
      cases h
    | ok x =>
      by_cases ht : t.kind = .space
      · exact ⟨_, .indented hfresh hfirst ht he⟩
      · exact ⟨_, .enter hfresh hfirst ht he⟩

/-- The tokens to come, and once more the first of them while the depth of its line is open. -/
def Stage.measure (stage : Stage) : Nat :=
  2 * stage.rest.length + if stage.state.fresh then 1 else 0

theorem Step.measure_lt (h : Step a b) : b.measure < a.measure := by
  cases h with
  | @pass out s t rest h =>
    have hbit : (if (s.pass t).2.fresh then 1 else 0) ≤ 1 := by split <;> omega
    simp only [Stage.measure, List.length_cons]
    omega
  | enter hfresh hhead ht h => simp [Stage.measure, State.entered, hfresh]
  | indented hfresh hhead ht h =>
    simp only [Stage.measure, State.entered, List.length_cons, Bool.false_eq_true, if_false]
    omega

/-- From every stage a pass that succeeds comes to its end, with everything that comes out emitted. -/
theorem Reaches.to_end (h : mark {} raw = .ok out) :
    ∀ a : Stage, Reaches raw a → ∃ s, Reaches raw ⟨out, s, []⟩
  | ⟨emitted, s, []⟩, ha => by
    have hout := ha.answer_eq.trans h
    simp only [Stage.answer, mark, Except.map, List.append_nil, Except.ok.injEq] at hout
    exact ⟨s, hout ▸ ha⟩
  | ⟨emitted, s, t :: rest⟩, ha => by
    obtain ⟨out', hmark, -⟩ := ok_of_map (ha.answer_eq.trans h)
    obtain ⟨b, hb⟩ := exists_step hmark emitted
    have hlt := hb.measure_lt
    exact Reaches.to_end h b (ha.tail hb)
termination_by a => a.measure

end

/-! ### Counting -/

/-- The indents in a list of tokens. -/
def indents (tokens : List Token) : Nat :=
  tokens.countP (·.kind = .indent)

/-- The dedents in a list of tokens. -/
def dedents (tokens : List Token) : Nat :=
  tokens.countP (·.kind = .dedent)

/-- The levels that some indent has opened. -/
def opened (levels : List Level) : Nat :=
  levels.countP (!·.silent)

/-- The number of open blocks after the tokens, if none is closed that has not been opened. -/
def nest : Nat → List Token → Option Nat
  | depth, [] => some depth
  | depth, t :: rest =>
    match t.kind with
    | .indent => nest (depth + 1) rest
    | .dedent =>
      match depth with
      | 0 => none
      | depth + 1 => nest depth rest
    | _ => nest depth rest

section

variable {t : Token} {xs ys tokens : List Token} {d e : Nat}

theorem nest_append (d : Nat) (xs ys : List Token) :
    nest d (xs ++ ys) = (nest d xs).bind (nest · ys) := by
  induction xs generalizing d with
  | nil => rfl
  | cons t xs ih =>
    simp only [List.cons_append, nest]
    split
    · exact ih _
    · split
      · rfl
      · exact ih _
    · exact ih _

theorem nest_token (h : t.kind.isLayout = false) (d : Nat) (rest : List Token) :
    nest d (t :: rest) = nest d rest := by
  unfold Kind.isLayout at h
  simp only [nest]
  split <;> simp_all

/-- Where a nesting succeeds, what is open at the end makes up the difference. -/
theorem nest_counts (h : nest d tokens = some e) : dedents tokens + e = indents tokens + d := by
  induction tokens generalizing d with
  | nil =>
    cases h
    simp [dedents, indents]
  | cons t rest ih =>
    unfold dedents indents at ih ⊢
    simp only [List.countP_cons]
    simp only [nest] at h
    split at h
    · rename_i hk
      have := ih h
      simp only [hk, decide_true, reduceCtorEq, decide_false, if_true, Bool.false_eq_true, if_false]
      omega
    · rename_i hk
      split at h
      · cases h
      · have := ih h
        simp only [hk, decide_true, reduceCtorEq, decide_false, if_true, Bool.false_eq_true,
          if_false]
        omega
    · rename_i hi hd
      have := ih h
      rw [if_neg (by simpa using hd), if_neg (by simpa using hi)]
      omega

theorem nest_prefix (h : nest 0 tokens = some e) {front : List Token} (hf : front <+: tokens) :
    dedents front ≤ indents front := by
  obtain ⟨rest, rfl⟩ := hf
  rw [nest_append] at h
  obtain ⟨d, hd, -⟩ := Option.bind_eq_some_iff.1 h
  have := nest_counts hd
  omega

/-- A dedent for every level that is left, but for the silent ones. -/
theorem nest_closing (left kept : List Level) (span : Span) :
    nest (opened (left ++ kept)) (closing left span) = some (opened kept) := by
  induction left with
  | nil => rfl
  | cons level left ih =>
    unfold closing opened at ih ⊢
    cases hs : level.silent with
    | true =>
      rw [List.filter_cons_of_neg (by simp [hs]), List.cons_append,
        List.countP_cons_of_neg (by simp [hs])]
      exact ih
    | false =>
      rw [List.filter_cons_of_pos (by simp [hs]), List.cons_append,
        List.countP_cons_of_pos (by simp [hs])]
      exact ih

end

/-! ### What every step keeps -/

/-- What holds at every stage: the widths on the stack decrease outwards down to zero, and its levels
that are not silent are the blocks still open. -/
structure Stage.Sound (stage : Stage) : Prop where
  widths : (stack stage.state.levels).Pairwise fun inner outer => outer.width < inner.width
  nested : nest 0 stage.emitted = some (opened stage.state.levels)

section

variable {levels levels' : List Level} {width : Nat} {opener : Option Nat} {span : Span}
  {markers raw out : List Token} {a b : Stage}

/-- No level is deeper than the innermost one. -/
theorem width_le_top (h : (stack levels).Pairwise fun inner outer => outer.width < inner.width)
    {level : Level} (hl : level ∈ stack levels) : level.width ≤ top levels := by
  cases levels with
  | nil =>
    rw [List.mem_singleton.1 hl]
    exact le_rfl
  | cons first rest =>
    rcases List.mem_cons.1 hl with rfl | hl
    · exact le_rfl
    · exact le_of_lt ((List.pairwise_cons.1 h).1 level hl)

theorem stack_push (level : Level)
    (h : (stack levels).Pairwise fun inner outer => outer.width < inner.width)
    (hl : top levels < level.width) :
    (stack (level :: levels)).Pairwise fun inner outer => outer.width < inner.width := by
  refine List.pairwise_cons.2 ⟨fun outer ho => ?_, h⟩
  have := width_le_top h ho
  omega

/-- What the first token of a line does to the levels. -/
theorem enter_sound (he : enter levels width opener span = .ok (markers, levels'))
    (h : (stack levels).Pairwise fun inner outer => outer.width < inner.width) :
    ((stack levels').Pairwise fun inner outer => outer.width < inner.width) ∧
      nest (opened levels) markers = some (opened levels') := by
  unfold enter at he
  by_cases hdeep : top levels < width
  · rw [if_pos hdeep] at he
    cases opener with
    | none =>
      cases he
      exact ⟨h, rfl⟩
    | some outer =>
      cases he
      by_cases hsilent : top levels < outer ∧ outer < width
      · -- two levels for one indent: the outer one is silent and is left without a dedent
        rw [if_pos hsilent]
        have hbelow := stack_push ⟨outer, true⟩ h hsilent.1
        refine ⟨stack_push ⟨width, false⟩ hbelow hsilent.2, ?_⟩
        simp [nest, marker, opened]
      · rw [if_neg hsilent]
        refine ⟨stack_push ⟨width, false⟩ h hdeep, ?_⟩
        simp [nest, marker, opened]
  · rw [if_neg hdeep] at he
    dsimp only at he
    split at he
    · cases he
      have hsplit := List.takeWhile_append_dropWhile (p := (width < ·.width)) (l := levels)
      constructor
      · refine h.sublist ?_
        exact (List.dropWhile_sublist _).append (List.Sublist.refl _)
      · have hclose := nest_closing (levels.takeWhile (width < ·.width))
          (levels.dropWhile (width < ·.width)) span
        rwa [hsplit] at hclose
    · cases he

/-- What passing a token on does to the levels. -/
theorem State.pass_sound (s : State) {t : Token} (ht : t.kind.isLayout = false)
    (h : (stack s.levels).Pairwise fun inner outer => outer.width < inner.width) :
    ((stack (s.pass t).2.levels).Pairwise fun inner outer => outer.width < inner.width) ∧
      nest (opened s.levels) (s.pass t).1 = some (opened (s.pass t).2.levels) := by
  by_cases hend : t.kind = .endOfFile
  · have hpass : s.pass t = (closing s.levels t.span ++ [t], { s with fresh := false, levels := [] }) := by
      simp [State.pass, hend]
    have hclose := nest_closing s.levels [] t.span
    rw [List.append_nil] at hclose
    rw [hpass]
    refine ⟨List.pairwise_singleton _ _, ?_⟩
    rw [nest_append, hclose, Option.bind_some, nest_token ht]
    rfl
  · have hpass : (s.pass t).1 = [t] ∧ (s.pass t).2.levels = s.levels := by
      unfold State.pass
      split
      · exact ⟨rfl, rfl⟩
      · exact absurd ‹_› hend
      all_goals exact ⟨rfl, rfl⟩
    rw [hpass.1, hpass.2, nest_token ht]
    exact ⟨h, rfl⟩

theorem Step.sound (h : Step a b) (ha : a.Sound) (hraw : ∀ t ∈ a.rest, t.kind.isLayout = false) :
    b.Sound := by
  obtain ⟨hwidths, hnested⟩ := ha
  cases h with
  | @pass out s t rest h =>
    obtain ⟨hw, hn⟩ := s.pass_sound (hraw t List.mem_cons_self) hwidths
    refine ⟨hw, ?_⟩
    simp only [nest_append] at hnested ⊢
    rw [hnested, Option.bind_some, hn]
  | @enter out markers s t first rest levels hfresh hhead ht h =>
    obtain ⟨hw, hn⟩ := enter_sound h hwidths
    refine ⟨hw, ?_⟩
    simp only [nest_append] at hnested ⊢
    rw [hnested, Option.bind_some, hn]
    rfl
  | @indented out markers s t first rest levels hfresh hhead ht h =>
    obtain ⟨hw, hn⟩ := enter_sound h hwidths
    refine ⟨hw, ?_⟩
    simp only [nest_append] at hnested ⊢
    rw [hnested, Option.bind_some, nest_token (hraw t List.mem_cons_self), hn]
    rfl

theorem Step.rest_suffix (h : Step a b) : b.rest <:+ a.rest := by
  cases h with
  | pass h => exact List.suffix_cons _ _
  | enter hfresh hhead ht h => exact List.suffix_refl _
  | indented hfresh hhead ht h => exact List.suffix_cons _ _

theorem Reaches.rest_suffix (h : Reaches raw a) : a.rest <:+ raw := by
  induction h with
  | refl => exact List.suffix_refl _
  | tail _ hstep ih => exact hstep.rest_suffix.trans ih

theorem Reaches.sound (h : Reaches raw a) (hraw : ∀ t ∈ raw, t.kind.isLayout = false) : a.Sound := by
  induction h with
  | refl => exact ⟨List.pairwise_singleton _ _, rfl⟩
  | tail hrun hstep ih =>
    refine hstep.sound ih fun t ht => ?_
    exact hraw t ((Reaches.rest_suffix hrun).subset ht)

/-- What has been emitted at a stage stays in front of what comes out. -/
theorem Reaches.emitted_prefix (h : Reaches raw a) (hout : mark {} raw = .ok out) :
    a.emitted <+: out := by
  obtain ⟨rest, -, hrest⟩ := ok_of_map (h.answer_eq.trans hout)
  exact ⟨rest, hrest⟩

/-- The end of the file comes out last, with every level closed. -/
theorem Reaches.closed {eof : Token} {s : State} (h : Reaches (raw ++ [eof]) ⟨out, s, []⟩)
    (heof : eof.kind = .endOfFile) : (∃ front, out = front ++ [eof]) ∧ s.levels = [] := by
  rcases Relation.ReflTransGen.cases_tail h with hstart | ⟨b, hb, hstep⟩
  · simp [Stage.mk.injEq] at hstart
  · have hsuffix := Reaches.rest_suffix hb
    cases hstep with
    | @pass emitted s t rest hpass =>
      obtain rfl : t = eof := by
        obtain ⟨before, hbefore⟩ := hsuffix
        have := List.append_inj_right' hbefore rfl
        simpa using this
      simp only [State.pass, heof]
      exact ⟨⟨emitted ++ closing s.levels t.span, by rw [List.append_assoc]⟩, trivial⟩
    | @indented emitted markers s t first rest levels hfresh hhead ht henter =>
      simp [lineHead, ht] at hhead

/-- The layout tokens of a marked list are balanced. No dedent comes before the indent that it closes,
every indent is closed, and the end of the file is still the last token. At every stage of the pass
the widths on the stack increase from zero, and its levels that are not silent are as many as indents
have been emitted more than dedents. -/
theorem mark_balanced {eof : Token} (heof : eof.kind = .endOfFile)
    (hraw : ∀ t ∈ raw, t.kind.isLayout = false) (h : mark {} (raw ++ [eof]) = .ok out) :
    (∀ front, front <+: out → dedents front ≤ indents front) ∧
    dedents out = indents out ∧
    (∃ front, out = front ++ [eof]) ∧
    (∃ s, Reaches (raw ++ [eof]) ⟨out, s, []⟩) ∧
    ∀ stage, Reaches (raw ++ [eof]) stage → stage.emitted <+: out ∧
      ((stack stage.state.levels).Pairwise fun inner outer => outer.width < inner.width) ∧
      dedents stage.emitted + opened stage.state.levels = indents stage.emitted := by
  have hlayout : ∀ t ∈ raw ++ [eof], t.kind.isLayout = false := by
    intro t ht
    rcases List.mem_append.1 ht with ht | ht
    · exact hraw t ht
    · rw [List.mem_singleton.1 ht, heof]
      rfl
  obtain ⟨s, hend⟩ := Reaches.to_end h _ .refl
  obtain ⟨hlast, hlevels⟩ := hend.closed heof
  have hnested := (hend.sound hlayout).nested
  simp only [hlevels] at hnested
  have hcounts := nest_counts hnested
  refine ⟨fun front hfront => nest_prefix hnested hfront, hcounts, hlast, ⟨s, hend⟩, ?_⟩
  intro stage hstage
  obtain ⟨hwidths, hopen⟩ := hstage.sound hlayout
  exact ⟨hstage.emitted_prefix h, hwidths, nest_counts hopen⟩

/-- A block opened from a depth that no colon asked for, with another inside, and both closed by one
line. -/
def silentDepth : String :=
  "f \x7b\n  if a:\n    if b:\n\n      // c\n      d\n  e\n\x7d\nif g:\n  h"

theorem silentDepth_balanced :
    ∃ raw eof out, Token.scan Kind.written silentDepth = .ok (raw ++ [eof]) ∧
      eof.kind = .endOfFile ∧ (∀ t ∈ raw, t.kind.isLayout = false) ∧
      mark {} (raw ++ [eof]) = .ok out ∧ indents out = 3 ∧ dedents out = indents out ∧
      (∀ front, front <+: out → dedents front ≤ indents front) ∧
      (∃ front, out = front ++ [eof]) := by
  have hrun : (Token.scan Kind.written silentDepth).toOption.any (fun raw =>
      (mark {} raw).toOption.any fun out => decide (indents out = 3)) = true := by decide +kernel
  obtain ⟨tokens, hscan, hrun⟩ := exists_of_toOption_any hrun
  obtain ⟨out, hout, hthree⟩ := exists_of_toOption_any hrun
  obtain ⟨raw, loc, rfl, -⟩ := Token.scan_eq_ok hscan
  obtain ⟨-, hlayout⟩ := scan_unmarked hscan
  have hraw : ∀ t ∈ raw, t.kind.isLayout = false := fun t ht =>
    hlayout t (List.mem_append_left _ ht)
  obtain ⟨hfronts, htotal, hlast, -⟩ := mark_balanced rfl hraw hout
  exact ⟨raw, _, out, hscan, rfl, hraw, hout, of_decide_eq_true hthree, htotal, hfronts, hlast⟩

end

end Layout

end Sable
