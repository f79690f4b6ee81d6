import Mathlib.Data.List.Chain
import Sable.Proofs.Printing.Spelling

/-!
# Layout does not depend on trivia

`Layout.mark` depends on the kinds of tokens and the widths of blanks only (`recastAll`). Lists that
differ as `Pads` says, by a line without text or by blanks and comments at the end of a line, have the
same `reading`. With `OpensNothing` no layout tokens are added.
-/

namespace Sable

/-! ### Tokens with other places -/

/-- The token with its places changed, and without what a line end was written as. -/
def Token.recast (f : Loc → Loc) (t : Token) : Token :=
  ⟨t.kind, if t.kind = .newline then "" else t.text, ⟨f t.span.start, f t.span.stop⟩⟩

def LexError.recast (f : Loc → Loc) : LexError → LexError
  | .unexpected c loc => .unexpected c (f loc)
  | .indentation width loc => .indentation width (f loc)

/-- The width that fits no level. -/
def LexError.width? : LexError → Option Nat
  | .unexpected .. => none
  | .indentation width _ => some width

/-- Tokens, or what stands in their way, with other places. -/
def recastAll (f : Loc → Loc) : Except LexError (List Token) → Except LexError (List Token)
  | .ok tokens => .ok (tokens.map (·.recast f))
  | .error e => .error (e.recast f)

/-- What the first token of a line does, with other places. -/
def Layout.recastEntry (f : Loc → Loc) :
    Except LexError (List Token × List Level) → Except LexError (List Token × List Level)
  | .ok (markers, levels) => .ok (markers.map (·.recast f), levels)
  | .error e => .error (e.recast f)

section

variable {f : Loc → Loc}

@[simp] theorem Token.recast_kind (t : Token) : (t.recast f).kind = t.kind := rfl

theorem Token.recast_text {t : Token} (h : t.kind ≠ .newline) : (t.recast f).text = t.text :=
  if_neg h

/-- Of tokens that are no line ends the words stay. -/
theorem Token.recast_word {t : Token} (h : t.kind ≠ .newline) : (t.recast f).word = t.word :=
  congrArg (Prod.mk t.kind) (recast_text h)

theorem recastAll_append (x : Except LexError (List Token)) (out : List Token) :
    recastAll f (x.map (out ++ ·)) = (recastAll f x).map (out.map (·.recast f) ++ ·) := by
  cases x with
  | error e => rfl
  | ok tokens => exact congrArg Except.ok List.map_append

namespace Layout

theorem closing_recast (levels : List Level) (span : Span) :
    closing levels ⟨f span.start, f span.stop⟩ = (closing levels span).map (·.recast f) := by
  unfold closing
  rw [List.map_map]
  rfl

theorem State.pass_recast (s : State) (t : Token) :
    s.pass (t.recast f) = ((s.pass t).1.map (·.recast f), (s.pass t).2) := by
  unfold State.pass
  cases hk : t.kind <;> simp only [Token.recast_kind, hk, List.map_cons, List.map_nil]
  rw [List.map_append, ← closing_recast]
  rfl

theorem enter_recast (levels : List Level) (width : Nat) (opener : Option Nat) (span : Span) :
    enter levels width opener ⟨f span.start, f span.stop⟩ =
      recastEntry f (enter levels width opener span) := by
  unfold enter
  by_cases hdeep : top levels < width
  · simp only [if_pos hdeep]
    cases opener <;> rfl
  · simp only [if_neg hdeep]
    by_cases hkept : top (levels.dropWhile (width < ·.width)) = width
    · simp only [if_pos hkept, closing_recast, recastEntry]
    · simp only [if_neg hkept, recastEntry, LexError.recast]

theorem lineHead_recast (tokens : List Token) :
    lineHead (tokens.map (·.recast f)) = (lineHead tokens).map (·.recast f) := by
  cases tokens with
  | nil => rfl
  | cons t rest =>
    have hfirst : (if (t.recast f).kind = .space then (rest.map (·.recast f)).head?
          else some (t.recast f)) =
        (if t.kind = .space then rest.head? else some t).map (·.recast f) := by
      rw [Token.recast_kind, List.head?_map]
      split <;> rfl
    exact (congrArg _ hfirst).trans Option.filter_map

theorem leading_recast (tokens : List Token) :
    leading (tokens.map (·.recast f)) = leading tokens := by
  cases tokens with
  | nil => rfl
  | cons t rest =>
    show (if t.kind = .space then width (t.recast f).text else 0) = leading (t :: rest)
    rw [leading]
    split
    · rename_i ht
      rw [Token.recast_text (by rw [ht]; decide)]
    · rfl

/-- Marking does not look at places, nor at how lines end. -/
theorem mark_recast (s : State) (tokens : List Token) :
    mark s (tokens.map (·.recast f)) = recastAll f (mark s tokens) := by
  induction tokens generalizing s with
  | nil => rfl
  | cons t rest ih =>
    have hhead := lineHead_recast (f := f) (t :: rest)
    have hleading := leading_recast (f := f) (t :: rest)
    rw [List.map_cons] at hhead hleading ⊢
    rw [mark, mark, hhead]
    -- the head of a line is found by kinds alone
    cases hfirst : if s.fresh then lineHead (t :: rest) else none with
    | none =>
      have hnone : (if s.fresh then (lineHead (t :: rest)).map (·.recast f) else none) = none := by
        split at hfirst
        · rw [if_pos ‹_›, hfirst]
          rfl
        · rw [if_neg ‹_›]
      simp only [hnone, State.pass_recast, ih, recastAll_append]
    | some first =>
      have hsome : (if s.fresh then (lineHead (t :: rest)).map (·.recast f) else none) =
          some (first.recast f) := by
        split at hfirst
        · rw [if_pos ‹_›, hfirst]
          rfl
        · cases hfirst
      have henter := enter_recast (f := f) s.levels (leading (t :: rest)) s.opener first.span
      simp only [hsome, hleading, Token.recast_kind]
      cases he : enter s.levels (leading (t :: rest)) s.opener first.span with
      | error e =>
        rw [he] at henter
        simp only [Token.recast, henter, recastEntry, recastAll]
      | ok x =>
        obtain ⟨markers, levels⟩ := x
        rw [he] at henter
        simp only [show (first.recast f).span = ⟨f first.span.start, f first.span.stop⟩ from rfl, henter,
          recastEntry]
        split
        · rw [ih, recastAll_append]
          rfl
        · rw [State.pass_recast, ih, recastAll_append, List.map_append]

theorem tidy_recast (tokens : List Token) :
    tidy (tokens.map (·.recast f)) = (tidy tokens).map (·.recast f) := by
  have hvisible : (tokens.map (·.recast f)).filter (!·.kind.isTrivia) =
      (tokens.filter (!·.kind.isTrivia)).map (·.recast f) := List.filter_map
  rw [tidy, tidy, hvisible]
  induction tokens.filter (!·.kind.isTrivia) with
  | nil => rfl
  | cons t rest ih =>
    have hkind : (rest.map (·.recast f)).head?.map (·.kind) = rest.head?.map (·.kind) := by
      rw [List.head?_map, Option.map_map]
      rfl
    rw [List.map_cons, dropOpeners, dropOpeners, Token.recast_kind, hkind, ih]
    split <;> rfl

/-- What the grammar sees has no line ends. -/
theorem not_newline_of_mem_tidy {tokens : List Token} : ∀ t ∈ tidy tokens, t.kind ≠ .newline := by
  intro t ht hk
  have htrivia := (List.mem_filter.1 ((dropOpeners_sublist _).subset ht)).2
  rw [hk] at htrivia
  cases htrivia

end Layout

end

namespace Layout

/-- What comes of tokens: the words that the grammar sees, or the width that fits no level. -/
def reading (raw : List Token) : Except (Option Nat) (List Word) :=
  match mark {} raw with
  | .ok out => .ok ((tidy out).map Token.word)
  | .error e => .error e.width?

theorem word_recast_tidy (f : Loc → Loc) (tokens : List Token) :
    ((tidy tokens).map (·.recast f)).map Token.word = (tidy tokens).map Token.word := by
  rw [List.map_map]
  exact List.map_congr_left fun t ht => Token.recast_word (not_newline_of_mem_tidy t ht)

theorem reading_recast (f : Loc → Loc) (raw : List Token) :
    reading (raw.map (·.recast f)) = reading raw := by
  unfold reading
  rw [mark_recast]
  cases mark {} raw with
  | ok out =>
    simp only [recastAll]
    rw [tidy_recast, word_recast_tidy]
  | error e => cases e <;> rfl

/-- A word without a place. -/
def unplaced (w : Word) : Token :=
  ⟨w.1, if w.1 = .newline then "" else w.2, ⟨.start, .start⟩⟩

/-- `reading` depends on the words of the tokens only, not on their places. -/
theorem reading_of_words {raw raw' : List Token} (h : raw'.map Token.word = raw.map Token.word) :
    reading raw' = reading raw := by
  have hunplaced (tokens : List Token) :
      tokens.map (·.recast fun _ => .start) = (tokens.map Token.word).map unplaced := by
    rw [List.map_map]
    rfl
  rw [← reading_recast (fun _ => .start) raw, ← reading_recast (fun _ => .start) raw', hunplaced,
    hunplaced, h]

/-! ### Blank lines and the ends of lines -/

/-- Blanks and comments. -/
def IsPadding (tokens : List Token) : Prop :=
  ∀ t ∈ tokens, t.kind = .space ∨ t.kind = .comment

instance (tokens : List Token) : Decidable (IsPadding tokens) :=
  inferInstanceAs (Decidable (∀ t ∈ tokens, t.kind = .space ∨ t.kind = .comment))

/-- No blanks follow blanks. -/
def SpacesApart (tokens : List Token) : Prop :=
  tokens.IsChain fun t u => t.kind = .space → u.kind ≠ .space

instance (tokens : List Token) : Decidable (SpacesApart tokens) :=
  inferInstanceAs (Decidable (tokens.IsChain fun t u => t.kind = .space → u.kind ≠ .space))

/-- The second list is the first with trivia added at one point: a line of its own, at the beginning or
after a line end, or something before a line end or the end of the file. -/
inductive Pads : List Token → List Token → Prop
  | line {before pad after : List Token} {eol : Token} (hpad : IsPadding pad)
      (heol : eol.kind = .newline) (hpoint : ∀ t ∈ before.getLast?, t.kind = .newline) :
      Pads (before ++ after) (before ++ (pad ++ eol :: after))
  | trailing {before pad after : List Token} {stop : Token} (hpad : IsPadding pad)
      (hstop : stop.kind = .newline ∨ stop.kind = .endOfFile) :
      Pads (before ++ stop :: after) (before ++ (pad ++ stop :: after))

section

variable {s : State} {t stop eol : Token} {pad before after rest rest' : List Token}

theorem visible_append (x : Except LexError (List Token)) (out : List Token) :
    (x.map (out ++ ·)).map visible = (x.map visible).map (visible out ++ ·) := by
  cases x with
  | error e => rfl
  | ok tokens => exact congrArg Except.ok (List.filter_append out tokens)

theorem visible_padding (h : IsPadding pad) : visible pad = [] := by
  refine List.filter_eq_nil_iff.2 fun t ht => ?_
  rcases h t ht with hk | hk <;> simp [hk, Kind.isTrivia]

theorem map_nil_append (x : Except LexError (List Token)) : x.map ([] ++ ·) = x := by
  cases x <;> rfl

/-- The end of a line, or of the file, is marked alike with and without a token before it. -/
theorem mark_stop (hstop : stop.kind = .newline ∨ stop.kind = .endOfFile) (fresh : Bool) :
    mark { s with fresh } (stop :: rest) = mark s (stop :: rest) := by
  have hhead : lineHead (stop :: rest) = none := by
    rcases hstop with hk | hk <;> simp [lineHead, hk]
  have hpass : State.pass { s with fresh } stop = s.pass stop := by
    rcases hstop with hk | hk <;> simp only [State.pass, hk]
  rw [mark_of_pass (.inr hhead), mark_of_pass (.inr hhead), hpass]

/-- No text begins with padding that stands before the end of a line. -/
theorem lineHead_padding (hpad : IsPadding (t :: pad)) (hspaces : SpacesApart (t :: (pad ++ [stop])))
    (hstop : stop.kind = .newline ∨ stop.kind = .endOfFile) (rest : List Token) :
    lineHead (t :: (pad ++ stop :: rest)) = none := by
  obtain ⟨ht, hrest⟩ := List.forall_mem_cons.1 hpad
  rcases ht with ht | ht
  · cases pad with
    | nil => rcases hstop with hk | hk <;> simp [lineHead, ht, hk]
    | cons u pad =>
      have hu : u.kind ≠ .space := (List.isChain_cons_cons.1 hspaces).1 ht
      have hk : u.kind = .comment := (hrest u List.mem_cons_self).resolve_left hu
      simp [lineHead, ht, hk]
  · simp [lineHead, ht]

/-- Padding before the end of a line is passed on and leaves nothing behind. -/
theorem mark_padding (hpad : IsPadding pad) (hspaces : SpacesApart (pad ++ [stop]))
    (hstop : stop.kind = .newline ∨ stop.kind = .endOfFile) :
    mark s (pad ++ stop :: rest) = (mark s (stop :: rest)).map (pad ++ ·) := by
  induction pad generalizing s with
  | nil => exact (map_nil_append _).symm
  | cons t pad ih =>
    have hhead := lineHead_padding hpad hspaces hstop rest
    have hpass : s.pass t = ([t], { s with fresh := false }) := by
      rcases hpad t List.mem_cons_self with hk | hk <;> simp only [State.pass, hk]
    have hrest : IsPadding pad := fun u hu => hpad u (List.mem_cons_of_mem t hu)
    rw [List.cons_append, mark_of_pass (.inr hhead), hpass, ih hrest hspaces.tail, mark_stop hstop,
      map_append]
    rfl

/-- A line without text leaves the state as it was. -/
theorem mark_blankLine (hpad : IsPadding pad) (hspaces : SpacesApart (pad ++ [eol]))
    (heol : eol.kind = .newline) (hfresh : s.fresh = true) (hlast : s.last = none) :
    mark s (pad ++ eol :: rest) = (mark s rest).map (pad ++ [eol] ++ ·) := by
  have hhead : lineHead (eol :: rest) = none := by simp [lineHead, heol]
  have hpass : s.pass eol = ([eol], s) := by
    obtain ⟨levels, fresh, opener, lineWidth, last⟩ := s
    cases hfresh
    cases hlast
    simp only [State.pass, heol]
  rw [mark_padding hpad hspaces (.inl heol), mark_of_pass (.inr hhead), hpass, map_append]

/-- On a line without a token nothing has been seen. -/
def State.Clean (s : State) : Prop :=
  s.fresh = true → s.last = none

theorem State.clean_pass (s : State) (t : Token) : (s.pass t).2.Clean := by
  unfold State.pass
  split
  · exact fun _ => rfl
  all_goals exact nofun

/-- If two continuations have the same visible tokens in every state that a token can lead to, so
they have behind the token. -/
theorem mark_cons_congr (hhead : lineHead (t :: rest) = lineHead (t :: rest'))
    (h : ∀ s : State, s.Clean → (t.kind = .newline → s.fresh = true) →
      (mark s rest).map visible = (mark s rest').map visible) :
    (mark s (t :: rest)).map visible = (mark s (t :: rest')).map visible := by
  have hpassed (s : State) : (mark (s.pass t).2 rest).map visible = (mark (s.pass t).2 rest').map visible := by
    refine h _ (s.clean_pass t) fun hk => ?_
    simp only [State.pass, hk]
  have hleading : leading (t :: rest) = leading (t :: rest') := rfl
  rw [mark, mark, ← hhead, ← hleading]
  cases if s.fresh then lineHead (t :: rest) else none with
  | none =>
    dsimp only
    rw [visible_append, visible_append, hpassed]
  | some first =>
    dsimp only
    cases enter s.levels (leading (t :: rest)) s.opener first.span with
    | error e => rfl
    | ok x =>
      dsimp only
      split
      · rename_i hspace
        rw [visible_append, visible_append, h]
        · rintro ⟨⟩
        · rw [hspace]
          rintro ⟨⟩
      · rw [visible_append, visible_append, hpassed]

/-- If two continuations are marked with the same visible tokens in every state, so they are behind
any tokens, provided that a blank in front of them does not tell them apart. `atLine` stands for a
point where a line begins. -/
theorem mark_append_congr (atLine : Prop) (hpoint : atLine → ∀ t ∈ before.getLast?, t.kind = .newline)
    (hhead : ∀ t ∈ before.getLast?, t.kind = .space → lineHead (t :: rest) = lineHead (t :: rest'))
    (h : ∀ s : State, s.Clean → (atLine → s.fresh = true) →
      (mark s rest).map visible = (mark s rest').map visible)
    (hs : s.Clean) (hfresh : atLine → before = [] → s.fresh = true) :
    (mark s (before ++ rest)).map visible = (mark s (before ++ rest')).map visible := by
  induction before generalizing s with
  | nil => exact h s hs fun hline => hfresh hline rfl
  | cons t before ih =>
    have hlast {u : Token} (hu : u ∈ before.getLast?) : u ∈ (t :: before).getLast? := by
      rw [List.getLast?_cons, Option.mem_def.1 hu]
      rfl
    have hsame : lineHead (t :: (before ++ rest)) = lineHead (t :: (before ++ rest')) := by
      by_cases ht : t.kind = .space
      · cases before with
        | nil => exact hhead t rfl ht
        | cons u before => simp [lineHead]
      · simp [lineHead, ht]
    refine mark_cons_congr hsame fun s' hs' hnewline => ?_
    refine ih (fun hline u hu => hpoint hline u (hlast hu)) (fun u hu => hhead u (hlast hu)) hs' ?_
    rintro hline rfl
    exact hnewline (hpoint hline t rfl)

end

theorem SpacesApart.pad {before pad after : List Token} {stop : Token}
    (h : SpacesApart (before ++ (pad ++ stop :: after))) : SpacesApart (pad ++ [stop]) := by
  have hsplit : before ++ (pad ++ stop :: after) = before ++ (pad ++ [stop] ++ after) := by simp
  rw [hsplit] at h
  exact h.right_of_append.left_of_append

/-- A blank before padding sees the end of the line, as it would without the padding. -/
theorem lineHead_pad {before pad after : List Token} {stop t : Token} (hpad : IsPadding pad)
    (hstop : stop.kind = .newline ∨ stop.kind = .endOfFile)
    (hspaces : SpacesApart (before ++ (pad ++ stop :: after))) (ht : t ∈ before.getLast?)
    (hspace : t.kind = .space) :
    lineHead (t :: stop :: after) = lineHead (t :: (pad ++ stop :: after)) := by
  obtain ⟨front, rfl⟩ := List.getLast?_eq_some_iff.1 ht
  have hchain : SpacesApart (t :: (pad ++ [stop])) := by
    rw [List.append_assoc, List.singleton_append] at hspaces
    have hsplit : t :: (pad ++ stop :: after) = (t :: (pad ++ [stop])) ++ after := by simp
    rw [hsplit] at hspaces
    exact hspaces.right_of_append.left_of_append
  have hall : IsPadding (t :: pad) := List.forall_mem_cons.2 ⟨.inl hspace, hpad⟩
  have hnone : IsPadding [t] := List.forall_mem_singleton.2 (.inl hspace)
  rw [lineHead_padding hall hchain hstop]
  have hend : stop.kind ≠ .space := by rcases hstop with hk | hk <;> rw [hk] <;> decide
  exact lineHead_padding hnone (List.isChain_pair.2 fun _ => hend) hstop after

/-- Trivia added to tokens makes no difference to what is left when all trivia is gone. -/
theorem Pads.mark_visible {raw padded : List Token} (h : Pads raw padded) (hspaces : SpacesApart padded) :
    (mark {} padded).map visible = (mark {} raw).map visible := by
  cases h with
  | @line before pad after eol hpad heol hpoint =>
    refine Eq.symm (mark_append_congr True (fun _ => hpoint) (fun t ht hspace => ?_)
      (fun s hs hfresh => ?_) (fun _ => rfl) fun _ _ => rfl)
    · have hk := hpoint t ht
      rw [hspace] at hk
      cases hk
    · have hfresh := hfresh trivial
      have hblank : visible (pad ++ [eol]) = [] := by
        have heol' : visible [eol] = [] := by simp [visible, heol, Kind.isTrivia]
        rw [visible, List.filter_append]
        exact congr (congrArg _ (visible_padding hpad)) heol'
      rw [mark_blankLine hpad hspaces.pad heol hfresh (hs hfresh), visible_append, hblank,
        map_nil_append]
  | @trailing before pad after stop hpad hstop =>
    refine Eq.symm (mark_append_congr False False.elim (fun t ht hspace => ?_)
      (fun s _ _ => ?_) (fun _ => rfl) False.elim)
    · exact lineHead_pad hpad hstop hspaces ht hspace
    · rw [mark_padding hpad hspaces.pad hstop, visible_append, visible_padding hpad, map_nil_append]

theorem Pads.reading_eq {raw padded : List Token} (h : Pads raw padded) (hspaces : SpacesApart padded) :
    reading padded = reading raw := by
  have hvisible := h.mark_visible hspaces
  unfold reading
  cases hp : mark {} padded with
  | error e =>
    rw [hp] at hvisible
    cases hr : mark {} raw with
    | error e' =>
      rw [hr] at hvisible
      cases hvisible
      rfl
    | ok out' =>
      rw [hr] at hvisible
      cases hvisible
  | ok out =>
    rw [hp] at hvisible
    cases hr : mark {} raw with
    | error e' =>
      rw [hr] at hvisible
      cases hvisible
    | ok out' =>
      rw [hr] at hvisible
      have hsame : visible out = visible out' := Except.ok.inj hvisible
      have htidy : tidy out = tidy out' := congrArg dropOpeners hsame
      simp only [htidy]

/-! ### Lines that open nothing -/

/-- No line ends in a colon, trivia aside. -/
def OpensNothing (raw : List Token) : Prop :=
  ∀ x ∈ significant raw, x.2 = true → x.1.kind ≠ .symbol .colon

instance (raw : List Token) : Decidable (OpensNothing raw) :=
  inferInstanceAs (Decidable (∀ x ∈ significant raw, x.2 = true → x.1.kind ≠ .symbol .colon))

/-- A state in which no block is open, nor about to be. -/
structure State.Flat (s : State) (rest : List Token) : Prop where
  levels : s.levels = []
  opener : s.opener = none
  last : s.last = some (.symbol .colon) → endsLine rest = false

theorem OpensNothing.tail {t : Token} {rest : List Token} (h : OpensNothing (t :: rest)) :
    OpensNothing rest := by
  intro x hx
  refine h x ?_
  rw [significant]
  split
  · exact hx
  · exact List.mem_cons_of_mem _ hx

theorem State.Flat.pass {s : State} {t : Token} {rest : List Token} (hs : s.Flat (t :: rest))
    (h : OpensNothing (t :: rest)) (hend : t.kind = .endOfFile → rest = []) :
    (s.pass t).1 = [t] ∧ (s.pass t).2.Flat rest := by
  have hlast (htrivia : t.kind.isTrivia = true) (hk : t.kind ≠ .newline) :
      s.last = some (.symbol .colon) → endsLine rest = false := by
    intro hcolon
    simpa [endsLine, hk, htrivia] using hs.last hcolon
  have hcolon (htrivia : t.kind.isTrivia = false) :
      some t.kind = some (.symbol .colon) → endsLine rest = false := by
    intro hcolon
    have hmem : (t, endsLine rest) ∈ significant (t :: rest) := by
      rw [significant, if_neg (by simp [htrivia])]
      exact List.mem_cons_self
    rw [← Bool.not_eq_true]
    exact fun hends => h _ hmem hends (Option.some.inj hcolon)
  unfold State.pass
  cases hk : t.kind with
  | newline =>
    refine ⟨rfl, hs.levels, ?_, by rintro ⟨⟩⟩
    -- what ended the line is no colon
    have hends : endsLine (t :: rest) = true := by simp [endsLine, hk]
    cases hl : s.last with
    | none => exact hs.opener
    | some kind =>
      refine if_neg fun hkind => ?_
      rw [hkind] at hl
      rw [hs.last hl] at hends
      cases hends
  | endOfFile =>
    obtain rfl := hend hk
    refine ⟨?_, rfl, hs.opener, fun _ => rfl⟩
    rw [hs.levels]
    rfl
  | space | comment => exact ⟨rfl, hs.levels, hs.opener, hlast (by rw [hk]; rfl) (by rw [hk]; decide)⟩
  | number | text | identifier | indent | dedent | keyword _ | symbol _ =>
    refine ⟨rfl, hs.levels, hs.opener, ?_⟩
    rw [hk] at hcolon
    exact hcolon rfl

theorem mark_flat {s : State} {raw : List Token} (hs : s.Flat raw) (h : OpensNothing raw)
    (hraw : EndsOnce raw) : mark s raw = .ok raw := by
  induction raw generalizing s with
  | nil => rfl
  | cons t rest ih =>
    obtain ⟨hend, hrest⟩ := hraw
    have hpassed {s : State} (hs : s.Flat (t :: rest)) :
        (mark (s.pass t).2 rest).map ((s.pass t).1 ++ ·) = .ok (t :: rest) := by
      obtain ⟨hout, hflat⟩ := hs.pass h hend
      rw [hout, ih hflat h.tail hrest]
      rfl
    by_cases hhead : s.fresh = false ∨ lineHead (t :: rest) = none
    · rw [mark_of_pass hhead]
      exact hpassed hs
    · obtain ⟨hfresh, hsome⟩ := not_or.1 hhead
      obtain ⟨first, hfirst⟩ := Option.ne_none_iff_exists'.1 hsome
      rw [mark, Bool.eq_true_of_not_eq_false hfresh, if_pos rfl, hfirst]
      simp only [hs.levels, hs.opener, enter_line]
      split
      · rename_i hspace
        rw [ih _ h.tail hrest]
        · rfl
        · refine ⟨rfl, rfl, fun hcolon => ?_⟩
          simpa [endsLine, hspace, Kind.isTrivia] using hs.last hcolon
      · exact hpassed ⟨rfl, rfl, hs.last⟩

/-- Blank lines, lines with nothing but a comment, and blanks and comments at the ends of lines make no
difference to what comes of tokens, wherever they stand afterwards. Where no line ends in a colon, the
tokens of a source are marked without fail and nothing is added to them. -/
theorem trivia_cosmetic (raw : List Token) :
    (∀ padded raw', Pads raw padded → SpacesApart padded →
      raw'.map Token.word = padded.map Token.word → reading raw' = reading raw) ∧
    ∀ kinds source, Token.scan kinds source = .ok raw → OpensNothing raw → mark {} raw = .ok raw := by
  refine ⟨fun padded raw' hpads hspaces hwords => ?_, fun kinds source hscan hopens => ?_⟩
  · rw [reading_of_words hwords, hpads.reading_eq hspaces]
  · exact mark_flat ⟨rfl, rfl, nofun⟩ hopens (scan_unmarked hscan).1

/-- A colon and a block, and then a line that goes back to where none is. -/
def strayReturn : List Word :=
  [(.identifier, "a"), (.symbol .colon, ":"), (.newline, "\n"), (.space, "    "), (.identifier, "b"),
   (.newline, "\n"), (.space, "  "), (.identifier, "c"), (.endOfFile, "EndOfFile")]

/-- The same with a comment behind the colon. -/
def strayReturnNoted : List Word :=
  strayReturn.take 2 ++ ([(.space, " "), (.comment, "// d")] ++ strayReturn.drop 2)

/-- Depth that no colon has asked for. -/
def cosmeticDepth : String :=
  "a(\n    b: c,\n  d\n)"

/-- It is cut into tokens, and no line of them ends in a colon. -/
def cosmeticDepthScans : Bool :=
  match Token.scan Kind.written cosmeticDepth with
  | .ok raw => decide (OpensNothing raw)
  | .error _ => false

theorem cosmeticDepth_cosmetic :
    (reading (strayReturnNoted.map unplaced) = reading (strayReturn.map unplaced) ∧
      reading (strayReturn.map unplaced) = .error (some 2)) ∧
    ∃ raw, Token.scan Kind.written cosmeticDepth = .ok raw ∧ OpensNothing raw ∧ mark {} raw = .ok raw := by
  refine ⟨⟨?_, by decide⟩, ?_⟩
  · have hpad : IsPadding ([(.space, " "), (.comment, "// d")].map unplaced) := by decide
    have hpads : Pads ((strayReturn.take 2).map unplaced ++ unplaced (.newline, "\n") ::
          (strayReturn.drop 3).map unplaced)
        ((strayReturn.take 2).map unplaced ++ ([(.space, " "), (.comment, "// d")].map unplaced ++
          unplaced (.newline, "\n") :: (strayReturn.drop 3).map unplaced)) := .trailing hpad (.inl rfl)
    exact (trivia_cosmetic (strayReturn.map unplaced)).1 (strayReturnNoted.map unplaced) _ hpads
      (by decide) rfl
  · have hrun : cosmeticDepthScans = true := by decide +kernel
    unfold cosmeticDepthScans at hrun
    split at hrun
    · rename_i raw hraw
      have hopens : OpensNothing raw := of_decide_eq_true hrun
      exact ⟨raw, hraw, hopens, (trivia_cosmetic raw).2 _ _ hraw hopens⟩
    · cases hrun

end Layout

end Sable
