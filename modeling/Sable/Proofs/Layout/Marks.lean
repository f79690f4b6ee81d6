import Sable.Token.Layout

/-!
# Where layout tokens stand

`Marks`: a list of tokens, and the same with layout tokens among them. It describes the result of
`Layout.mark` without widths and levels: a dedent may stand before any token, and an indent only where a
line has ended in a colon and only trivia has come since (`Tail`).
-/

namespace Sable

/-- The kinds of tokens that the pass puts in: indents and dedents. -/
def Kind.isLayout : Kind → Bool
  | .indent | .dedent => true
  | _ => false

namespace Layout

/-- Nothing comes after the end of the file. -/
def EndsOnce : List Token → Prop
  | [] => True
  | t :: rest => (t.kind = .endOfFile → rest = []) ∧ EndsOnce rest

/-- What a list of tokens ends in, trivia aside. -/
inductive Tail where
  /-- A colon, whose line goes on. -/
  | colon
  /-- A colon, and its line has ended. -/
  | opener
  | other

/-- What the list ends in after one more token. -/
def Tail.next (tail : Tail) (t : Token) : Tail :=
  match t.kind with
  | .newline =>
    match tail with
    | .other => .other
    | _ => .opener
  | .space | .comment => tail
  | .symbol .colon => .colon
  | _ => .other

/-- Tokens that come after such a list, and the same with layout tokens among them. -/
inductive Marks : Tail → List Token → List Token → Prop
  | nil {tail : Tail} : Marks tail [] []
  | token {tail : Tail} {t : Token} {raw out : List Token} (h : Marks (tail.next t) raw out) :
      Marks tail (t :: raw) (t :: out)
  | indent {span : Span} {raw out : List Token} (h : Marks .other raw out) :
      Marks .opener raw (marker .indent span :: out)
  | dedent {tail : Tail} {span : Span} {raw out : List Token} (h : Marks .other raw out) :
      Marks tail raw (marker .dedent span :: out)

/-- What the pass remembers at a point agrees with the tokens before it. What it has of a line that
ended in a colon does not count any more once there is a token on another. -/
structure State.Agrees (s : State) (tail : Tail) : Prop where
  fresh : s.fresh = true → s.last = none
  last : s.last = some (.symbol .colon) → tail = .colon
  opener : s.last = none → s.opener.isSome → tail = .opener

section

variable {s : State} {tail : Tail} {t : Token} {raw rest out : List Token}

/-- With no colon to remember, any list of tokens will do. -/
theorem State.agrees_of_none (hlast : s.last = none) (hopener : s.opener = none) (tail : Tail) :
    s.Agrees tail where
  fresh _ := hlast
  last h := by
    rw [hlast] at h
    cases h
  opener _ h := by
    rw [hopener] at h
    cases h

/-- After a token that is no trivia, that is what the list ends in. -/
theorem State.agrees_of_some {kind : Kind} (hfresh : s.fresh = false) (hlast : s.last = some kind)
    (h : kind = .symbol .colon → tail = .colon) : s.Agrees tail where
  fresh hf := by
    rw [hfresh] at hf
    cases hf
  last hl := h (Option.some.inj (hlast.symm.trans hl))
  opener hl := by
    rw [hlast] at hl
    cases hl

theorem State.Agrees.pass (h : s.Agrees tail) (ht : t.kind ≠ .endOfFile) :
    (s.pass t).1 = [t] ∧ (s.pass t).2.Agrees (tail.next t) := by
  unfold State.pass Tail.next
  cases hk : t.kind with
  | newline =>
    refine ⟨rfl, fun _ => rfl, nofun, fun _ hopener => ?_⟩
    -- at the end of a line its last token becomes the opener
    cases hlast : s.last with
    | none =>
      simp only [hlast] at hopener
      rw [h.opener hlast hopener]
    | some kind =>
      simp only [hlast] at hopener
      split at hopener
      · rename_i hkind
        rw [h.last (hkind ▸ hlast)]
      · cases hopener
  | space | comment => exact ⟨rfl, nofun, h.last, h.opener⟩
  | endOfFile => exact absurd hk ht
  | symbol sign =>
    refine ⟨rfl, agrees_of_some rfl rfl fun hsign => ?_⟩
    cases hsign
    rfl
  | number | text | identifier | indent | dedent => exact ⟨rfl, agrees_of_some rfl rfl nofun⟩
  | keyword word => exact ⟨rfl, agrees_of_some rfl rfl nofun⟩

theorem Marks.closing (h : ∀ tail, Marks tail raw out) (levels : List Level) (span : Span)
    (tail : Tail) : Marks tail raw (closing levels span ++ out) := by
  unfold Layout.closing
  induction levels.filter (!·.silent) generalizing tail with
  | nil => exact h tail
  | cons level levels ih => exact .dedent (ih .other)

/-- The layout tokens before the first token of a line. -/
theorem Marks.enter {levels levels' : List Level} {width : Nat} {opener : Option Nat} {span : Span}
    {markers : List Token} (he : enter levels width opener span = .ok (markers, levels'))
    (hopener : opener.isSome → tail = .opener) (h : ∀ tail, Marks tail raw out) :
    Marks tail raw (markers ++ out) := by
  unfold Layout.enter at he
  split at he
  · split at he
    · cases he
      exact h tail
    · cases he
      obtain rfl := hopener rfl
      exact .indent (h .other)
  · dsimp only at he
    split at he
    · cases he
      exact .closing h _ span tail
    · cases he

theorem Marks.pass (hs : s.Agrees tail) (hend : t.kind = .endOfFile → rest = [])
    (h : mark (s.pass t).2 rest = .ok out)
    (ih : ∀ tail, (s.pass t).2.Agrees tail → Marks tail rest out) :
    Marks tail (t :: rest) ((s.pass t).1 ++ out) := by
  by_cases ht : t.kind = .endOfFile
  · obtain rfl := hend ht
    cases h
    have hout : (s.pass t).1 = Layout.closing s.levels t.span ++ [t] := by simp [State.pass, ht]
    rw [hout, List.append_nil]
    exact .closing (fun _ => .token .nil) _ _ tail
  · obtain ⟨hout, hagrees⟩ := hs.pass ht
    rw [hout]
    exact .token (ih _ hagrees)

theorem ok_of_map {ε α β : Type} {x : Except ε α} {f : α → β} {b : β} (h : x.map f = .ok b) :
    ∃ a, x = .ok a ∧ f a = b := by
  cases x with
  | error e => cases h
  | ok a => exact ⟨a, rfl, Except.ok.inj h⟩

/-- What the pass makes of tokens from any point on. -/
theorem mark_marks (hs : s.Agrees tail) (hraw : EndsOnce raw) (h : mark s raw = .ok out) :
    Marks tail raw out := by
  induction raw generalizing s tail out with
  | nil =>
    cases h
    exact .nil
  | cons t rest ih =>
    obtain ⟨hend, hrest⟩ := hraw
    unfold mark at h
    split at h
    · obtain ⟨out', hout', rfl⟩ := ok_of_map h
      exact .pass hs hend hout' fun _ htail => ih htail hrest hout'
    · rename_i first hfirst
      have hlast := hs.fresh (Option.ite_none_right_eq_some.1 hfirst).1
      dsimp only at h
      split at h
      · cases h
      · rename_i markers levels henter
        have hopener := hs.opener hlast
        -- the line has a token now and the colon before it is forgotten, so that what comes after
        -- the markers does not hang on which of them there are
        split at h
        · rename_i hspace
          obtain ⟨out', hout', rfl⟩ := ok_of_map h
          have htail : tail.next t = tail := by simp [Tail.next, hspace]
          refine .token (.enter henter (by rw [htail]; exact hopener) fun tail' => ?_)
          exact ih (State.agrees_of_none (by exact hlast) rfl tail') hrest hout'
        · obtain ⟨out', hout', rfl⟩ := ok_of_map h
          rw [List.append_assoc]
          refine .enter henter hopener fun tail' => ?_
          exact .pass (State.agrees_of_none (by exact hlast) rfl tail') hend hout' fun _ htail =>
            ih htail hrest hout'

end

end Layout

end Sable
