import Mathlib.Data.List.Forall2
import Sable.Program

/-!
# Templates by their parts

`Piece.Parts`: the pieces that a text splits into. `Piece.source` writes pieces one after another, and
splitting that gives them back if they are `Legible`. `Piece.marked` is the template of the pieces, with
a placeholder for each expression.
-/

namespace Sable

namespace Piece

/-- The depth of braces behind a text that starts `depth` braces deep, if none is closed too early. -/
def braces : (depth : Nat) → List Char → Option Nat
  | depth, [] => some depth
  | depth, c :: rest =>
    if c = '\x7b' then braces (depth + 1) rest
    else if c = '\x7d' then
      match depth with
      | 0 => none
      | depth + 1 => braces depth rest
    else braces depth rest

/-- The characters that a part is written with. -/
def written : Piece → List Char
  | plain c => [c]
  | reference name => '$' :: name.toList
  | hole body => '$' :: '\x7b' :: body.toList ++ ['\x7d']
  | openHole rest => rest.toList

/-- The text of a literal with these parts. -/
def source (pieces : List Piece) : String :=
  String.ofList (pieces.flatMap written)

/-- The text of the expression in a hole. -/
def hole? : Piece → Option String
  | hole body => some body
  | _ => none

/-- The name that a part refers to. -/
def reference? : Piece → Option String
  | reference name => some name
  | _ => none

/-- The first text begins with these parts, and the second is what follows them. A dollar sign is
plain only in front of a character that begins neither a name nor an expression, a name goes on as
far as it can, and an expression up to the brace that balances the one before it. -/
inductive Parts : List Char → List Piece → List Char → Prop
  | nil {rest : List Char} : Parts rest [] rest
  | plain {c : Char} {cs rest : List Char} {pieces : List Piece}
      (hc : c = '$' → ∀ d ∈ cs.head?, Text.isWordStart d = false ∧ d ≠ '\x7b')
      (h : Parts cs pieces rest) : Parts (c :: cs) (.plain c :: pieces) rest
  | reference {c : Char} {word cs rest : List Char} {pieces : List Piece}
      (hc : Text.isWordStart c) (hword : ∀ d ∈ word, Text.isWordChar d)
      (hnext : ∀ d ∈ cs.head?, Text.isWordChar d = false) (h : Parts cs pieces rest) :
      Parts ('$' :: c :: (word ++ cs)) (.reference (String.ofList (c :: word)) :: pieces) rest
  | hole {body cs rest : List Char} {pieces : List Piece} (hbody : braces 0 body = some 0)
      (h : Parts cs pieces rest) :
      Parts ('$' :: '\x7b' :: (body ++ '\x7d' :: cs)) (.hole (String.ofList body) :: pieces) rest

/-- Parts that can be told apart where they are written: plain characters other than the dollar sign,
references that end where their name does, and texts of expressions, which are given, with braces
that balance. -/
inductive Legible : List Piece → List Expr → Prop
  | nil : Legible [] []
  | plain {c : Char} {rest : List Piece} {holes : List Expr} (hc : c ≠ '$')
      (h : Legible rest holes) : Legible (.plain c :: rest) holes
  | reference {c : Char} {word : List Char} {rest : List Piece} {holes : List Expr}
      (hc : Text.isWordStart c) (hword : ∀ d ∈ word, Text.isWordChar d)
      (hnext : ∀ d ∈ (rest.flatMap written).head?, Text.isWordChar d = false)
      (h : Legible rest holes) : Legible (.reference (String.ofList (c :: word)) :: rest) holes
  | hole {body : String} {e : Expr} {rest : List Piece} {holes : List Expr}
      (hbody : Expr.parse body = .ok e) (hbraces : braces 0 body.toList = some 0)
      (h : Legible rest holes) : Legible (.hole body :: rest) (e :: holes)

/-! ### Splitting -/

/-- Where the braces of a text balance, the next one closes those around it. -/
theorem closeBrace_append (rest : List Char) : ∀ {depth : Nat} {body : List Char},
    braces depth body = some 0 → closeBrace depth (body ++ '\x7d' :: rest) = some (body, rest)
  | depth, [], h => by
    cases h
    rfl
  | depth, c :: body, h => by
    rw [List.cons_append, closeBrace.eq_def]
    rw [braces.eq_def] at h
    dsimp only at h ⊢
    by_cases hopen : c = '\x7b'
    · rw [if_pos hopen] at h ⊢
      rw [closeBrace_append rest h]
      rfl
    rw [if_neg hopen] at h ⊢
    by_cases hclose : c = '\x7d'
    · rw [if_pos hclose] at h ⊢
      cases depth with
      | zero => cases h
      | succ depth =>
        dsimp only at h ⊢
        rw [closeBrace_append rest h]
        rfl
    · rw [if_neg hclose] at h ⊢
      rw [closeBrace_append rest h]
      rfl

/-- A word ends where no character of a word follows. -/
theorem word_ends {word rest : List Char} (hword : ∀ d ∈ word, Text.isWordChar d)
    (hnext : ∀ d ∈ rest.head?, Text.isWordChar d = false) :
    (word ++ rest).takeWhile Text.isWordChar = word ∧
      (word ++ rest).dropWhile Text.isWordChar = rest := by
  rw [List.takeWhile_append_of_pos hword, List.dropWhile_append_of_pos hword]
  cases rest with
  | nil => exact ⟨List.append_nil word, rfl⟩
  | cons d rest =>
    have hd : ¬ Text.isWordChar d := by simp [hnext d rfl]
    rw [List.takeWhile_cons_of_neg hd, List.dropWhile_cons_of_neg hd]
    exact ⟨List.append_nil word, rfl⟩

/-- A dollar sign that begins nothing is plain as well. -/
theorem split_alone {c : Char} {cs : List Char}
    (hc : c = '$' → ∀ d ∈ cs.head?, Text.isWordStart d = false ∧ d ≠ '\x7b') :
    split (c :: cs) = plain c :: split cs := by
  cases cs with
  | nil => rw [split, split]
  | cons d cs =>
    have hopen : ¬ (c = '$' ∧ d = '\x7b') := fun h => (hc h.1 d rfl).2 h.2
    have hword : ¬ (c = '$' ∧ Text.isWordStart d) := fun h => by
      have hstart := (hc h.1 d rfl).1
      rw [h.2] at hstart
      cases hstart
    rw [split, if_neg hopen, if_neg hword]

theorem split_reference {c : Char} {word rest : List Char} (hc : Text.isWordStart c)
    (hword : ∀ d ∈ word, Text.isWordChar d) (hnext : ∀ d ∈ rest.head?, Text.isWordChar d = false) :
    split ('$' :: c :: (word ++ rest)) = reference (String.ofList (c :: word)) :: split rest := by
  have hopen : c ≠ '\x7b' := by
    rintro rfl
    revert hc
    decide
  obtain ⟨htake, hdrop⟩ := word_ends hword hnext
  rw [split, if_neg fun h => hopen h.2, if_pos ⟨rfl, hc⟩, htake, hdrop]

theorem split_hole {body : List Char} (h : braces 0 body = some 0) (rest : List Char) :
    split ('$' :: '\x7b' :: (body ++ '\x7d' :: rest)) = hole (String.ofList body) :: split rest := by
  rw [split, if_pos ⟨rfl, rfl⟩]
  split <;> rename_i hclose <;> rw [closeBrace_append rest h] at hclose
  · cases hclose
  · cases hclose
    rfl

theorem Parts.split_eq {cs rest : List Char} {pieces : List Piece} (h : Parts cs pieces rest) :
    split cs = pieces ++ split rest := by
  induction h with
  | nil => rfl
  | plain hc _ ih => rw [split_alone hc, ih, List.cons_append]
  | reference hc hword hnext _ ih => rw [split_reference hc hword hnext, ih, List.cons_append]
  | hole hbody _ ih => rw [split_hole hbody, ih, List.cons_append]

theorem Legible.parts {pieces : List Piece} {holes : List Expr} (h : Legible pieces holes) :
    Parts (pieces.flatMap written) pieces [] := by
  induction h with
  | nil => exact .nil
  | plain hc _ ih => exact .plain (fun h => absurd h hc) ih
  | reference hc hword hnext _ ih =>
    rw [List.flatMap_cons, written, String.toList_ofList]
    exact .reference hc hword hnext ih
  | @hole body e rest holes hbody hbraces _ ih =>
    have hparts := Parts.hole hbraces ih
    rw [String.ofList_toList] at hparts
    simpa [written] using hparts

/-- The parts of a literal are found where they are written. -/
theorem Legible.split_written {pieces : List Piece} {holes : List Expr} (h : Legible pieces holes) :
    split (pieces.flatMap written) = pieces := by
  rw [h.parts.split_eq, split, List.append_nil]

/-! ### The template of the parts -/

/-- The text of a template with these parts, `k` expressions coming before them. -/
def marked : (k : Nat) → List Piece → List Char
  | _, [] => []
  | k, plain c :: rest => c :: marked k rest
  | k, reference name :: rest => '$' :: name.toList ++ marked k rest
  | k, hole _ :: rest => (placeholder k).toList ++ marked (k + 1) rest
  | k, openHole text :: rest => text.toList ++ marked k rest

/-- A name that is used again is not listed again. -/
theorem eraseDups_snoc (names : List String) (name : String) :
    (names ++ [name]).eraseDups =
      if name ∈ names.eraseDups then names.eraseDups else names.eraseDups ++ [name] := by
  rw [List.eraseDups_append]
  split <;> rename_i hmem
  · have hnone : [name].removeAll names = [] := by
      simpa [List.removeAll] using List.mem_eraseDups.1 hmem
    rw [hnone, List.eraseDups_nil, List.append_nil]
  · have hone : [name].removeAll names = [name] := by
      simpa [List.removeAll] using mt List.mem_eraseDups.2 hmem
    rw [hone]
    rfl

/-- The parts are taken up one after the other, up to the first whose expression cannot be read. -/
theorem Parts.extend {cs rest : List Char} {pieces : List Piece} (h : Parts cs pieces rest)
    (read : String → Except SyntaxCause Expr) (tail : List Piece) (used : List String)
    (t : Template) (hnames : t.names = used.eraseDups) :
    (∃ exprs, List.Forall₂ (fun body e => read body = .ok e) (pieces.filterMap (·.hole?)) exprs ∧
      t.extend read (pieces ++ tail) = Template.extend read
        ⟨t.text ++ String.ofList (marked t.holes.length pieces),
          (used ++ pieces.filterMap (·.reference?)).eraseDups, t.holes ++ exprs⟩ tail) ∨
    ∃ front body back cause, pieces = front ++ .hole body :: back ∧
      (∀ body ∈ front.filterMap (·.hole?), ∃ e, read body = .ok e) ∧ read body = .error cause ∧
      t.extend read (pieces ++ tail) = .error cause := by
  -- `used` lists every use of a name, so that the names are those of one longer list without
  -- repetitions
  induction h generalizing used t with
  | nil =>
    refine .inl ⟨[], .nil, ?_⟩
    have hsame : t = ⟨t.text ++ String.ofList (marked t.holes.length []),
        (used ++ [].filterMap Piece.reference?).eraseDups, t.holes ++ []⟩ := by
      simp [marked, ← hnames]
    rw [List.nil_append, ← hsame]
  | @plain c cs rest pieces hc _ ih =>
    rw [List.cons_append, Template.extend]
    rcases ih used { t with text := t.text.push c } hnames with
      ⟨exprs, hread, heq⟩ | ⟨front, body, back, cause, rfl, hfront, hbody, heq⟩
    · refine .inl ⟨exprs, hread, ?_⟩
      have htext : t.text.push c ++ String.ofList (marked t.holes.length pieces) =
          t.text ++ String.ofList (c :: marked t.holes.length pieces) :=
        String.toList_injective (by simp)
      rw [heq, marked, ← htext]
      rfl
    · exact .inr ⟨.plain c :: front, body, back, cause, rfl, hfront, hbody, heq⟩
  | @reference c word cs rest pieces hc hword hnext _ ih =>
    rw [List.cons_append, Template.extend]
    generalize String.ofList (c :: word) = name
    have hadded : (if name ∈ t.names then t.names else t.names ++ [name]) =
        (used ++ [name]).eraseDups := by
      rw [eraseDups_snoc, hnames]
    rw [hadded]
    rcases ih (used ++ [name]) ⟨t.text ++ "$" ++ name, (used ++ [name]).eraseDups, t.holes⟩ rfl with
      ⟨exprs, hread, heq⟩ | ⟨front, body, back, cause, rfl, hfront, hbody, heq⟩
    · refine .inl ⟨exprs, hread, ?_⟩
      have htext : t.text ++ "$" ++ name ++ String.ofList (marked t.holes.length pieces) =
          t.text ++ String.ofList ('$' :: name.toList ++ marked t.holes.length pieces) :=
        String.toList_injective (by simp)
      have hlist : used ++ [name] ++ pieces.filterMap (·.reference?) =
          used ++ (Piece.reference name :: pieces).filterMap (·.reference?) := by
        rw [List.append_assoc]
        rfl
      rw [heq, marked, ← htext, ← hlist]
    · exact .inr ⟨.reference name :: front, body, back, cause, rfl, hfront, hbody, heq⟩
  | @hole body cs rest pieces hbraces _ ih =>
    generalize String.ofList body = body
    rw [List.cons_append, Template.extend]
    cases hbody : read body with
    | error cause => exact .inr ⟨[], body, pieces, cause, rfl, by simp, hbody, rfl⟩
    | ok e =>
      dsimp only
      rcases ih used { t with text := t.text ++ placeholder t.holes.length, holes := t.holes ++ [e] }
        hnames with ⟨exprs, hread, heq⟩ | ⟨front, body', back, cause, rfl, hfront, hbody', heq⟩
      · refine .inl ⟨e :: exprs, .cons hbody hread, ?_⟩
        have htext : t.text ++ placeholder t.holes.length ++
            String.ofList (marked (t.holes.length + 1) pieces) =
            t.text ++ String.ofList ((placeholder t.holes.length).toList ++
              marked (t.holes.length + 1) pieces) := String.toList_injective (by simp)
        rw [heq, marked, ← htext, List.length_append, List.length_singleton, List.append_assoc,
          List.singleton_append]
        rfl
      · refine .inr ⟨.hole body :: front, body', back, cause, rfl, ?_, hbody', heq⟩
        exact List.forall_mem_cons.2 ⟨⟨e, hbody⟩, hfront⟩

theorem exists_read {read : String → Except SyntaxCause Expr} {bodies : List String}
    {exprs : List Expr} (h : List.Forall₂ (fun body e => read body = .ok e) bodies exprs) :
    ∀ body ∈ bodies, ∃ e, read body = .ok e := by
  intro body hbody
  obtain ⟨i, hi, rfl⟩ := List.getElem_of_mem hbody
  obtain ⟨hlength, hread⟩ := List.forall₂_iff_get.1 h
  exact ⟨_, hread i hi (hlength ▸ hi)⟩

theorem Legible.forall₂_holes {read : String → Except SyntaxCause Expr} {pieces : List Piece}
    {holes : List Expr} (h : Legible pieces holes)
    (hread : ∀ body e, Piece.hole body ∈ pieces → Expr.parse body = .ok e → read body = .ok e) :
    List.Forall₂ (fun body e => read body = .ok e) (pieces.filterMap (·.hole?)) holes := by
  induction h with
  | nil => exact .nil
  | plain _ _ ih | reference _ _ _ _ ih => exact ih fun body e hb => hread body e (.tail _ hb)
  | @hole body e _ _ hbody _ _ ih =>
    exact .cons (hread body e List.mem_cons_self hbody) (ih fun body e hb => hread body e (.tail _ hb))

/-- A template takes up the parts with their expressions in order, and all names referred to. -/
theorem Legible.extend {read : String → Except SyntaxCause Expr} {pieces : List Piece}
    {holes : List Expr} (h : Legible pieces holes)
    (hread : ∀ body e, Piece.hole body ∈ pieces → Expr.parse body = .ok e → read body = .ok e) :
    Template.extend read {} pieces =
      .ok ⟨String.ofList (marked 0 pieces), (pieces.filterMap (·.reference?)).eraseDups, holes⟩ := by
  have hholes := h.forall₂_holes hread
  have hextend := h.parts.extend read [] [] {} rfl
  rw [List.append_nil] at hextend
  rcases hextend with ⟨exprs, hexprs, heq⟩ | ⟨front, body, back, cause, rfl, -, hbody, -⟩
  · have hsame : exprs = holes :=
      List.right_unique_forall₂' (fun _ _ _ he he' => Except.ok.inj (he.symm.trans he')) hexprs hholes
    rw [heq, hsame]
    simp [Template.extend]
  · -- every expression can be read
    obtain ⟨e, he⟩ := exists_read hholes body (List.mem_filterMap.2 ⟨.hole body, by simp, rfl⟩)
    cases he.symm.trans hbody

end Piece

end Sable
