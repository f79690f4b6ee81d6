import Sable.Proofs.Joining.Expressions
import Sable.Proofs.Jumps.Reading
import Sable.Proofs.Layout.Erasure
import Sable.Proofs.Scanning.Blanks
import Sable.Proofs.Templates.Pieces

/-!
# Reading the expressions of a template

`SameUpTo`: two readers read the same from texts up to a length. The text of a literal inside a literal
is shorter, so the depth allowed for literals makes no difference if it exceeds the length of the text.
-/

namespace Sable

/-! ### The length of tokens -/

namespace Token

theorem unescape_length_le (cs : List Char) : (unescape cs).length ≤ cs.length := by
  fun_induction unescape cs <;> simp only [List.length_cons, List.length_nil] <;> omega

/-- No token that is written says more than its source. -/
theorem length_text_le {kinds : List Kind} {source : String} {tokens : List Token}
    (h : scan kinds source = .ok tokens) :
    ∀ t ∈ tokens, t.kind ≠ .endOfFile → t.text.length ≤ source.length := by
  obtain ⟨body, before, rest, hcut, hscan⟩ :=
    scanFrom_cutUp kinds (List.nil_append source.toList).symm
  have hfinish : finish body (Loc.start.after before) rest = .ok tokens := hscan.symm.trans h
  cases rest with
  | cons c rest => cases hfinish
  | nil =>
    cases hfinish
    have hwhole : body.flatMap (·.span.slice source) = source.toList := by
      rw [hcut.split, List.append_nil, ← hcut.whole, List.nil_append]
    intro t ht hend
    rcases List.mem_append.1 ht with ht | ht
    · have hslice : (t.span.slice source).length ≤ source.length := by
        have hsub : (t.span.slice source).Sublist (body.flatMap (·.span.slice source)) :=
          List.sublist_flatten_of_mem (List.mem_map_of_mem ht)
        rw [hwhole] at hsub
        exact hsub.length_le
      -- a quoted text loses its quotes and gains nothing by its escapes
      by_cases hk : t.kind = .text
      · obtain ⟨raw, hraw, htext⟩ := (hcut.cut t ht).quoted hk
        have hle := unescape_length_le raw
        simp only [hraw, List.cons_append, List.length_cons, List.length_append] at hslice
        rw [htext, String.length_ofList]
        omega
      · rwa [(hcut.cut t ht).text hk, String.length_ofList]
    · rw [List.mem_singleton.1 ht] at hend
      exact absurd rfl hend

end Token

namespace Layout

theorem Marks.mem {tail : Tail} {raw out : List Token} (h : Marks tail raw out) :
    ∀ t ∈ out, t ∈ raw ∨ t.kind.isLayout ∧ t.text = "" := by
  intro t ht
  induction h with
  | nil => cases ht
  | token _ ih =>
    rcases List.mem_cons.1 ht with rfl | ht
    · exact .inl List.mem_cons_self
    · exact (ih ht).imp_left (.tail _)
  | indent _ ih =>
    rcases List.mem_cons.1 ht with rfl | ht
    · exact .inr ⟨rfl, rfl⟩
    · exact ih ht
  | dedent _ ih =>
    rcases List.mem_cons.1 ht with rfl | ht
    · exact .inr ⟨rfl, rfl⟩
    · exact ih ht

theorem dropOpeners_sublist (tokens : List Token) : (dropOpeners tokens).Sublist tokens := by
  fun_induction dropOpeners tokens with
  | case1 => exact .slnil
  | case2 t rest _ ih => exact ih.cons t
  | case3 t rest _ ih => exact ih.cons_cons t

/-- What the grammar sees was written, and is no trivia, or it is a mark of the layout. -/
theorem mem_tokenize {source : String} {tokens : List Token}
    (h : Token.tokenize source = .ok tokens) : ∃ raw, Token.scan Kind.written source = .ok raw ∧
      ∀ t ∈ tokens, t ∈ raw ∧ t.kind.isTrivia = false ∨ t.kind.isLayout ∧ t.text = "" := by
  rw [Token.tokenize, Token.tokenizeWith] at h
  cases hraw : Token.scan Kind.written source with
  | error e =>
    rw [hraw] at h
    cases h
  | ok raw =>
    rw [hraw] at h
    obtain ⟨out, hout, rfl⟩ := ok_of_map h
    have hmarks : Marks .other raw out :=
      mark_marks (State.agrees_of_none rfl rfl _) (scan_unmarked hraw).1 hout
    refine ⟨raw, rfl, fun t ht => ?_⟩
    have hkept := List.mem_filter.1 ((dropOpeners_sublist _).subset ht)
    exact (hmarks.mem t hkept.1).imp_left fun hmem => ⟨hmem, by simpa using hkept.2⟩

end Layout

/-! ### Readers of literals -/

/-- The two readers read the same from texts up to the given length. -/
def SameUpTo (n : Nat) (reader reader' : TextReader) : Prop :=
  ∀ text span e, text.length ≤ n → (reader text span = .ok e ↔ reader' text span = .ok e)

/-- What agrees with the same reading up to the end of the file agrees. -/
theorem Agrees.eq_ok {α : Type} {s : Seam} {n : Nat} {r r' r'' : Except SyntaxError (α × Cursor)}
    (h : Agrees s n r r') (h' : Agrees s n r r'') {a : α} {c : Cursor} (hr : r' = .ok (a, c)) :
    r'' = .ok (a, c) := by
  cases h with
  | error e e' => cases hr
  | @ok a d hd =>
    cases hr
    generalize hended : (Except.ok (a, s.ended d) : Except SyntaxError (α × Cursor)) = r at h'
    cases h' with
    | error e e' => cases hended
    | @ok a' d' hd' =>
      obtain ⟨rfl, hcursor⟩ := Prod.mk.inj (Except.ok.inj hended)
      obtain ⟨hlast, hrest⟩ := Cursor.mk.inj hcursor
      have hd : d' = d := by
        cases d
        cases d'
        cases hlast
        cases List.append_cancel_right hrest
        rfl
      rw [hd]

namespace Parser

/-- An expression is the same for readers that read the same from its literals. -/
theorem expression_reader {reader reader' : TextReader} {c c' : Cursor} {e : Expr} (objects : Bool)
    (hend : ∃ t ∈ c.rest, t.kind = .endOfFile)
    (hreader : ∀ t ∈ c.rest, t.kind ≠ .endOfFile →
      ∀ e, reader t.text t.span = .ok e ↔ reader' t.text t.span = .ok e)
    (h : expression reader c.rest.length objects c = .ok (e, c')) :
    expression reader' c.rest.length objects c = .ok (e, c') := by
  have hfind : (c.rest.find? (·.kind = .endOfFile)).isSome := by
    simpa [List.find?_isSome] using hend
  obtain ⟨eof, heof⟩ := Option.isSome_iff_exists.1 hfind
  obtain ⟨hkind, front, tail, hrest, hfront⟩ := List.find?_eq_some_iff_append.1 heof
  have hkind : eof.kind = .endOfFile := by simpa using hkind
  have hfront : ∀ t ∈ front, t.kind ≠ .endOfFile := by simpa using hfront
  -- the tokens up to the end of the file, which is the seam as well
  let s : Seam := ⟨front, eof, eof, tail, hfront, hkind, by rw [hkind]; decide⟩
  have hjoined : c = s.joined ⟨c.last, front⟩ := by
    show c = ⟨c.last, front ++ eof :: tail⟩
    rw [← hrest]
  have hwithin : s.Within (front.length + 1) ⟨c.last, front⟩ :=
    ⟨List.suffix_refl _, Nat.lt_succ_self _⟩
  have hle : front.length + 1 ≤ c.rest.length := by simp [hrest]
  have hboth : s.Agree 1 (front.length + 1) (expression reader' c.rest.length objects)
      (expression reader c.rest.length objects) :=
    Seam.agree_expression (fun t ht e => (hreader t (hrest ▸ List.mem_append_left _ ht)
      (hfront t ht) e).symm) objects hle hle
  have hself : s.Agree 1 (front.length + 1) (expression reader' c.rest.length objects)
      (expression reader' c.rest.length objects) :=
    Seam.agree_expression (fun _ _ _ => Iff.rfl) objects hle hle
  have hagrees := hboth _ _ (Nat.le_refl _) hwithin
  have hagrees' := hself _ _ (Nat.le_refl _) hwithin
  rw [← hjoined] at hagrees hagrees'
  exact hagrees.eq_ok hagrees' h

theorem wholeExpression_eq_ok {reader : TextReader} {budget : Nat} {c c' : Cursor} {e : Expr} :
    wholeExpression reader budget c = .ok (e, c') ↔
      expression reader budget true c = .ok (e, c') ∧ c'.here.kind = .endOfFile := by
  rw [wholeExpression, bind_eq_ok]
  constructor
  · rintro ⟨a, d, hexpr, hd⟩
    rw [kind_bind] at hd
    split at hd
    · cases hd
      exact ⟨hexpr, ‹_›⟩
    · cases hd
  · rintro ⟨hexpr, hend⟩
    refine ⟨e, c', hexpr, ?_⟩
    rw [kind_bind, if_pos hend]
    rfl

end Parser

/-- The tokens of a source come to an end. -/
theorem Cursor.exists_endOfFile (tokens : List Token) :
    ∃ t ∈ (Cursor.ofTokens tokens).rest, t.kind = .endOfFile := by
  unfold ofTokens
  split
  · exact ⟨_, List.mem_singleton_self _, rfl⟩
  · rename_i t ht
    dsimp only
    split
    · exact ⟨t, List.mem_of_getLast? ht, ‹_›⟩
    · exact ⟨_, List.mem_append_right _ (List.mem_singleton_self _), rfl⟩

theorem Cursor.mem_of_mem_ofTokens {tokens : List Token} {t : Token}
    (h : t ∈ (Cursor.ofTokens tokens).rest) (hk : t.kind ≠ .endOfFile) : t ∈ tokens := by
  have hsub : [t].Sublist (Cursor.ofTokens tokens).rest := List.singleton_sublist.2 h
  exact List.singleton_sublist.1 (Cursor.sublist_ofTokens hsub (by simpa using hk))

/-- An expression read from a source is the same for readers that read the same from texts no longer
than the source. -/
theorem readWhole_same {reader reader' : TextReader} {source : String} {tokens : List Token}
    {e : Expr} {c : Cursor} (hsame : SameUpTo source.length reader reader')
    (htokens : Token.tokenize source = .ok tokens)
    (h : Parser.wholeExpression reader (Cursor.ofTokens tokens).rest.length (Cursor.ofTokens tokens) =
      .ok (e, c)) :
    Parser.wholeExpression reader' (Cursor.ofTokens tokens).rest.length (Cursor.ofTokens tokens) =
      .ok (e, c) := by
  obtain ⟨raw, hraw, hmem⟩ := Layout.mem_tokenize htokens
  rw [Parser.wholeExpression_eq_ok] at h ⊢
  refine ⟨Parser.expression_reader true (Cursor.exists_endOfFile tokens) (fun t ht hk e => ?_) h.1, h.2⟩
  refine hsame t.text t.span e ?_
  rcases hmem t (Cursor.mem_of_mem_ofTokens ht hk) with ⟨ht, -⟩ | ⟨-, htext⟩
  · exact Token.length_text_le hraw t ht hk
  · rw [htext]
    exact Nat.zero_le _

theorem readHole_eq_ok {reader : TextReader} {body : String} {e : Expr} :
    readHole reader body = .ok e ↔ Text.allBlank body.toList = false ∧ ∃ tokens c,
      Token.tokenize body = .ok tokens ∧ Parser.wholeExpression reader
        (Cursor.ofTokens tokens).rest.length (Cursor.ofTokens tokens) = .ok (e, c) := by
  unfold readHole
  by_cases hblank : Text.allBlank body.toList
  · simp [hblank]
  · rw [if_neg hblank]
    cases htokens : Token.tokenize body with
    | error e => simp
    | ok tokens =>
      dsimp only
      cases hread : Parser.wholeExpression reader (Cursor.ofTokens tokens).rest.length
          (Cursor.ofTokens tokens) with
      | error e => simp [hread]
      | ok x => simp [hread, hblank, Prod.ext_iff]

theorem Expr.parse_eq_ok {source : String} {e : Expr} :
    Expr.parse source = .ok e ↔ ∃ tokens c, Token.tokenize source = .ok tokens ∧
      Parser.wholeExpression readLiteral (Cursor.ofTokens tokens).rest.length
        (Cursor.ofTokens tokens) = .ok (e, c) := by
  unfold Expr.parse
  cases htokens : Token.tokenize source with
  | error e => simp
  | ok tokens =>
    dsimp only [Expr.ofTokens]
    cases hread : Parser.wholeExpression readLiteral (Cursor.ofTokens tokens).rest.length
        (Cursor.ofTokens tokens) with
    | error e => simp [hread, mapError_eq_ok]
    | ok x => simp [hread, mapError_eq_ok, Prod.ext_iff]

/-! ### Depth -/

theorem Piece.closeBrace_eq_some {cs : List Char} : ∀ {inner : Nat} {body after : List Char},
    closeBrace inner cs = some (body, after) → cs = body ++ '\x7d' :: after := by
  induction cs with
  | nil => intro inner body after h; cases h
  | cons c rest ih =>
    intro inner body after h
    have hstep {k : Nat} (h : (closeBrace k rest).map (fun p => (c :: p.1, p.2)) = some (body, after)) :
        c :: rest = body ++ '\x7d' :: after := by
      obtain ⟨⟨b, a⟩, hb, heq⟩ := Option.map_eq_some_iff.1 h
      obtain ⟨rfl, rfl⟩ := Prod.mk.inj heq
      rw [ih hb]
      rfl
    unfold closeBrace at h
    split at h
    · exact hstep h
    · split at h
      · rename_i hclose
        split at h
        · obtain ⟨rfl, rfl⟩ := Prod.mk.inj (Option.some.inj h)
          rw [hclose]
          rfl
        · exact hstep h
      · exact hstep h

/-- The text of an expression is shorter than the literal that it lies in. -/
theorem Piece.length_of_mem_split {cs : List Char} {body : String} (h : hole body ∈ split cs) :
    body.length + 3 ≤ cs.length := by
  fun_induction split cs with
  | case1 => cases h
  | case2 c => simp at h
  | case3 c d tail hopen hnone => simp at h
  | case4 c d tail hopen text after hclose ih =>
    have hlength : tail.length = text.length + after.length + 1 := by
      rw [closeBrace_eq_some hclose, List.length_append, List.length_cons, Nat.add_assoc]
    rcases List.mem_cons.1 h with hbody | hrest
    · cases hbody
      simp only [List.length_cons, String.length_ofList]
      omega
    · have hle := ih hrest
      simp only [List.length_cons]
      omega
  | case5 c d tail hopen hword ih =>
    have hle := ih (by simpa using h)
    have hdrop := (List.dropWhile_suffix (l := tail) Text.isWordChar).length_le
    simp only [List.length_cons]
    omega
  | case6 c d tail hopen hword ih =>
    have hle := ih (by simpa using h)
    simp only [List.length_cons] at hle ⊢
    omega

theorem Template.extend_mono {read read' : String → Except SyntaxCause Expr} :
    ∀ {pieces : List Piece} {t t' : Template},
      (∀ body e, .hole body ∈ pieces → read body = .ok e → read' body = .ok e) →
      t.extend read pieces = .ok t' → t.extend read' pieces = .ok t'
  | [], _, _, _, h => h
  | .plain c :: rest, _, _, hread, h => by
    rw [extend] at h ⊢
    exact extend_mono (fun body e hb => hread body e (.tail _ hb)) h
  | .reference name :: rest, _, _, hread, h => by
    rw [extend] at h ⊢
    exact extend_mono (fun body e hb => hread body e (.tail _ hb)) h
  | .hole body :: rest, t, t', hread, h => by
    rw [extend] at h ⊢
    cases hbody : read body with
    | error cause =>
      rw [hbody] at h
      cases h
    | ok e =>
      rw [hbody] at h
      rw [hread body e List.mem_cons_self hbody]
      exact extend_mono (fun body e hb => hread body e (.tail _ hb)) h
  | .openHole _ :: _, _, _, _, h => by cases h

theorem readText_succ {d : Nat} {text : String} {span : Span} {e : Expr} :
    readText (d + 1) text span = .ok e ↔ ∃ t, Template.ofText (readHole (readText d)) text = .ok t ∧
      e = .text t.text t.names t.holes span := by
  rw [readText]
  cases Template.ofText (readHole (readText d)) text with
  | error cause => simp
  | ok t => simp [eq_comm]

/-- The depth allowed for literals in one another makes no difference if it is more than the length
of the text. -/
theorem readText_depth : ∀ {d d' : Nat} {text : String} {span : Span} {e : Expr}, text.length < d →
    text.length < d' → readText d text span = .ok e → readText d' text span = .ok e
  | d + 1, d' + 1, text, span, e, hd, hd', h => by
    rw [readText_succ] at h ⊢
    obtain ⟨t, ht, rfl⟩ := h
    refine ⟨t, Template.extend_mono (fun body e hbody hread => ?_) ht, rfl⟩
    have hshort := Piece.length_of_mem_split hbody
    rw [String.length_toList] at hshort
    have hsame : SameUpTo body.length (readText d) (readText d') := fun text span e hlength =>
      ⟨readText_depth (by omega) (by omega), readText_depth (by omega) (by omega)⟩
    rw [readHole_eq_ok] at hread ⊢
    obtain ⟨hblank, tokens, c, htokens, hwhole⟩ := hread
    exact ⟨hblank, tokens, c, htokens, readWhole_same hsame htokens hwhole⟩
termination_by d d' => d + d'

theorem sameUpTo_readText {n d : Nat} (hn : n < d) : SameUpTo n readLiteral (readText d) := by
  intro text span e hlength
  have hlt : text.length < text.length + 1 := Nat.lt_succ_self _
  exact ⟨readText_depth hlt (by omega), readText_depth (by omega) hlt⟩

/-! ### Blank texts -/

namespace Parser

theorem tiers_error {operand : Parser Expr} {c : Cursor} {e : SyntaxError} (h : operand c = .error e)
    (budget : Nat) : ∀ tiers, List.foldr (tier budget) operand tiers c = .error e
  | [] => h
  | operators :: tiers => by
    show (List.foldr (tier budget) operand tiers c >>= _) = _
    rw [tiers_error h budget tiers]
    rfl

/-- No expression begins at a mark of the layout or at the end of the file. -/
theorem expression_error (reader : TextReader) (objects : Bool) {c : Cursor}
    (h : c.here.kind.isLayout ∨ c.here.kind = .endOfFile) :
    ∀ budget, ∃ e, expression reader budget objects c = .error e
  | 0 => ⟨_, rfl⟩
  | budget + 1 => by
    have hkind : c.here.kind = .indent ∨ c.here.kind = .dedent ∨ c.here.kind = .endOfFile := by
      revert h
      cases c.here.kind <;> simp [Kind.isLayout]
    have hprimary : primary reader (expression reader budget) budget objects c =
        .error ⟨.unexpected c.here "an expression", c.here.span⟩ := by
      rw [primary, peek_bind]
      rcases hkind with hk | hk | hk <;> rw [hk] <;> rfl
    have hmembers : (primary reader (expression reader budget) budget objects >>= fun e =>
        members (expression reader budget) budget e) c =
        .error ⟨.unexpected c.here "an expression", c.here.span⟩ := by
      show (primary reader (expression reader budget) budget objects c >>= _) = _
      rw [hprimary]
      rfl
    have hsign : UnaryOp.ofKind? c.here.kind = none := by
      rcases hkind with hk | hk | hk <;> rw [hk] <;> rfl
    have hoperand : operand reader (expression reader budget) budget objects c =
        .error ⟨.unexpected c.here "an expression", c.here.span⟩ :=
      Seam.powers_error (Seam.signed_error hsign hmembers budget) budget
    refine ⟨⟨.unexpected c.here "an expression", c.here.span⟩, ?_⟩
    show (operation reader (expression reader budget) budget objects c >>= _) = _
    rw [operation, tiers_error hoperand budget]
    rfl

end Parser

/-- A blank text is no expression. -/
theorem Expr.not_blank_of_parse {source : String} {e : Expr} (h : Expr.parse source = .ok e) :
    Text.allBlank source.toList = false := by
  obtain ⟨tokens, c, htokens, hwhole⟩ := Expr.parse_eq_ok.1 h
  obtain ⟨raw, hraw, hmem⟩ := Layout.mem_tokenize htokens
  cases hblank : Text.allBlank source.toList with
  | false => rfl
  | true =>
    have hhere : (Cursor.ofTokens tokens).here.kind.isLayout ∨
        (Cursor.ofTokens tokens).here.kind = .endOfFile := by
      by_cases hend : (Cursor.ofTokens tokens).here.kind = .endOfFile
      · exact .inr hend
      have hhere : (Cursor.ofTokens tokens).here ∈ (Cursor.ofTokens tokens).rest := by
        rw [Cursor.rest_eq_of_kind rfl hend]
        exact List.mem_cons_self
      rcases hmem _ (Cursor.mem_of_mem_ofTokens hhere hend) with ⟨hmem, htrivia⟩ | ⟨hlayout, -⟩
      · rcases Token.scanFrom_blank hblank hraw _ hmem with ht | ht
        · rw [htrivia] at ht
          cases ht
        · exact .inr ht
      · exact .inl hlayout
    obtain ⟨e', he⟩ := Parser.expression_error readLiteral true hhere _
    rw [(Parser.wholeExpression_eq_ok.1 hwhole).1] at he
    cases he

/-! ### Literals -/

/-- The text of an expression is read in a literal as it is on its own. -/
theorem readHole_of_parse {body : String} {e : Expr} {d : Nat} (h : Expr.parse body = .ok e)
    (hd : body.length < d) : readHole (readText d) body = .ok e := by
  obtain ⟨tokens, c, htokens, hwhole⟩ := Expr.parse_eq_ok.1 h
  exact readHole_eq_ok.2 ⟨Expr.not_blank_of_parse h, tokens, c, htokens,
    readWhole_same (sameUpTo_readText hd) htokens hwhole⟩

/-- A literal with legible parts is a template with their expressions. -/
theorem Piece.Legible.readLiteral {pieces : List Piece} {holes : List Expr}
    (h : Legible pieces holes) (span : Span) :
    ∃ names, Sable.readLiteral (source pieces) span =
        .ok (.text (String.ofList (marked 0 pieces)) names holes span) ∧
      ∀ name, Piece.reference name ∈ pieces → name ∈ names := by
  have hread (body : String) (e : Expr) (hbody : Piece.hole body ∈ pieces)
      (he : Expr.parse body = .ok e) :
      readHole (readText (source pieces).length) body = .ok e := by
    refine readHole_of_parse he ?_
    rw [← h.split_written] at hbody
    have hshort := length_of_mem_split hbody
    rw [source, String.length_ofList]
    omega
  have htemplate : Template.ofText (readHole (readText (source pieces).length)) (source pieces) =
      .ok ⟨String.ofList (marked 0 pieces), (pieces.filterMap (·.reference?)).eraseDups, holes⟩ := by
    rw [Template.ofText]
    nth_rewrite 2 [source]
    rw [String.toList_ofList, h.split_written, h.extend hread]
  refine ⟨_, readText_succ.2 ⟨_, htemplate, rfl⟩, fun name hname => ?_⟩
  exact List.mem_eraseDups.2 (List.mem_filterMap.2 ⟨_, hname, rfl⟩)

end Sable
