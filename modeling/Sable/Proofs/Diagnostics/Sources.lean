import Mathlib.Data.List.TakeWhile
import Sable.Proofs.Layout.Marks
import Sable.Proofs.Reading.Statements
import Sable.Proofs.Scanning.Blanks

/-!
# Errors point into the source

The span of an error of `Program.parse` lies in the bytes of the source, with one exception. The span
for a line that returns to no enclosing level starts as many bytes before its text as the line is wide,
where a tab counts as four columns and is one byte. With tabs it starts too early, and it may end behind
the source.
-/

namespace Sable

/-! ### Tokens and the text they were cut from -/

namespace Token

/-- The tokens are cut from `cs`, one after another, where `before` is the source up to there. -/
inductive Scans (kinds : List Kind) : (before cs : List Char) → (tokens : List Token) → Prop
  | nil {before : List Char} : Scans kinds before [] [endAt (Loc.start.after before)]
  | cons {before cs : List Char} {kind : Kind} {n : Nat} {tokens : List Token}
      (hmatch : firstMatch kinds cs = some (kind, n))
      (h : Scans kinds (before ++ cs.take n) (cs.drop n) tokens) :
      Scans kinds before cs (⟨kind, textOf kind (cs.take n),
        ⟨Loc.start.after before, Loc.start.after (before ++ cs.take n)⟩⟩ :: tokens)

variable {kinds : List Kind} {before cs : List Char} {tokens : List Token}

theorem scanFrom_scans (h : scanFrom kinds (Loc.start.after before) cs = .ok tokens) :
    Scans kinds before cs tokens := by
  induction cs using scan_induction kinds generalizing before tokens with
  | nil =>
    rw [scanFrom] at h
    cases h
    exact .nil
  | stuck c rest hmatch =>
    rw [scanFrom_eq_error hmatch] at h
    cases h
  | token c rest kind n hmatch ih =>
    rw [scanFrom_cons hmatch, ← Loc.after_append] at h
    obtain ⟨tail, htail, rfl⟩ := Layout.ok_of_map h
    exact .cons hmatch (ih htail)

/-- Every token lies in the source. -/
theorem Scans.inside (h : Scans kinds before cs tokens) :
    ∀ t ∈ tokens, t.span.Below (String.utf8Len (before ++ cs)) := by
  induction h with
  | @nil before =>
    intro t ht
    rw [List.mem_singleton.1 ht, List.append_nil]
    exact ⟨(Loc.start_after_offset before).le, (Loc.start_after_offset before).le⟩
  | @cons before cs kind n tokens _ _ ih =>
    have hwhole : before ++ cs.take n ++ cs.drop n = before ++ cs := by
      rw [List.append_assoc, List.take_append_drop]
    rw [hwhole] at ih
    intro t ht
    rcases List.mem_cons.1 ht with rfl | ht
    · have hstop : String.utf8Len (before ++ cs.take n) ≤ String.utf8Len (before ++ cs) :=
        String.utf8Len_le_of_prefix ⟨cs.drop n, hwhole⟩
      refine ⟨?_, ?_⟩
      · rw [Loc.start_after_offset]
        exact (String.utf8Len_le_of_prefix (List.prefix_append before (cs.take n))).trans hstop
      · rwa [Loc.start_after_offset]
    · exact ih t ht

end Token

namespace Layout

/-! ### Layout tokens stand at tokens of the source -/

section Spans

variable {P : Span → Prop} {s : State} {t : Token} {raw out : List Token}

theorem closing_spans (levels : List Level) {span : Span} (h : P span) :
    ∀ t ∈ closing levels span, P t.span := by
  intro t ht
  obtain ⟨_, _, rfl⟩ := List.mem_map.1 ht
  exact h

theorem enter_spans {levels levels' : List Level} {width : Nat} {opener : Option Nat} {span : Span}
    {markers : List Token} (h : enter levels width opener span = .ok (markers, levels'))
    (hspan : P span) : ∀ t ∈ markers, P t.span := by
  unfold enter at h
  split at h
  · split at h
    · cases h
      exact fun t ht => absurd ht List.not_mem_nil
    · cases h
      intro t ht
      rw [List.mem_singleton.1 ht]
      exact hspan
  · dsimp only at h
    split at h
    · cases h
      exact closing_spans _ hspan
    · cases h

theorem State.pass_spans (s : State) (ht : P t.span) : ∀ t' ∈ (s.pass t).1, P t'.span := by
  have hself : ∀ t' ∈ [t], P t'.span := by
    intro t' ht'
    rwa [List.mem_singleton.1 ht']
  unfold State.pass
  split
  · exact hself
  · intro t' ht'
    rcases List.mem_append.1 ht' with ht' | ht'
    · exact closing_spans _ ht t' ht'
    · exact hself t' ht'
  all_goals exact hself

theorem lineHead_mem {first : Token} (h : lineHead raw = some first) : first ∈ raw := by
  cases raw with
  | nil => cases h
  | cons t rest =>
    have hfirst := (Option.filter_eq_some_iff.1 h).1
    split at hfirst
    · exact List.mem_cons_of_mem t (List.mem_of_mem_head? hfirst)
    · cases hfirst
      exact List.mem_cons_self

theorem mark_spans (hraw : ∀ t ∈ raw, P t.span) (h : mark s raw = .ok out) :
    ∀ t ∈ out, P t.span := by
  induction raw generalizing s out with
  | nil =>
    cases h
    exact hraw
  | cons t rest ih =>
    have ht := hraw t List.mem_cons_self
    have hrest : ∀ t' ∈ rest, P t'.span := fun t' ht' => hraw t' (List.mem_cons_of_mem t ht')
    unfold mark at h
    split at h
    · obtain ⟨out', hout', rfl⟩ := ok_of_map h
      exact List.forall_mem_append.2 ⟨s.pass_spans ht, ih hrest hout'⟩
    · rename_i first hfirst
      dsimp only at h
      split at h
      · cases h
      · rename_i markers levels henter
        have hhead := (Option.ite_none_right_eq_some.1 hfirst).2
        have hmarkers := enter_spans henter (hraw first (lineHead_mem hhead))
        split at h
        · obtain ⟨out', hout', rfl⟩ := ok_of_map h
          exact List.forall_mem_append.2 ⟨List.forall_mem_cons.2 ⟨ht, hmarkers⟩, ih hrest hout'⟩
        · obtain ⟨out', hout', rfl⟩ := ok_of_map h
          exact List.forall_mem_append.2
            ⟨List.forall_mem_append.2 ⟨hmarkers, State.pass_spans _ ht⟩, ih hrest hout'⟩

theorem dropOpeners_subset (tokens : List Token) : dropOpeners tokens ⊆ tokens := by
  fun_induction dropOpeners tokens with
  | case1 => exact List.Subset.refl _
  | case2 t rest _ ih => exact fun t' ht' => List.mem_cons_of_mem t (ih ht')
  | case3 t rest _ ih => exact List.cons_subset_cons t ih

theorem tidy_subset (tokens : List Token) : tidy tokens ⊆ tokens :=
  fun _ ht => List.mem_of_mem_filter (dropOpeners_subset _ ht)

end Spans

/-! ### Lines at no enclosing depth -/

/-- `before` is the source up to a line, `blanks` are all the blanks in front of that line's text,
and the text begins `rest`. -/
structure Indented (source before blanks rest : List Char) : Prop where
  split : source = before ++ blanks ++ rest
  lineStart : before = [] ∨ before.getLast? = some '\n'
  blank : ∀ c ∈ blanks, c = ' ' ∨ c = '\t'
  text : rest.head?.any (!Text.isBlank ·)

/-- A line without blanks in front of it is at the outermost depth, to which all text may return. -/
theorem width_pos_of_enter {levels : List Level} {columns : Nat} {opener : Option Nat} {span : Span}
    {e : LexError} (h : enter levels columns opener span = .error e) :
    0 < columns ∧ e = .indentation columns span.start := by
  unfold enter at h
  split at h
  · split at h <;> cases h
  · dsimp only at h
    split at h
    · cases h
    · rename_i hkept
      cases h
      refine ⟨Nat.pos_of_ne_zero ?_, rfl⟩
      rintro rfl
      refine hkept ?_
      cases hdrop : levels.dropWhile (0 < ·.width) with
      | nil => rfl
      | cons level kept =>
        have hlevel := List.head?_dropWhile_not (fun level : Level => decide (0 < level.width)) levels
        rw [hdrop] at hlevel
        simpa [top] using hlevel

/-- What a text takes more in columns than in characters, it takes for its tabs. -/
theorem width_ofList (cs : List Char) : width (String.ofList cs) = cs.length + 3 * cs.count '\t' := by
  have hfold (start : Nat) : cs.foldl (fun columns c => columns + if c == '\t' then 4 else 1) start =
      start + cs.length + 3 * cs.count '\t' := by
    induction cs generalizing start with
    | nil => rfl
    | cons c cs ih =>
      rw [List.foldl_cons, ih, List.length_cons, List.count_cons]
      split <;> omega
  rw [width, String.toList_ofList, hfold, Nat.zero_add]

/-- A new line comes only behind the end of another. -/
theorem State.kind_of_fresh {s : State} {t : Token} (h : (s.pass t).2.fresh = true) :
    t.kind = .newline := by
  unfold State.pass at h
  split at h
  · assumption
  all_goals cases h

theorem getLast?_newline {cs : List Char} (h : 0 < Lexeme.newline cs) (before : List Char) :
    (before ++ cs.take (Lexeme.newline cs)).getLast? = some '\n' := by
  unfold Lexeme.newline at h ⊢
  split at h
  · simp
  · simp
  · exact absurd h (Nat.lt_irrefl 0)

theorem error_of_map {ε α β : Type} {x : Except ε α} {f : α → β} {e : ε} (h : x.map f = .error e) :
    x = .error e := by
  cases x with
  | error e' => exact congrArg Except.error (Except.error.inj h)
  | ok a => cases h

section Scanned

open Token

variable {kinds : List Kind} {before cs : List Char} {raw : List Token} {s : State} {e : LexError}

/-- Blanks are followed by something else. -/
theorem not_blank_of_match {kind : Kind} {n : Nat} (hkind : kind ≠ .newline ∧ kind ≠ .comment)
    (h : firstMatch kinds (cs.dropWhile Lexeme.isSpace) = some (kind, n)) :
    (cs.dropWhile Lexeme.isSpace).head?.any (!Text.isBlank ·) := by
  have hhead := List.head?_dropWhile_not Lexeme.isSpace cs
  have hreach := firstMatch_pos h
  obtain ⟨-, rfl⟩ := firstMatch_eq_some h
  cases hrest : cs.dropWhile Lexeme.isSpace with
  | nil =>
    rw [hrest, Kind.reach_nil] at hreach
    exact absurd hreach (Nat.lt_irrefl 0)
  | cons c rest =>
    rw [hrest] at hhead hreach
    rw [List.head?_cons, Option.any_some, Bool.not_eq_true']
    by_contra hblank
    have htrivia := Kind.isTrivia_of_blank (Bool.eq_true_of_not_eq_false hblank) hreach
    cases kind with
    | newline => exact hkind.1 rfl
    | comment => exact hkind.2 rfl
    | space =>
      have hnone : Lexeme.space (c :: rest) = 0 := by
        rw [Lexeme.space, List.takeWhile_cons_of_neg (by simpa using hhead), List.length_nil]
      exact absurd hreach (Nat.not_lt.2 hnone.le)
    | _ => cases htrivia

/-- What is in front of the first text of a line, and where that text begins. -/
theorem indented_of_lineHead {kind : Kind} {n : Nat} {span : Span} {first : Token}
    (hstart : before = [] ∨ before.getLast? = some '\n')
    (hmatch : firstMatch kinds cs = some (kind, n))
    (hrest : Scans kinds (before ++ cs.take n) (cs.drop n) raw)
    (hhead : lineHead (⟨kind, textOf kind (cs.take n), span⟩ :: raw) = some first)
    (hpos : 0 < leading (⟨kind, textOf kind (cs.take n), span⟩ :: raw)) :
    ∃ blanks rest, Indented (before ++ cs) before blanks rest ∧
      first.span.start = Loc.start.after (before ++ blanks) ∧
      leading (⟨kind, textOf kind (cs.take n), span⟩ :: raw) = width (String.ofList blanks) := by
  -- only blanks have a width
  obtain rfl : kind = .space := by
    by_contra hne
    rw [leading, if_neg hne] at hpos
    exact Nat.lt_irrefl 0 hpos
  obtain ⟨-, rfl⟩ := firstMatch_eq_some hmatch
  have hsplit := List.takeWhile_append_dropWhile (p := Lexeme.isSpace) (l := cs)
  have htake : cs.take (Kind.space.reach cs) = cs.takeWhile Lexeme.isSpace :=
    (List.prefix_iff_eq_take.1 (List.takeWhile_prefix _)).symm
  have hdrop : cs.drop (Kind.space.reach cs) = cs.dropWhile Lexeme.isSpace := by
    rw [← List.append_cancel_left_eq (cs.takeWhile Lexeme.isSpace), hsplit, ← htake,
      List.take_append_drop]
  obtain ⟨hfirst, hkind⟩ := Option.filter_eq_some_iff.1 hhead
  rw [if_pos rfl] at hfirst
  rw [hdrop, htake] at hrest
  have hblank : ∀ c ∈ cs.takeWhile Lexeme.isSpace, c = ' ' ∨ c = '\t' := by
    intro c hc
    simpa [Lexeme.isSpace] using List.mem_takeWhile_imp hc
  have hcolumns : leading (⟨.space, textOf .space (cs.take (Kind.space.reach cs)), span⟩ :: raw) =
      width (String.ofList (cs.takeWhile Lexeme.isSpace)) := by
    rw [htake]
    rfl
  generalize htext : cs.dropWhile Lexeme.isSpace = text at hrest
  -- behind the blanks there is a token, or the source ends and the line has no head
  cases hrest with
  | nil =>
    cases hfirst
    cases hkind
  | cons hmatch' _ =>
    cases hfirst
    rw [← htext] at hmatch'
    simp only [Bool.not_eq_true', Bool.or_eq_false_iff, beq_eq_false_iff_ne] at hkind
    have htextHead := not_blank_of_match hkind.1 hmatch'
    refine ⟨cs.takeWhile Lexeme.isSpace, cs.dropWhile Lexeme.isSpace, ?_, rfl, hcolumns⟩
    exact ⟨by rw [List.append_assoc, hsplit], hstart, hblank, htextHead⟩

/-- An error of the pass is about a line of the source: it gives the columns of the blanks in
front of the text of this line, and where that text begins. -/
theorem mark_error (h : Scans kinds before cs raw)
    (hs : s.fresh → before = [] ∨ before.getLast? = some '\n') (herror : mark s raw = .error e) :
    ∃ before' blanks rest, Indented (before ++ cs) before' blanks rest ∧
      e = .indentation (width (String.ofList blanks)) (Loc.start.after (before' ++ blanks)) := by
  -- the pass comes to a new line only where a line has ended in the text
  induction h generalizing s with
  | nil =>
    unfold mark at herror
    split at herror
    · cases herror
    · rename_i first hfirst
      cases (Option.ite_none_right_eq_some.1 hfirst).2
  | @cons before cs kind n tokens hmatch hrest ih =>
    have hwhole : before ++ cs.take n ++ cs.drop n = before ++ cs := by
      rw [List.append_assoc, List.take_append_drop]
    rw [hwhole] at ih
    have hfresh (s : State) (text : String) (span : Span) (hnew : (s.pass ⟨kind, text, span⟩).2.fresh) :
        before ++ cs.take n = [] ∨ (before ++ cs.take n).getLast? = some '\n' := by
      obtain rfl : kind = .newline := State.kind_of_fresh hnew
      obtain ⟨-, rfl⟩ := firstMatch_eq_some hmatch
      exact .inr (getLast?_newline (firstMatch_pos hmatch) before)
    unfold mark at herror
    split at herror
    · exact ih (hfresh s _ _) (error_of_map herror)
    · rename_i first hfirst
      obtain ⟨hline, hhead⟩ := Option.ite_none_right_eq_some.1 hfirst
      dsimp only at herror
      split at herror
      · rename_i e' henter
        cases herror
        obtain ⟨hpos, rfl⟩ := width_pos_of_enter henter
        obtain ⟨blanks, rest, hindented, hloc, hcolumns⟩ :=
          indented_of_lineHead (hs hline) hmatch hrest hhead hpos
        exact ⟨before, blanks, rest, hindented, by rw [hloc, hcolumns]⟩
      · split at herror
        · exact ih (fun hnew => absurd hnew Bool.false_ne_true) (error_of_map herror)
        · exact ih (hfresh _ _ _) (error_of_map herror)

end Scanned

end Layout

/-! ### Sources -/

open Layout

theorem Cursor.below_ofTokens {n : Nat} {tokens : List Token} (h : ∀ t ∈ tokens, t.span.Below n) :
    (Cursor.ofTokens tokens).Below n := by
  have hnowhere : Span.nowhere.Below n := ⟨Nat.zero_le n, Nat.zero_le n⟩
  have hlist {rest : List Token} (hrest : ∀ t ∈ rest, t.span.Below n) :
      Cursor.Below n ⟨(rest.headD (.endOfFile .nowhere)).span, rest⟩ := by
    refine ⟨?_, hrest⟩
    cases rest with
    | nil => exact hnowhere
    | cons t rest => exact hrest t List.mem_cons_self
  have hend (span : Span) (hspan : span.Below n) : ∀ t ∈ [Token.endOfFile span], t.span.Below n := by
    intro t ht
    rwa [List.mem_singleton.1 ht]
  unfold Cursor.ofTokens
  refine hlist ?_
  split
  · exact hend _ hnowhere
  · rename_i t ht
    split
    · exact h
    · exact List.forall_mem_append.2 ⟨h, hend _ (h t (List.mem_of_mem_getLast? ht))⟩

theorem Program.ofTokens_error {n : Nat} {file : String} {tokens : List Token} {e : SyntaxError}
    (htokens : ∀ t ∈ tokens, t.span.Below n) (h : Program.ofTokens file tokens = .error e) :
    e.span.Below n := by
  unfold Program.ofTokens at h
  dsimp only at h
  have hended := Reader.moves_program ((Cursor.ofTokens tokens).rest.length + 1)
    ⟨Cursor.ofTokens tokens, 0, []⟩ (Cursor.below_ofTokens htokens)
  generalize Reader.program _ _ = r at h hended
  cases hended with
  | ok => cases h
  | error he =>
    cases h
    exact he

/-- A source that cannot be cut into tokens has a character in it that begins none. -/
theorem Token.scan_error {kinds : List Kind} {source : String} {e : LexError}
    (h : Token.scan kinds source = .error e) :
    ∃ c loc, e = .unexpected c loc ∧ loc.offset + 1 ≤ source.utf8ByteSize := by
  obtain ⟨body, before, rest, hcut, hscan⟩ :=
    scanFrom_cutUp kinds (List.nil_append source.toList).symm
  have hfinish : finish body (Loc.start.after before) rest = .error e := hscan.symm.trans h
  cases rest with
  | nil => cases hfinish
  | cons c rest =>
    cases hfinish
    refine ⟨c, _, rfl, ?_⟩
    have hpos := c.utf8Size_pos
    rw [Loc.start_after_offset, ← String.utf8Len_toList, hcut.split, String.utf8Len_append,
      String.utf8Len_cons]
    omega

theorem Token.tokenize_spans {source : String} {tokens : List Token}
    (h : Token.tokenize source = .ok tokens) : ∀ t ∈ tokens, t.span.Below source.utf8ByteSize := by
  unfold Token.tokenize Token.tokenizeWith at h
  split at h
  · cases h
  · rename_i raw hraw
    obtain ⟨marked, hmarked, rfl⟩ := ok_of_map h
    have hscans : Token.Scans Kind.written [] source.toList raw := Token.scanFrom_scans hraw
    have hbelow := hscans.inside
    rw [List.nil_append, String.utf8Len_toList] at hbelow
    exact fun t ht => mark_spans hbelow hmarked t (tidy_subset marked ht)

theorem Span.Below.bytes_le {n : Nat} {s : Span} (h : s.Below n) : s.bytes.1 + s.bytes.2 ≤ n := by
  have hstart := h.start
  have hstop := h.stop
  simp only [Span.bytes, Span.length]
  omega

/-- The blanks are as many bytes as characters. -/
theorem Layout.Indented.utf8Len_blanks {source before blanks rest : List Char}
    (h : Indented source before blanks rest) : String.utf8Len blanks = blanks.length := by
  have hblank := h.blank
  clear h
  induction blanks with
  | nil => rfl
  | cons c blanks ih =>
    have hc : c.utf8Size = 1 := by rcases hblank c List.mem_cons_self with rfl | rfl <;> rfl
    rw [String.utf8Len_cons, List.length_cons, hc, ih fun d hd => hblank d (List.mem_cons_of_mem c hd)]

section Indented

variable {source before blanks rest : List Char} (h : Indented source before blanks rest)
include h

theorem Layout.Indented.offset :
    (Loc.start.after (before ++ blanks)).offset = String.utf8Len before + blanks.length := by
  rw [Loc.start_after_offset, String.utf8Len_append, h.utf8Len_blanks]

/-- The columns are the bytes exactly where there is no tab. -/
theorem Layout.Indented.bytes_eq_iff :
    (LexError.indentation (width (String.ofList blanks)) (Loc.start.after (before ++ blanks))).bytes =
      (String.utf8Len before, String.utf8Len blanks) ↔ '\t' ∉ blanks := by
  rw [LexError.bytes, h.offset, width_ofList, h.utf8Len_blanks, Prod.mk.injEq,
    ← List.count_eq_zero (a := '\t')]
  omega

/-- Where there are too many tabs for the rest of the text the columns lead out of it. -/
theorem Layout.Indented.bytes_le_iff :
    (LexError.indentation (width (String.ofList blanks)) (Loc.start.after (before ++ blanks))).bytes.1 +
      (LexError.indentation (width (String.ofList blanks)) (Loc.start.after (before ++ blanks))).bytes.2
        ≤ String.utf8Len source ↔
      3 * blanks.count '\t' ≤ String.utf8Len before + String.utf8Len rest := by
  rw [LexError.bytes, h.offset, width_ofList, h.split, String.utf8Len_append, String.utf8Len_append,
    h.utf8Len_blanks]
  omega

end Indented

/-- The bytes that an error points at lie in the source. A line at no enclosing depth is pointed
at by exactly the blanks in front of its text, as long as none of them is a tab; with tabs among them
these are other bytes, and they are in the source as long as the rest of it makes up for the tabs. -/
theorem parse_error_points {file source : String} {e : SourceError}
    (h : Program.parse file source = .error e) :
    match e with
    | .lexical (.indentation _ loc) => ∃ before blanks rest,
        Indented source.toList before blanks rest ∧ loc = Loc.start.after (before ++ blanks) ∧
        (e.bytes = (String.utf8Len before, String.utf8Len blanks) ↔ '\t' ∉ blanks) ∧
        (e.bytes.1 + e.bytes.2 ≤ source.utf8ByteSize ↔
          3 * blanks.count '\t' ≤ String.utf8Len before + String.utf8Len rest)
    | _ => e.bytes.1 + e.bytes.2 ≤ source.utf8ByteSize := by
  unfold Program.parse at h
  split at h
  · rename_i error hlex
    cases h
    unfold Token.tokenize Token.tokenizeWith at hlex
    split at hlex
    · rename_i hscan
      cases hlex
      obtain ⟨c, loc, rfl, hbytes⟩ := Token.scan_error hscan
      exact hbytes
    · rename_i raw hraw
      have hscans : Token.Scans Kind.written [] source.toList raw := Token.scanFrom_scans hraw
      obtain ⟨before, blanks, rest, hindented, rfl⟩ :=
        mark_error hscans (fun _ => .inl rfl) (error_of_map hlex)
      rw [List.nil_append] at hindented
      rw [← String.utf8Len_toList]
      exact ⟨before, blanks, rest, hindented, rfl, hindented.bytes_eq_iff, hindented.bytes_le_iff⟩
  · rename_i tokens htokens
    cases hread : Program.ofTokens file tokens with
    | ok p =>
      rw [hread] at h
      cases h
    | error error =>
      rw [hread] at h
      cases h
      exact (Program.ofTokens_error (Token.tokenize_spans htokens) hread).bytes_le

/-- The third line returns to a depth between those of the first and the second. -/
def shallowReturn : String :=
  "if a:\n    b\n  c"

theorem shallowReturn_points : ∃ e, Program.parse "main" shallowReturn = .error e ∧
    e.bytes = (12, 2) ∧ match e with
    | .lexical (.indentation _ loc) => ∃ before blanks rest,
        Indented shallowReturn.toList before blanks rest ∧ loc = Loc.start.after (before ++ blanks) ∧
        (e.bytes = (String.utf8Len before, String.utf8Len blanks) ↔ '\t' ∉ blanks) ∧
        (e.bytes.1 + e.bytes.2 ≤ shallowReturn.utf8ByteSize ↔
          3 * blanks.count '\t' ≤ String.utf8Len before + String.utf8Len rest)
    | _ => False := by
  have hpoints : (match Program.parse "main" shallowReturn with
      | .error (.lexical (.indentation width loc)) =>
        decide ((LexError.indentation width loc).bytes = (12, 2))
      | _ => false) = true := by decide +kernel
  split at hpoints
  · rename_i width loc h
    exact ⟨_, h, of_decide_eq_true hpoints, parse_error_points h⟩
  · cases hpoints

/-- The same in tabs, deeper than the text is long. -/
def tabbedReturn : String :=
  "a:\n\t\t\t\t\t\tb\n\t\t\t\t\tc"

/-- The five tabs in front of the last line, eleven bytes into a text of seventeen, are pointed at by
its first twenty. -/
theorem tabbedReturn_points_outside : tabbedReturn.utf8ByteSize = 17 ∧
    Indented tabbedReturn.toList "a:\n\t\t\t\t\t\tb\n".toList "\t\t\t\t\t".toList ['c'] ∧
    ∃ e, Program.parse "main" tabbedReturn = .error e ∧ e.bytes = (0, 20) := by
  have hpoints : (match Program.parse "main" tabbedReturn with
      | .error (.lexical (.indentation width loc)) =>
        decide ((LexError.indentation width loc).bytes = (0, 20))
      | _ => false) = true := by decide +kernel
  refine ⟨by decide +kernel, ⟨by decide +kernel, by decide +kernel, by simp, by decide +kernel⟩, ?_⟩
  split at hpoints
  · rename_i width loc h
    exact ⟨_, h, of_decide_eq_true hpoints⟩
  · cases hpoints

end Sable
