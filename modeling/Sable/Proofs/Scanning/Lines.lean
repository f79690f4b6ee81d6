import Sable.Proofs.Scanning.LineEnds
import Sable.Proofs.Scanning.Longest

/-!
# Sources put together line by line

Two sources with a newline between them are cut into the tokens of the first, the line end and the
tokens of the second with `Token.shift`. A token that is complete at the end of a source is the same
when a newline follows. A text without its closing quote and a carriage return at the end are not
complete, but a source that ends in one of these does not scan.
-/

namespace Sable

/-! ### Complete tokens -/

namespace Lexeme

theorem quoteEnd_append {cs : List Char} {n : Nat} (h : quoteEnd cs = some n) (rest : List Char) :
    quoteEnd (cs ++ rest) = some n := by
  fun_induction quoteEnd cs generalizing n with
  | case1 | case4 => cases h
  | case2 => exact h
  | case3 c cs ih =>
    obtain ⟨k, hk, rfl⟩ := Option.map_eq_some_iff.1 h
    rw [List.cons_append, List.cons_append, quoteEnd, ih hk, Option.map_some]
  | case5 c cs hquote hpair hlone ih =>
    obtain ⟨k, hk, rfl⟩ := Option.map_eq_some_iff.1 h
    have hslash : c ≠ '\\' := by
      rintro rfl
      cases cs with
      | nil => exact hlone rfl rfl
      | cons d cs => exact hpair d cs rfl rfl
    rw [List.cons_append, quoteEnd, ih hk, Option.map_some]
    · exact hquote
    · exact fun _ _ hc _ => hslash hc
    · exact fun hc _ => hslash hc

theorem text_append {cs : List Char} (h : 0 < text cs) (rest : List Char) :
    text (cs ++ rest) = text cs := by
  unfold text at h
  split at h
  · rename_i cs
    split at h
    · rename_i n hn
      simp only [List.cons_append, text, hn, quoteEnd_append hn]
    · cases h
  · cases h

theorem newline_append {cs : List Char} (h : 0 < newline cs) (rest : List Char) :
    newline (cs ++ rest) = newline cs := by
  unfold newline at h
  split at h
  · rfl
  · rfl
  · cases h

end Lexeme

namespace Kind

variable {k k' : Kind} {cs rest : List Char}

/-- A token is not made longer by the lines below. -/
theorem reach_append (hrest : ∀ c ∈ rest.head?, Lexeme.isLineEnd c = true) (h : 0 < k.reach cs) :
    k.reach (cs ++ rest) = k.reach cs := by
  cases hk : k.withinLine with
  | true => exact reach_line hk hrest
  | false =>
    cases k with
    | newline => exact Lexeme.newline_append h rest
    | text => exact Lexeme.text_append h rest
    | _ => cases hk

/-- Texts and line ends begin like nothing else. -/
theorem eq_of_family (hk : k.withinLine = false) (h : k'.family = k.family) : k' = k := by
  cases k with
  | newline | text =>
    cases k' <;> cases h
    rfl
  | _ => cases hk

/-- Where one kind makes a token, the lines below do not help another to one. -/
theorem reach_append_pos_iff (hrest : ∀ c ∈ rest.head?, Lexeme.isLineEnd c = true) (h : 0 < k.reach cs) :
    0 < k'.reach (cs ++ rest) ↔ 0 < k'.reach cs := by
  refine ⟨fun hpos => ?_, fun hpos => by rwa [reach_append hrest hpos]⟩
  cases hk : k'.withinLine with
  | true => rwa [reach_line hk hrest] at hpos
  | false =>
    have hlonger : 0 < k.reach (cs ++ rest) := by rwa [reach_append hrest h]
    rwa [← eq_of_family hk (family_eq hlonger hpos)]

end Kind

namespace Token

theorem firstMatch_line {kinds : List Kind} {cs rest : List Char} {kind : Kind} {n : Nat}
    (hrest : ∀ c ∈ rest.head?, Lexeme.isLineEnd c = true)
    (h : firstMatch kinds cs = some (kind, n)) : firstMatch kinds (cs ++ rest) = some (kind, n) := by
  have hpos : 0 < kind.reach cs := by
    rw [← (firstMatch_eq_some h).2]
    exact firstMatch_pos h
  obtain ⟨hfirst, rfl⟩ := firstMatch_eq_some h
  unfold firstMatch
  simp only [Kind.reach_append_pos_iff hrest hpos, hfirst, Option.map_some, Kind.reach_append hrest hpos]

/-- The tokens of a source come first when it goes on behind a line end. -/
theorem scanFrom_line {kinds : List Kind} {loc : Loc} {cs : List Char} {tokens : List Token}
    (h : scanFrom kinds loc cs = .ok tokens) :
    ∃ body, tokens = body ++ [endAt (loc.after cs)] ∧
      ∀ rest : List Char, (∀ c ∈ rest.head?, Lexeme.isLineEnd c = true) →
        scanFrom kinds loc (cs ++ rest) = (scanFrom kinds (loc.after cs) rest).map (body ++ ·) := by
  fun_induction scanFrom kinds loc cs generalizing tokens with
  | case1 loc =>
    cases h
    refine ⟨[], rfl, fun rest _ => ?_⟩
    show scanFrom kinds loc rest = (scanFrom kinds loc rest).map id
    rw [Except.map_id, id]
  | case2 => cases h
  | case3 loc c cs kind n hmatch lexeme stop tail =>
    rename_i htail ih
    cases h
    obtain ⟨body, rfl, hscan⟩ := ih htail
    have hle : n ≤ (c :: cs).length := by
      rw [(firstMatch_eq_some hmatch).2]
      exact kind.reach_le _
    have hstop : stop.after ((c :: cs).drop n) = loc.after (c :: cs) := by
      rw [← Loc.after_append, List.take_append_drop]
    rw [hstop] at hscan ⊢
    refine ⟨_ :: body, rfl, fun rest hrest => ?_⟩
    have hmatch' := firstMatch_line hrest hmatch
    rw [List.cons_append] at hmatch' ⊢
    rw [scanFrom_cons hmatch', ← List.cons_append, List.take_append_of_le_length hle,
      List.drop_append_of_le_length hle, hscan rest hrest]
    cases scanFrom kinds (loc.after (c :: cs)) rest <;> rfl
  | case4 => cases h

end Token

/-! ### Further down -/

/-- The location some lines and bytes further down, in the same column. -/
def Loc.shift (lines bytes : Nat) (l : Loc) : Loc :=
  ⟨l.line + lines, l.column, l.offset + bytes⟩

/-- The token with its place further down. -/
def Token.shift (lines bytes : Nat) (t : Token) : Token :=
  ⟨t.kind, t.text, ⟨t.span.start.shift lines bytes, t.span.stop.shift lines bytes⟩⟩

section

variable (lines bytes : Nat)

theorem Loc.shift_next (l : Loc) (c : Char) :
    (l.shift lines bytes).next c = (l.next c).shift lines bytes := by
  unfold next
  split
  · simp only [shift, Loc.mk.injEq, true_and]
    omega
  · simp only [shift, Loc.mk.injEq, true_and]
    omega

theorem Loc.shift_after (l : Loc) (cs : List Char) :
    (l.shift lines bytes).after cs = (l.after cs).shift lines bytes := by
  induction cs generalizing l with
  | nil => rfl
  | cons c cs ih =>
    show ((l.shift lines bytes).next c).after cs = ((l.next c).after cs).shift lines bytes
    rw [shift_next, ih]

/-- The tokens cut from a text do not depend on where the text stands, but for their places. -/
theorem Token.scanFrom_shift {kinds : List Kind} {loc : Loc} {cs : List Char} {tokens : List Token}
    (h : scanFrom kinds loc cs = .ok tokens) :
    scanFrom kinds (loc.shift lines bytes) cs = .ok (tokens.map (shift lines bytes)) := by
  fun_induction scanFrom kinds loc cs generalizing tokens with
  | case1 loc =>
    cases h
    rw [scanFrom]
    rfl
  | case2 => cases h
  | case3 loc c cs kind n hmatch lexeme stop tail =>
    rename_i htail ih
    cases h
    rw [scanFrom_cons hmatch, Loc.shift_after, ih htail]
    rfl
  | case4 => cases h

end

/-! ### Two sources -/

/-- The token for a newline at the location. -/
def Token.lineEnd (loc : Loc) : Token :=
  ⟨.newline, "\n", ⟨loc, loc.next '\n'⟩⟩

theorem Loc.start_after_newline (cs : List Char) :
    (start.after cs).next '\n' = start.shift (cs.count '\n' + 1) (String.utf8Len cs + 1) := by
  rw [start_after]
  simp only [next, if_true, shift, start, Loc.mk.injEq, true_and]
  refine ⟨by omega, ?_⟩
  rw [Nat.zero_add]
  rfl

/-- The first token behind a source that is followed by a newline. -/
theorem Token.scanFrom_newline (loc : Loc) (cs : List Char) :
    scanFrom Kind.written loc ('\n' :: cs) =
      (scanFrom Kind.written (loc.next '\n') cs).map (lineEnd loc :: ·) := by
  have hfirst : Kind.written = [] ++ .newline :: Kind.written.tail := rfl
  have hmatch : firstMatch Kind.written ('\n' :: cs) = some (.newline, 1) :=
    firstMatch_of_split hfirst (by simp) Nat.one_pos
  rw [scanFrom_cons hmatch]
  rfl

/-- Two sources that can be cut up can be cut up with a newline between them. The tokens are those of
the first, up to the end of the file, then one line end, and then those of the second, further down
by the lines and the bytes in front of them and in the same columns. -/
theorem Token.scan_lines {a b : String} {as bs : List Token} (ha : scan Kind.written a = .ok as)
    (hb : scan Kind.written b = .ok bs) :
    ∃ body, as = body ++ [endAt (.locate a a.utf8ByteSize)] ∧
      scan Kind.written (a ++ "\n" ++ b) = .ok (body ++ lineEnd (.locate a a.utf8ByteSize) ::
        bs.map (shift (a.toList.count '\n' + 1) (a.utf8ByteSize + 1))) := by
  have hbytes : String.utf8Len a.toList = a.utf8ByteSize := String.utf8Len_toList a
  have hend : Loc.locate a a.utf8ByteSize = Loc.start.after a.toList := by
    rw [← hbytes, Loc.locate_eq (List.append_nil _).symm]
  have hsource : (a ++ "\n" ++ b).toList = a.toList ++ '\n' :: b.toList := by simp
  obtain ⟨body, rfl, hscan⟩ := scanFrom_line ha
  refine ⟨body, by rw [hend], ?_⟩
  have hbelow := scanFrom_shift (a.toList.count '\n' + 1) (a.utf8ByteSize + 1) hb
  have hnewline : ∀ c ∈ ('\n' :: b.toList).head?, Lexeme.isLineEnd c = true := by
    rintro c ⟨⟩
    rfl
  rw [scan, hsource, hscan _ hnewline, scanFrom_newline, Loc.start_after_newline, hbytes, hbelow, hend]
  rfl

namespace Token

theorem exists_scan_of_toBool {source : String} (h : (scan Kind.written source).toBool = true) :
    ∃ tokens, scan Kind.written source = .ok tokens := by
  cases hscan : scan Kind.written source with
  | ok tokens => exact ⟨tokens, rfl⟩
  | error e =>
    rw [hscan] at h
    cases h

/-- A text over two lines, and a number at the end. -/
def splitText : String :=
  "say \"a\nb\" 1"

/-- A point and digits, which would make the number longer without the newline in front of them. -/
def pointLine : String :=
  ".5 \"\" // c"

theorem splitText_lines :
    ∃ body bs, scan Kind.written splitText = .ok (body ++ [endAt ⟨2, 5, 11⟩]) ∧
      scan Kind.written pointLine = .ok bs ∧ scan Kind.written (splitText ++ "\n" ++ pointLine) =
        .ok (body ++ lineEnd ⟨2, 5, 11⟩ :: bs.map (shift 2 12)) := by
  have hfirst : (scan Kind.written splitText).toBool = true := by decide +kernel
  have hsecond : (scan Kind.written pointLine).toBool = true := by decide +kernel
  have hend : Loc.locate splitText splitText.utf8ByteSize = ⟨2, 5, 11⟩ := by decide +kernel
  have hlines : splitText.toList.count '\n' = 1 := by decide +kernel
  have hbytes : splitText.utf8ByteSize = 11 := by decide +kernel
  obtain ⟨as, ha⟩ := exists_scan_of_toBool hfirst
  obtain ⟨bs, hb⟩ := exists_scan_of_toBool hsecond
  obtain ⟨body, rfl, hscan⟩ := scan_lines ha hb
  rw [hend] at ha hscan
  rw [hlines, hbytes] at hscan
  exact ⟨body, bs, ha, hb, hscan⟩

end Token

end Sable
