import Sable.Proofs.Scanning.Places
import Sable.Token.Scan

/-!
# Tokens tile the source

`Tiles`: each token stands where the one before it ends. `CutUp`: the tokens take the source from one
point to another, at which no kind makes a token. `scan_induction` follows the recursion of the scanner.
-/

namespace Sable

/-! ### Lexemes -/

namespace Lexeme

theorem newline_le (cs : List Char) : newline cs ≤ cs.length := by
  unfold newline
  split <;> simp

theorem space_le (cs : List Char) : space cs ≤ cs.length :=
  (List.takeWhile_prefix _).length_le

theorem comment_le (cs : List Char) : comment cs ≤ cs.length := by
  unfold comment
  split
  · rename_i rest
    have := (List.takeWhile_prefix (!isLineEnd ·) (l := rest)).length_le
    simp only [List.length_cons]
    omega
  · exact Nat.zero_le _

theorem digits_le (cs : List Char) : digits cs ≤ cs.length :=
  (List.takeWhile_prefix _).length_le

theorem fraction_le (cs : List Char) : fraction cs ≤ cs.length := by
  unfold fraction
  split
  · rename_i rest
    have := digits_le rest
    simp only [List.length_cons]
    split <;> omega
  · exact Nat.zero_le _

theorem number_le (cs : List Char) : number cs ≤ cs.length := by
  have hdigits := digits_le cs
  have hfraction := fraction_le (cs.drop (digits cs))
  rw [List.length_drop] at hfraction
  unfold number
  split <;> omega

/-- A text up to its closing quote ends in that quote. -/
theorem take_quoteEnd {cs : List Char} {n : Nat} (h : quoteEnd cs = some n) :
    n ≤ cs.length ∧ ∃ raw, cs.take n = raw ++ ['"'] := by
  fun_induction quoteEnd cs generalizing n with
  | case1 => cases h
  | case2 rest =>
    cases h
    exact ⟨by simp, [], rfl⟩
  | case3 c rest ih =>
    obtain ⟨k, hk, rfl⟩ := Option.map_eq_some_iff.1 h
    obtain ⟨hle, raw, hraw⟩ := ih hk
    refine ⟨by simp only [List.length_cons]; omega, '\\' :: c :: raw, ?_⟩
    rw [Nat.add_comm, List.take_succ_cons, List.take_succ_cons, hraw]
    rfl
  | case4 => cases h
  | case5 c rest _ _ _ ih =>
    obtain ⟨k, hk, rfl⟩ := Option.map_eq_some_iff.1 h
    obtain ⟨hle, raw, hraw⟩ := ih hk
    refine ⟨by simp only [List.length_cons]; omega, c :: raw, ?_⟩
    rw [Nat.add_comm, List.take_succ_cons, hraw]
    rfl

theorem take_text {cs : List Char} (h : 0 < text cs) :
    text cs ≤ cs.length ∧ ∃ raw, cs.take (text cs) = '"' :: raw ++ ['"'] := by
  unfold text at h ⊢
  split at h
  · rename_i rest
    split at h
    · rename_i n hn
      obtain ⟨hle, raw, hraw⟩ := take_quoteEnd hn
      refine ⟨by simp only [List.length_cons]; omega, raw, ?_⟩
      rw [Nat.add_comm, List.take_succ_cons, hraw]
      rfl
    · cases h
  · cases h

theorem text_le (cs : List Char) : text cs ≤ cs.length := by
  rcases Nat.eq_zero_or_pos (text cs) with h | h
  · rw [h]
    exact Nat.zero_le _
  · exact (take_text h).1

theorem exactly_le (word cs : List Char) : exactly word cs ≤ cs.length := by
  unfold exactly
  split
  · exact (List.isPrefixOf_iff_prefix.1 ‹_›).length_le
  · exact Nat.zero_le _

theorem keyword_le (word cs : List Char) : keyword word cs ≤ cs.length := by
  unfold keyword
  split
  · split
    · exact Nat.zero_le _
    · exact exactly_le word cs
  · exact exactly_le word cs

theorem identifier_le (cs : List Char) : identifier cs ≤ cs.length := by
  unfold identifier
  split
  · rename_i c rest
    have := (List.takeWhile_prefix Text.isWordChar (l := rest)).length_le
    simp only [List.length_cons]
    split <;> omega
  · exact Nat.zero_le _

end Lexeme

/-- A token takes no more characters than there are. -/
theorem Kind.reach_le (kind : Kind) (cs : List Char) : kind.reach cs ≤ cs.length := by
  cases kind with
  | number => exact Lexeme.number_le cs
  | text => exact Lexeme.text_le cs
  | identifier => exact Lexeme.identifier_le cs
  | keyword word => exact Lexeme.keyword_le _ cs
  | symbol sign => exact Lexeme.exactly_le _ cs
  | space => exact Lexeme.space_le cs
  | comment => exact Lexeme.comment_le cs
  | newline => exact Lexeme.newline_le cs
  | indent | dedent | endOfFile => exact Nat.zero_le _

theorem Kind.reach_nil (kind : Kind) : kind.reach [] = 0 :=
  Nat.le_zero.1 (kind.reach_le [])

namespace Token

/-! ### Tokens in their source -/

/-- Where the kinds are tried in order, the token is the first that can be cut from the source at its
place, and it says what is written there. -/
structure Cut (kinds : List Kind) (source : String) (t : Token) : Prop where
  start : t.span.start = Loc.locate source t.span.start.offset
  stop : t.span.stop = Loc.locate source t.span.stop.offset
  nonempty : t.span.start.offset < t.span.stop.offset
  kind : kinds.find? (fun kind => 0 < kind.reach (textFrom source t.span.start.offset)) = some t.kind
  length : (t.span.slice source).length = t.kind.reach (textFrom source t.span.start.offset)
  text : t.kind ≠ .text → t.text = String.ofList (t.span.slice source)
  quoted : t.kind = .text →
    ∃ raw, t.span.slice source = '"' :: raw ++ ['"'] ∧ t.text = String.ofList (unescape raw)

/-- Each of the tokens stands where the one before it ends, from the first location to the last. -/
def Tiles : Loc → List Token → Loc → Prop
  | a, [], b => a = b
  | a, t :: ts, b => t.span.start = a ∧ Tiles t.span.stop ts b

theorem firstMatch_eq_some {kinds : List Kind} {cs : List Char} {kind : Kind} {n : Nat}
    (h : firstMatch kinds cs = some (kind, n)) :
    kinds.find? (fun kind => 0 < kind.reach cs) = some kind ∧ n = kind.reach cs := by
  unfold firstMatch at h
  obtain ⟨kind', hkind, heq⟩ := Option.map_eq_some_iff.1 h
  obtain ⟨rfl, rfl⟩ := Prod.mk.inj heq
  exact ⟨hkind, rfl⟩

theorem firstMatch_of_split {kinds before after : List Kind} {kind : Kind} {cs : List Char}
    (h : kinds = before ++ kind :: after) (hbefore : ∀ k ∈ before, k.reach cs = 0)
    (hpos : 0 < kind.reach cs) : firstMatch kinds cs = some (kind, kind.reach cs) := by
  have hfirst : kinds.find? (fun kind => 0 < kind.reach cs) = some kind := by
    refine List.find?_eq_some_iff_append.2 ⟨by simpa using hpos, before, after, h, fun k hk => ?_⟩
    simp [hbefore k hk]
  rw [firstMatch, hfirst, Option.map_some]

theorem firstMatch_eq_none {kinds : List Kind} {cs : List Char} (h : firstMatch kinds cs = none) :
    ∀ kind ∈ kinds, kind.reach cs = 0 := by
  unfold firstMatch at h
  simpa using h

theorem text_textOf {kind : Kind} {lexeme : List Char} (h : kind ≠ .text) :
    textOf kind lexeme = String.ofList lexeme := by
  unfold textOf
  split
  · exact absurd rfl h
  · rfl

section

variable {kinds : List Kind} {source : String} {before cs : List Char} {kind : Kind} {n : Nat}

/-- The token that the scanner makes at a point of the source. -/
theorem cut_of_firstMatch (hsource : source.toList = before ++ cs)
    (h : firstMatch kinds cs = some (kind, n)) :
    Cut kinds source ⟨kind, textOf kind (cs.take n),
      ⟨Loc.start.after before, Loc.start.after (before ++ cs.take n)⟩⟩ := by
  have hpos := firstMatch_pos h
  obtain ⟨hkind, rfl⟩ := firstMatch_eq_some h
  have hsplit : source.toList = before ++ cs.take (kind.reach cs) ++ cs.drop (kind.reach cs) := by
    rw [List.append_assoc, List.take_append_drop, hsource]
  have hlength : (cs.take (kind.reach cs)).length = kind.reach cs :=
    List.length_take_of_le (kind.reach_le cs)
  have hslice := Span.slice_eq hsplit
  refine ⟨?_, ?_, ?_, ?_, ?_, fun hk => ?_, fun hk => ?_⟩
  · rw [Loc.start_after_offset, Loc.locate_eq hsource]
  · rw [Loc.start_after_offset, Loc.locate_eq hsplit]
  · have hne : cs.take (kind.reach cs) ≠ [] := List.ne_nil_of_length_pos (by rwa [hlength])
    have hbytes : String.utf8Len (cs.take (kind.reach cs)) ≠ 0 := mt String.utf8Len_eq_zero.1 hne
    simp only [Loc.start_after_offset, String.utf8Len_append]
    omega
  · simpa only [Loc.start_after_offset, textFrom_eq hsource] using hkind
  · simp only [Loc.start_after_offset, textFrom_eq hsource]
    rw [hslice, hlength]
  · rw [hslice]
    exact text_textOf hk
  · obtain rfl : kind = .text := hk
    obtain ⟨-, raw, hraw⟩ := Lexeme.take_text hpos
    refine ⟨raw, hslice.trans hraw, ?_⟩
    show String.ofList (unescape ((cs.take (Lexeme.text cs)).drop 1).dropLast) = _
    rw [hraw]
    simp

end

/-- A token that was cut from a source is of a kind that can be written. -/
theorem Cut.written {kinds : List Kind} {source : String} {t : Token} (h : t.Cut kinds source) :
    t.kind ≠ .indent ∧ t.kind ≠ .dedent ∧ t.kind ≠ .endOfFile := by
  have hpos : 0 < t.kind.reach (textFrom source t.span.start.offset) := by
    simpa using List.find?_some h.kind
  refine ⟨?_, ?_, ?_⟩ <;>
  · intro hk
    rw [hk] at hpos
    exact Nat.lt_irrefl 0 hpos

/-! ### The scanner -/

/-- The token that follows the others, the last of which ends at the given location. -/
def endAt (loc : Loc) : Token :=
  endOfFile ⟨⟨loc.line, -1, loc.offset⟩, ⟨loc.line, -1, loc.offset⟩⟩

/-- What becomes of the tokens when no more can be cut off, at the given location and with the given
text left. -/
def finish (body : List Token) (loc : Loc) : List Char → Except LexError (List Token)
  | [] => .ok (body ++ [endAt loc])
  | c :: _ => .error (.unexpected c loc)

/-- The tokens take the source from the one point to the other, and no kind makes a token there. -/
structure CutUp (kinds : List Kind) (source : String) (before : List Char) (body : List Token)
    (before' rest : List Char) : Prop where
  split : source.toList = before' ++ rest
  tiles : Tiles (Loc.start.after before) body (Loc.start.after before')
  cut : ∀ t ∈ body, t.Cut kinds source
  whole : before ++ body.flatMap (·.span.slice source) = before'
  finished : ∀ kind ∈ kinds, kind.reach rest = 0

section

variable {kinds : List Kind} {source : String} {before before' cs rest : List Char}

theorem CutUp.nil (hsource : source.toList = before ++ cs)
    (h : ∀ kind ∈ kinds, kind.reach cs = 0) : CutUp kinds source before [] before cs where
  split := hsource
  tiles := rfl
  cut _ ht := absurd ht List.not_mem_nil
  whole := List.append_nil before
  finished := h

theorem CutUp.cons {kind : Kind} {n : Nat} {body : List Token} (hsource : source.toList = before ++ cs)
    (hmatch : firstMatch kinds cs = some (kind, n))
    (h : CutUp kinds source (before ++ cs.take n) body before' rest) :
    CutUp kinds source before
      (⟨kind, textOf kind (cs.take n), ⟨Loc.start.after before, Loc.start.after (before ++ cs.take n)⟩⟩
        :: body) before' rest where
  split := h.split
  tiles := ⟨rfl, h.tiles⟩
  cut t ht := by
    rcases List.mem_cons.1 ht with rfl | ht
    · exact cut_of_firstMatch hsource hmatch
    · exact h.cut t ht
  whole := by
    have hsplit : source.toList = before ++ cs.take n ++ cs.drop n := by
      rw [List.append_assoc, List.take_append_drop, hsource]
    rw [List.flatMap_cons, Span.slice_eq hsplit, ← List.append_assoc]
    exact h.whole
  finished := h.finished

theorem finish_cons (t : Token) (body : List Token) (loc : Loc) (rest : List Char) :
    finish (t :: body) loc rest = (finish body loc rest).map (t :: ·) := by
  cases rest <;> rfl

/-- Induction along the tokens of a text: the text left gets shorter with every token, however long
a token is. -/
@[elab_as_elim]
theorem scan_induction (kinds : List Kind) {motive : List Char → Prop} (nil : motive [])
    (stuck : ∀ c rest, firstMatch kinds (c :: rest) = none → motive (c :: rest))
    (token : ∀ c rest kind n, firstMatch kinds (c :: rest) = some (kind, n) →
      motive ((c :: rest).drop n) → motive (c :: rest)) (cs : List Char) : motive cs := by
  induction hlen : cs.length using Nat.strongRecOn generalizing cs with
  | ind len ih =>
    subst hlen
    cases cs with
    | nil => exact nil
    | cons c rest =>
      cases hmatch : firstMatch kinds (c :: rest) with
      | none => exact stuck c rest hmatch
      | some m =>
        have hpos := firstMatch_pos hmatch
        have hshorter : ((c :: rest).drop m.2).length < (c :: rest).length := by
          simp only [List.length_drop, List.length_cons]
          omega
        exact token c rest m.1 m.2 hmatch (ih _ hshorter _ rfl)

theorem scanFrom_eq_error {loc : Loc} {c : Char} (h : firstMatch kinds (c :: rest) = none) :
    scanFrom kinds loc (c :: rest) = .error (.unexpected c loc) := by
  rw [scanFrom]
  split <;> rename_i heq
  · rfl
  · rw [h] at heq
    cases heq

theorem scanFrom_cons {loc : Loc} {c : Char} {kind : Kind} {n : Nat}
    (h : firstMatch kinds (c :: rest) = some (kind, n)) :
    scanFrom kinds loc (c :: rest) =
      (scanFrom kinds (loc.after ((c :: rest).take n)) ((c :: rest).drop n)).map
        (⟨kind, textOf kind ((c :: rest).take n), ⟨loc, loc.after ((c :: rest).take n)⟩⟩ :: ·) := by
  rw [scanFrom]
  split <;> rename_i heq
  · rw [h] at heq
    cases heq
  · rw [h] at heq
    cases heq
    dsimp only
    split <;> rename_i hrest <;> rw [hrest] <;> rfl

/-- The scanner cuts off tokens from a point of the source on until no kind makes another. -/
theorem scanFrom_cutUp (kinds : List Kind) (h : source.toList = before ++ cs) :
    ∃ body before' rest, CutUp kinds source before body before' rest ∧
      scanFrom kinds (Loc.start.after before) cs = finish body (Loc.start.after before') rest := by
  induction cs using scan_induction kinds generalizing before with
  | nil => exact ⟨[], before, [], .nil h fun kind _ => kind.reach_nil, by rw [scanFrom]; rfl⟩
  | stuck c rest hmatch =>
    exact ⟨[], before, c :: rest, .nil h (firstMatch_eq_none hmatch), scanFrom_eq_error hmatch⟩
  | token c rest kind n hmatch ih =>
    have hsplit : source.toList = before ++ (c :: rest).take n ++ (c :: rest).drop n := by
      rw [List.append_assoc, List.take_append_drop, h]
    obtain ⟨body, before', rest', hcut, hscan⟩ := ih hsplit
    refine ⟨_, before', rest', hcut.cons h hmatch, ?_⟩
    rw [scanFrom_cons hmatch, finish_cons, ← hscan, Loc.after_append]

end

/-- The tokens of a source that can be cut up. -/
theorem scan_eq_ok {kinds : List Kind} {source : String} {tokens : List Token}
    (h : scan kinds source = .ok tokens) :
    ∃ body loc, tokens = body ++ [endAt loc] ∧ ∀ t ∈ body, t.Cut kinds source := by
  obtain ⟨body, before, rest, hcut, hscan⟩ :=
    scanFrom_cutUp kinds (List.nil_append source.toList).symm
  have hfinish : finish body (Loc.start.after before) rest = .ok tokens := hscan.symm.trans h
  cases rest with
  | nil =>
    cases hfinish
    exact ⟨body, _, rfl, hcut.cut⟩
  | cons c rest => cases hfinish

/-- The scanner cuts a source into tokens from its beginning, each by the first kind that makes one
at its place, until no kind makes another. They tile the text up to there, with exact places and with
nothing lost. At the end of the source the token for the end of the file follows; anywhere else the
scan fails with the character and the location. -/
theorem scan_exact (kinds : List Kind) (source : String) :
    ∃ body loc, Tiles .start body loc ∧ (∀ t ∈ body, t.Cut kinds source ∧ t.kind ≠ .endOfFile) ∧
      loc = .locate source loc.offset ∧
      body.flatMap (·.span.slice source) ++ textFrom source loc.offset = source.toList ∧
      (loc.offset = source.utf8ByteSize ∧ scan kinds source = .ok (body ++ [endAt loc]) ∨
        ∃ c rest, textFrom source loc.offset = c :: rest ∧
          (∀ kind ∈ kinds, kind.reach (c :: rest) = 0) ∧
          scan kinds source = .error (.unexpected c loc)) := by
  obtain ⟨body, before, rest, hcut, hscan⟩ :=
    scanFrom_cutUp kinds (List.nil_append source.toList).symm
  have hoffset := Loc.start_after_offset before
  have hrest : textFrom source (Loc.start.after before).offset = rest := by
    rw [hoffset, textFrom_eq hcut.split]
  refine ⟨body, Loc.start.after before, hcut.tiles,
    fun t ht => ⟨hcut.cut t ht, (hcut.cut t ht).written.2.2⟩, ?_, ?_, ?_⟩
  · rw [hoffset, Loc.locate_eq hcut.split]
  · rw [hrest, hcut.split]
    exact congrArg (· ++ rest) hcut.whole
  · cases rest with
    | nil =>
      refine .inl ⟨?_, hscan⟩
      rw [hoffset, ← String.utf8Len_toList, hcut.split, List.append_nil]
    | cons c rest => exact .inr ⟨c, rest, hrest, hcut.finished, hscan⟩

end Token

end Sable
