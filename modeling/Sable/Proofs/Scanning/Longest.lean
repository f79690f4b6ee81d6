import Mathlib.Data.List.MinMax
import Sable.Proofs.Printing.Spelling

/-!
# The first token is the longest

`Kind.mayPrecede` holds of the kinds in the order in which they are tried: they do not begin alike, or
both make words, or the first makes comments, or both are signs and the first is no beginning of the
second. It implies `Kind.Covers`, so `Token.scanLongest`, which looks for the longest token, cuts every
source in the same way.
-/

namespace Sable

/-! ### Kinds that begin alike -/

/-- What a token looks like from its first character on. -/
inductive Family where
  | newline | space | number | text | word | sign
  deriving DecidableEq

/-- The family of a kind that can be written. A comment begins like a sign. -/
def Kind.family : Kind → Family
  | .newline => .newline
  | .space => .space
  | .number => .number
  | .text => .text
  | .identifier | .keyword _ => .word
  | _ => .sign

/-- The family of the tokens that begin with the character. -/
def Family.ofChar (c : Char) : Family :=
  if Lexeme.isLineEnd c then .newline
  else if Lexeme.isSpace c then .space
  else if c.isDigit then .number
  else if c = '"' then .text
  else if Text.isWordStart c then .word
  else .sign

theorem Family.ofChar_digit {c : Char} (h : c.isDigit = true) : ofChar c = .number := by
  have hne : ∀ d ∈ ['\n', '\r', ' ', '\t'], c ≠ d := by
    rintro d hd rfl
    simp only [List.mem_cons, List.not_mem_nil, or_false] at hd
    rcases hd with rfl | rfl | rfl | rfl <;> cases h
  simp [ofChar, Lexeme.isLineEnd, Lexeme.isSpace, h, hne]

theorem Family.ofChar_word {c : Char} (h : Text.isWordStart c = true) : ofChar c = .word := by
  have hnone (kind : Kind) (hk : kind ∈ [.newline, .space, .comment, .number, .text]) :=
    Kind.not_begins_of_isWordStart h hk
  have hline : Lexeme.isLineEnd c = false := hnone .newline (by decide)
  have hspace : Lexeme.isSpace c = false := hnone .space (by decide)
  have hdigit : c.isDigit = false := hnone .number (by decide)
  have hquote : c ≠ '"' := by simpa [Kind.begins] using hnone .text (by decide)
  simp [ofChar, hline, hspace, hdigit, hquote, h]

/-- The first character tells the family. -/
theorem Kind.family_of_begins {kind : Kind} {c : Char} (h : kind.begins c = true) :
    kind.family = Family.ofChar c := by
  cases kind with
  | newline => simp [family, Family.ofChar, show Lexeme.isLineEnd c = true from h]
  | space =>
    obtain rfl | rfl : c = ' ' ∨ c = '\t' := by simpa [begins, Lexeme.isSpace] using h
    · rfl
    · rfl
  | comment =>
    obtain rfl : c = '/' := by simpa [begins] using h
    rfl
  | number => exact (Family.ofChar_digit h).symm
  | text =>
    obtain rfl : c = '"' := by simpa [begins] using h
    rfl
  | identifier => exact (Family.ofChar_word h).symm
  | keyword word =>
    have hstart : word.text.toList.head?.all Text.isWordStart := by cases word <;> rfl
    rw [beq_iff_eq.1 h] at hstart
    exact (Family.ofChar_word hstart).symm
  | symbol sign =>
    have hsign : sign.text.toList.head?.all (Family.ofChar · = .sign) := by cases sign <;> rfl
    rw [beq_iff_eq.1 h] at hsign
    exact (of_decide_eq_true hsign).symm
  | indent | dedent | endOfFile => cases h

/-- Kinds that make tokens of one text are of one family. -/
theorem Kind.family_eq {k k' : Kind} {cs : List Char} (h : 0 < k.reach cs) (h' : 0 < k'.reach cs) :
    k.family = k'.family := by
  cases cs with
  | nil =>
    rw [reach_nil] at h
    exact absurd h (Nat.lt_irrefl 0)
  | cons c cs =>
    have hbegins (kind : Kind) (hpos : 0 < kind.reach (c :: cs)) : kind.begins c = true := by
      rw [← Bool.not_eq_false]
      intro hnot
      rw [reach_of_not_begins hnot] at hpos
      exact Nat.lt_irrefl 0 hpos
    rw [family_of_begins (hbegins k h), family_of_begins (hbegins k' h')]

/-! ### How far tokens of one family reach -/

/-- The longest word at the head of the text. -/
def Lexeme.word (cs : List Char) : List Char :=
  cs.take (identifier cs)

theorem Keyword.mem_written (word : Keyword) : Kind.keyword word ∈ Kind.written := by
  cases word <;> decide

/-- A reserved word is spelled like any word. -/
theorem Keyword.spelled (word : Keyword) : ∃ c cs, word.text.toList = c :: cs ∧
    Text.isWordStart c = true ∧ ∀ d ∈ cs, Text.isWordChar d = true := by
  have hall : word.text.toList.head?.any Text.isWordStart ∧ word.text.toList.tail.all Text.isWordChar := by
    cases word <;> exact ⟨rfl, rfl⟩
  cases htext : word.text.toList with
  | nil =>
    rw [htext] at hall
    exact absurd hall.1 (by decide)
  | cons c cs =>
    rw [htext] at hall
    exact ⟨c, cs, rfl, hall.1, List.all_eq_true.1 hall.2⟩

theorem Lexeme.identifier_keyword_append (word : Keyword) {rest : List Char}
    (h : ∀ c ∈ rest.head?, Text.isWordChar c = false) :
    identifier (word.text.toList ++ rest) = word.text.toList.length := by
  obtain ⟨c, cs, htext, hc, hcs⟩ := word.spelled
  have htake := (Piece.word_ends hcs h).1
  simp only [htext, List.cons_append, identifier, hc, if_true, htake, List.length_cons]
  omega

/-- A reserved word is found exactly where it is the longest word. -/
theorem Lexeme.keyword_pos_iff {word : Keyword} {cs : List Char} :
    0 < keyword word.text.toList cs ↔ Lexeme.word cs = word.text.toList := by
  constructor
  · intro hpos
    obtain ⟨rest, rfl, hrest⟩ := keyword_eq_some hpos
    rw [Lexeme.word, identifier_keyword_append word hrest, List.take_left]
  · intro hword
    obtain ⟨c, w, htext, hc, -⟩ := word.spelled
    have hlength : identifier cs = word.text.toList.length := by
      rw [← hword, Lexeme.word, List.length_take_of_le (identifier_le cs)]
    obtain ⟨rest, rfl⟩ : ∃ rest, cs = word.text.toList ++ rest :=
      ⟨cs.drop (identifier cs), by rw [← hword, Lexeme.word, List.take_append_drop]⟩
    -- the longest word ends where no character of a word follows
    have hrest : ∀ x ∈ rest.head?, Text.isWordChar x = false := by
      rw [htext, List.cons_append, identifier, if_pos hc, List.length_cons] at hlength
      have hw : ((w ++ rest).takeWhile Text.isWordChar).length = w.length := by omega
      exact (ends_of_takeWhile hw).2
    rw [keyword_append _ hrest, htext]
    exact Nat.succ_pos _

/-- All kinds of words end where the longest word does. -/
theorem Kind.reach_word {kind : Kind} {cs : List Char} (hkind : kind.family = .word)
    (h : 0 < kind.reach cs) : kind.reach cs = Lexeme.identifier cs := by
  cases kind with
  | identifier => rfl
  | keyword word =>
    obtain ⟨rest, rfl, hrest⟩ := Lexeme.keyword_eq_some h
    rw [Lexeme.identifier_keyword_append word hrest]
    exact Lexeme.keyword_append _ hrest
  | _ => cases hkind

theorem Lexeme.prefix_of_exactly {word cs : List Char} (h : 0 < exactly word cs) :
    word <+: cs ∧ exactly word cs = word.length := by
  unfold exactly at h ⊢
  split at h
  · rename_i hprefix
    exact ⟨List.isPrefixOf_iff_prefix.1 hprefix, if_pos hprefix⟩
  · exact absurd h (Nat.lt_irrefl 0)

theorem Lexeme.exactly_le_length (word cs : List Char) : exactly word cs ≤ word.length := by
  unfold exactly
  split
  · exact Nat.le_refl _
  · exact Nat.zero_le _

theorem Lexeme.two_le_comment {cs : List Char} (h : 0 < comment cs) : 2 ≤ comment cs := by
  unfold comment at h ⊢
  split at h
  · exact Nat.le_add_right 2 _
  · exact absurd h (Nat.lt_irrefl 0)

theorem Symbol.length_le (sign : Symbol) : sign.text.toList.length ≤ 2 := by
  cases sign <;> decide

/-! ### The order of the kinds -/

/-- The first kind may be tried before the second: they do not begin alike, or both make words, or the
first makes comments, or both are signs and the second does not go on where the first ends. -/
def Kind.mayPrecede : Kind → Kind → Bool
  | .symbol s, .symbol s' => !s.text.toList.isPrefixOf s'.text.toList
  | .comment, .symbol _ => true
  | k, k' => k.family != k'.family || k.family == .word

theorem Kind.written_ordered : written.Pairwise (mayPrecede · ·) := by
  decide +kernel

/-- Where the first kind makes a token, the second makes no longer one. -/
def Kind.Covers (k k' : Kind) : Prop :=
  ∀ cs, 0 < k.reach cs → k'.reach cs ≤ k.reach cs

theorem Symbol.covers {s s' : Symbol} (h : s.text.toList.isPrefixOf s'.text.toList = false) :
    (Kind.symbol s).Covers (.symbol s') := by
  intro cs hpos
  obtain ⟨hstarts, hreach⟩ := Lexeme.prefix_of_exactly hpos
  rcases Nat.eq_zero_or_pos ((Kind.symbol s').reach cs) with hzero | hpos'
  · rw [hzero]
    exact Nat.zero_le _
  · obtain ⟨hstarts', hreach'⟩ := Lexeme.prefix_of_exactly hpos'
    refine Nat.le_of_not_lt fun hlt => ?_
    have hlen : s.text.toList.length ≤ s'.text.toList.length := by
      rw [← hreach, ← hreach']
      exact Nat.le_of_lt hlt
    -- of two beginnings of one text the shorter is a beginning of the longer
    have hboth := List.prefix_of_prefix_length_le hstarts hstarts' hlen
    rw [List.isPrefixOf_iff_prefix.2 hboth] at h
    cases h

theorem Kind.covers_of_family {k k' : Kind} (h : k.family ≠ k'.family ∨ k.family = .word) :
    k.Covers k' := by
  intro cs hpos
  rcases Nat.eq_zero_or_pos (k'.reach cs) with hzero | hpos'
  · rw [hzero]
    exact Nat.zero_le _
  · have hsame := family_eq hpos hpos'
    have hword := h.resolve_left (not_not_intro hsame)
    rw [reach_word hword hpos, reach_word (hsame ▸ hword) hpos']

theorem Kind.covers_of_mayPrecede {k k' : Kind} (h : mayPrecede k k') : k.Covers k' := by
  unfold mayPrecede at h
  split at h
  · exact Symbol.covers (by simpa using h)
  · rename_i sign
    intro cs hpos
    calc (Kind.symbol sign).reach cs ≤ sign.text.toList.length := Lexeme.exactly_le_length _ cs
      _ ≤ 2 := sign.length_le
      _ ≤ Kind.comment.reach cs := Lexeme.two_le_comment hpos
  · exact covers_of_family (by simpa using h)

theorem Kind.written_covers : written.Pairwise Covers :=
  written_ordered.imp covers_of_mayPrecede

namespace Token

/-! ### The longest token -/

/-- The kind of the list that makes the longest token at the head of the text, with the token's
length; of several such kinds the first. -/
def longestMatch (kinds : List Kind) (cs : List Char) : Option (Kind × Nat) :=
  ((kinds.filter fun kind => 0 < kind.reach cs).argmax (·.reach cs)).map fun kind =>
    (kind, kind.reach cs)

theorem longestMatch_pos {kinds : List Kind} {cs : List Char} {kind : Kind} {n : Nat}
    (h : longestMatch kinds cs = some (kind, n)) : 0 < n := by
  obtain ⟨k, hk, heq⟩ := Option.map_eq_some_iff.1 h
  obtain ⟨rfl, rfl⟩ := Prod.mk.inj heq
  simpa using (List.mem_filter.1 (List.argmax_mem hk)).2

/-- Cuts the text, which stands at the given location, into tokens that are as long as can be. -/
def scanLongestFrom (kinds : List Kind) (loc : Loc) (cs : List Char) :
    Except LexError (List Token) :=
  match cs with
  | [] => .ok [endAt loc]
  | c :: rest =>
    match _h : longestMatch kinds (c :: rest) with
    | none => .error (.unexpected c loc)
    | some (kind, n) =>
      let lexeme := (c :: rest).take n
      let stop := loc.after lexeme
      (scanLongestFrom kinds stop ((c :: rest).drop n)).map (⟨kind, textOf kind lexeme, ⟨loc, stop⟩⟩ :: ·)
termination_by cs.length
decreasing_by
  have := longestMatch_pos _h
  simp only [List.length_drop, List.length_cons]
  omega

/-- Cuts a whole source into tokens that are as long as can be. -/
def scanLongest (kinds : List Kind) (source : String) : Except LexError (List Token) :=
  scanLongestFrom kinds .start source.toList

/-- Where no kind is covered by a later one, the first token is the longest. -/
theorem longestMatch_eq_firstMatch {kinds : List Kind} (h : kinds.Pairwise Kind.Covers)
    (cs : List Char) : longestMatch kinds cs = firstMatch kinds cs := by
  have hhead : (kinds.filter fun kind => 0 < kind.reach cs).argmax (·.reach cs) =
      (kinds.filter fun kind => 0 < kind.reach cs).head? := by
    have hfilter := h.filter fun kind : Kind => 0 < kind.reach cs
    cases hmatching : kinds.filter fun kind => 0 < kind.reach cs with
    | nil => rfl
    | cons kind later =>
      rw [hmatching] at hfilter
      have hpos : 0 < kind.reach cs := by
        have hmem : kind ∈ kinds.filter fun kind => 0 < kind.reach cs := by
          rw [hmatching]
          exact List.mem_cons_self
        simpa using (List.mem_filter.1 hmem).2
      rw [List.argmax_cons]
      cases hlater : later.argmax (·.reach cs) with
      | none => rfl
      | some k =>
        have hk := (List.pairwise_cons.1 hfilter).1 k (List.argmax_mem hlater) cs hpos
        exact if_neg (Nat.not_lt.2 hk)
  rw [longestMatch, hhead, List.head?_filter, firstMatch]

theorem scanLongestFrom_eq {kinds : List Kind} (h : kinds.Pairwise Kind.Covers) (loc : Loc)
    (cs : List Char) : scanLongestFrom kinds loc cs = scanFrom kinds loc cs := by
  -- both scanners go on behind the token they cut off
  induction cs using scan_induction kinds generalizing loc with
  | nil =>
    rw [scanLongestFrom, scanFrom]
    rfl
  | stuck c rest hfirst =>
    have hmatch := (longestMatch_eq_firstMatch h (c :: rest)).trans hfirst
    rw [scanFrom_eq_error hfirst, scanLongestFrom]
    split <;> rename_i hlongest
    · rfl
    · rw [hmatch] at hlongest
      cases hlongest
  | token c rest kind n hfirst ih =>
    have hmatch := (longestMatch_eq_firstMatch h (c :: rest)).trans hfirst
    rw [scanFrom_cons hfirst, ← ih, scanLongestFrom]
    split <;> rename_i hlongest
    · rw [hmatch] at hlongest
      cases hlongest
    · rw [hmatch] at hlongest
      cases hlongest
      rfl

/-- Where the scanner makes a token, no kind makes a longer one. -/
theorem firstMatch_longest {kinds : List Kind} (h : kinds.Pairwise Kind.Covers) {cs : List Char}
    {kind : Kind} {n : Nat} (hmatch : firstMatch kinds cs = some (kind, n)) :
    ∀ k ∈ kinds, k.reach cs ≤ n := by
  rw [← longestMatch_eq_firstMatch h] at hmatch
  obtain ⟨best, hbest, heq⟩ := Option.map_eq_some_iff.1 hmatch
  obtain ⟨rfl, rfl⟩ := Prod.mk.inj heq
  intro k hk
  rcases Nat.eq_zero_or_pos (k.reach cs) with hzero | hpos
  · rw [hzero]
    exact Nat.zero_le _
  · exact List.le_of_mem_argmax (List.mem_filter.2 ⟨hk, decide_eq_true hpos⟩) hbest

/-! ### Reserved words -/

/-- The scanner makes a reserved word exactly where it is the longest word. -/
theorem find?_keyword_iff {word : Keyword} {cs : List Char} :
    Kind.written.find? (fun kind => 0 < kind.reach cs) = some (.keyword word) ↔
      Lexeme.word cs = word.text.toList := by
  constructor
  · intro h
    have hpos : 0 < (Kind.keyword word).reach cs := by simpa using List.find?_some h
    exact Lexeme.keyword_pos_iff.1 hpos
  · intro h
    have hpos : 0 < (Kind.keyword word).reach cs := Lexeme.keyword_pos_iff.2 h
    cases hfind : Kind.written.find? fun kind => 0 < kind.reach cs with
    | none => exact absurd (decide_eq_true hpos) (List.find?_eq_none.1 hfind _ word.mem_written)
    | some kind =>
      have hkind : 0 < kind.reach cs := by simpa using List.find?_some hfind
      have hfamily : kind.family = .word := Kind.family_eq hkind hpos
      cases kind with
      | keyword other =>
        -- both words are what stands there
        have htext : other.text = word.text :=
          String.toList_injective ((Lexeme.keyword_pos_iff.1 hkind).symm.trans h)
        have hsame : ∀ a ∈ Keyword.all, ∀ b ∈ Keyword.all, a.text = b.text → a = b := by
          decide +kernel
        rw [hsame other (by cases other <;> decide) word (by cases word <;> decide) htext]
      | identifier =>
        -- all reserved words are tried before identifiers
        rw [Kind.written_identifier, List.find?_append] at hfind
        have hnone : List.find? (fun kind : Kind => 0 < kind.reach cs)
            ([.newline, .space, .comment, .number, .text] ++ Keyword.all.map .keyword) = none := by
          cases hearlier : List.find? (fun kind : Kind => 0 < kind.reach cs)
              ([.newline, .space, .comment, .number, .text] ++ Keyword.all.map .keyword) with
          | none => rfl
          | some kind =>
            rw [hearlier] at hfind
            cases hfind
            exact absurd (List.mem_of_find?_eq_some hearlier) (by decide)
        have hmem : Kind.keyword word ∈ [Kind.newline, .space, .comment, .number, .text] ++
            Keyword.all.map .keyword := by cases word <;> decide
        exact absurd (decide_eq_true hpos) (List.find?_eq_none.1 hnone _ hmem)
      | _ => cases hfamily

theorem firstMatch_keyword_iff {word : Keyword} {cs : List Char} :
    (firstMatch Kind.written cs).map (·.1) = some (.keyword word) ↔
      Lexeme.word cs = word.text.toList := by
  rw [← find?_keyword_iff, firstMatch, Option.map_map]
  exact Eq.congr_left (congrFun Option.map_id _)

/-- Wherever in a source the scanner would make a token, no kind makes a longer one, so that it cuts the
source as a scanner for the longest tokens does; and it makes a reserved word exactly where that is the
longest word. -/
theorem scan_eq_scanLongest (source : String) :
    (∀ before cs, source.toList = before ++ cs →
      (∀ kind n, firstMatch Kind.written cs = some (kind, n) →
        n = kind.reach cs ∧ ∀ k ∈ Kind.written, k.reach cs ≤ n) ∧
      ∀ word, (firstMatch Kind.written cs).map (·.1) = some (.keyword word) ↔
        Lexeme.word cs = word.text.toList) ∧
    scan Kind.written source = scanLongest Kind.written source ∧
    ∀ tokens, scan Kind.written source = .ok tokens → ∀ t ∈ tokens, ∀ word,
      t.kind = .keyword word ↔
        Lexeme.word (textFrom source t.span.start.offset) = word.text.toList := by
  refine ⟨fun before cs _ => ⟨fun kind n hmatch => ⟨(firstMatch_eq_some hmatch).2, ?_⟩,
    fun word => firstMatch_keyword_iff⟩, ?_, ?_⟩
  · exact firstMatch_longest Kind.written_covers hmatch
  · exact (scanLongestFrom_eq Kind.written_covers _ _).symm
  · intro tokens hscan t ht word
    obtain ⟨body, before, rest, hcut, hfinish⟩ :=
      scanFrom_cutUp Kind.written (List.nil_append source.toList).symm
    have htokens : finish body (Loc.start.after before) rest = .ok tokens := hfinish.symm.trans hscan
    cases rest with
    | cons c rest => cases htokens
    | nil =>
      cases htokens
      rcases List.mem_append.1 ht with ht | ht
      · rw [← find?_keyword_iff, (hcut.cut t ht).kind, Option.some_inj]
      · -- no word begins at the end of the file
        obtain rfl := List.mem_singleton.1 ht
        have hend : textFrom source (endAt (Loc.start.after before)).span.start.offset = [] := by
          show textFrom source (Loc.start.after before).offset = []
          rw [Loc.start_after_offset, textFrom_eq hcut.split]
        rw [hend]
        obtain ⟨c, cs, htext, -⟩ := word.spelled
        rw [htext]
        exact ⟨nofun, nofun⟩

/-- Words that begin like reserved ones, and signs that begin like others. -/
def nearWords : String :=
  "for format->-=a**=b//=c"

/-- It is cut into tokens, the first of which is a reserved word. -/
def nearWordsScan : Bool :=
  match scan Kind.written nearWords with
  | .ok tokens => tokens.head?.map (·.kind) = some (.keyword .forWord)
  | .error _ => false

theorem nearWords_longest :
    (∃ tokens t, scan Kind.written nearWords = .ok tokens ∧ t ∈ tokens ∧
      t.kind = .keyword .forWord ∧
      Lexeme.word (textFrom nearWords t.span.start.offset) = "for".toList) ∧
    scanLongest Kind.written nearWords = scan Kind.written nearWords ∧
    ∀ k ∈ Kind.written, k.reach "**=b//=c".toList ≤ 2 := by
  obtain ⟨hplaces, hscan, hwords⟩ := scan_eq_scanLongest nearWords
  refine ⟨?_, hscan.symm, ?_⟩
  · have hrun : nearWordsScan = true := by decide +kernel
    unfold nearWordsScan at hrun
    split at hrun
    · rename_i tokens htokens
      obtain ⟨t, ht, hkind⟩ := Option.map_eq_some_iff.1 (of_decide_eq_true hrun)
      have hmem := List.mem_of_head? ht
      exact ⟨tokens, t, htokens, hmem, hkind, (hwords tokens htokens t hmem .forWord).1 hkind⟩
    · cases hrun
  · have hmatch : firstMatch Kind.written "**=b//=c".toList = some (.symbol .power, 2) := by decide
    exact ((hplaces "for format->-=a".toList _ (by decide)).1 _ _ hmatch).2

end Token

end Sable
