import Sable.Proofs.Layout.Balance
import Sable.Proofs.Printing.Binding
import Sable.Proofs.Scanning.Blanks
import Sable.Proofs.Templates.Reading
import Sable.Proofs.Types.Texts

/-!
# Words written on a line

`Spells`: a text is made of words with single blanks between them, and the scanner ends each word where
it ends in the text. On one line the layout adds nothing, so the tokens of the text are those words.
-/

namespace Sable

/-! ### Where a token can begin -/

/-- The characters with which a token of the kind can begin. -/
def Kind.begins : Kind → Char → Bool
  | .newline, c => Lexeme.isLineEnd c
  | .space, c => Lexeme.isSpace c
  | .comment, c => c == '/'
  | .number, c => c.isDigit
  | .text, c => c == '"'
  | .identifier, c => Text.isWordStart c
  | .keyword word, c => word.text.toList.head? == some c
  | .symbol sign, c => sign.text.toList.head? == some c
  | .indent, _ | .dedent, _ | .endOfFile, _ => false

theorem Kind.reach_of_not_begins {kind : Kind} {c : Char} (h : kind.begins c = false)
    (cs : List Char) : kind.reach (c :: cs) = 0 := by
  cases kind with
  | newline =>
    show Lexeme.newline (c :: cs) = 0
    unfold Lexeme.newline
    split
    · rename_i heq
      cases heq
      cases h
    · rename_i heq
      cases heq
      cases h
    · rfl
  | space => simp_all [begins, reach, Lexeme.space]
  | comment =>
    show Lexeme.comment (c :: cs) = 0
    unfold Lexeme.comment
    split
    · rename_i heq
      cases heq
      cases h
    · rfl
  | number => simp_all [begins, reach, Lexeme.number, Lexeme.digits]
  | text =>
    show Lexeme.text (c :: cs) = 0
    unfold Lexeme.text
    split
    · rename_i heq
      cases heq
      cases h
    · rfl
  | identifier => simp_all [begins, reach, Lexeme.identifier]
  | keyword word =>
    refine Nat.eq_zero_of_not_pos fun hpos => ?_
    have hhead := Lexeme.head?_of_exactly (Lexeme.exactly_of_keyword hpos)
    simp [begins, hhead] at h
  | symbol sign =>
    refine Nat.eq_zero_of_not_pos fun hpos => ?_
    have hhead := Lexeme.head?_of_exactly hpos
    simp [begins, hhead] at h
  | indent | dedent | endOfFile => rfl

/-! ### Identifiers -/

/-- A word that is not reserved. -/
structure IsIdentifier (text : String) : Prop where
  start : ∃ c cs, text.toList = c :: cs ∧ Text.isWordStart c = true ∧
    ∀ d ∈ cs, Text.isWordChar d = true
  free : ∀ word : Keyword, word.text ≠ text

theorem Text.isWordStart_of_isDigit {c : Char} (h : c.isDigit = true) : isWordStart c = false := by
  have hrange : ∀ n ∈ List.range' 48 10, isWordStart (Char.ofNat n) = false := by decide
  have hc : c.toNat ∈ List.range' 48 10 := by
    simp only [Char.isDigit, Bool.and_eq_true, decide_eq_true_eq, ge_iff_le, UInt32.le_iff_toNat_le] at h
    rw [List.mem_range'_1]
    exact ⟨h.1, Nat.lt_succ_of_le h.2⟩
  have := hrange c.toNat hc
  rwa [Char.ofNat_toNat] at this

/-- No token of another open class, and no trivia, begins like a word. -/
theorem Kind.not_begins_of_isWordStart {kind : Kind} {c : Char} (hc : Text.isWordStart c = true)
    (h : kind ∈ [.newline, .space, .comment, .number, .text]) : kind.begins c = false := by
  rw [Bool.eq_false_iff]
  intro hbegins
  have hchars : c.isDigit = true ∨ c ∈ ['\n', '\r', ' ', '\t', '/', '"'] := by
    simp only [List.mem_cons, List.not_mem_nil, or_false] at h
    rcases h with rfl | rfl | rfl | rfl | rfl <;>
      simp_all [begins, Lexeme.isLineEnd, Lexeme.isSpace]
    all_goals grind
  rcases hchars with hdigit | hmem
  · rw [Text.isWordStart_of_isDigit hdigit] at hc
    cases hc
  · have hnone : ∀ d ∈ ['\n', '\r', ' ', '\t', '/', '"'], Text.isWordStart d = false := by
      simp only [List.forall_mem_cons, List.not_mem_nil, false_implies, implies_true, and_true]
      decide
    rw [hnone c hmem] at hc
    cases hc

/-- The kinds that are tried before identifiers. -/
theorem Kind.written_identifier : written =
    ([.newline, .space, .comment, .number, .text] ++ Keyword.all.map .keyword) ++
      .identifier :: Symbol.all.map .symbol := rfl

theorem Keyword.isWord (word : Keyword) : IsWord word.text := by
  cases word <;> exact .of_all rfl rfl

theorem Lexeme.exactly_append (word rest : List Char) : exactly word (word ++ rest) = word.length := by
  rw [exactly, if_pos (List.isPrefixOf_iff_prefix.2 (List.prefix_append word rest))]

theorem Lexeme.keyword_append (word : List Char) {rest : List Char}
    (h : ∀ c ∈ rest.head?, Text.isWordChar c = false) : keyword word (word ++ rest) = word.length := by
  rw [keyword, List.drop_left]
  cases rest with
  | nil => exact exactly_append word []
  | cons c rest =>
    have hc : Text.isWordChar c = false := h c rfl
    simp only [hc, Bool.false_eq_true, if_false]
    exact exactly_append word (c :: rest)

/-- A reserved word ends where no character of a word follows. -/
theorem Lexeme.keyword_eq_some {word : String} {cs : List Char} (h : 0 < keyword word.toList cs) :
    ∃ rest, cs = word.toList ++ rest ∧ ∀ c ∈ rest.head?, Text.isWordChar c = false := by
  have hexact := exactly_of_keyword h
  unfold exactly at hexact
  split at hexact
  · obtain ⟨rest, rfl⟩ := List.isPrefixOf_iff_prefix.1 ‹_›
    refine ⟨rest, rfl, fun c hc => ?_⟩
    obtain ⟨tail, rfl⟩ := List.head?_eq_some_iff.1 hc
    rw [keyword, List.drop_left] at h
    by_cases hword : Text.isWordChar c = true
    · simp [hword] at h
    · simpa using hword
  · exact absurd hexact (Nat.lt_irrefl 0)

namespace IsIdentifier

variable {text : String} {rest : List Char}

theorem isWord (h : IsIdentifier text) : IsWord text := by
  obtain ⟨c, cs, htext, hc, hcs⟩ := h.start
  refine ⟨by simp [htext], fun d hd => ?_⟩
  rw [htext] at hd
  rcases List.mem_cons.1 hd with rfl | hd
  · exact Text.isWordChar_of_isWordStart hc
  · exact hcs d hd

/-- A word is cut off whole where no character of a word follows it. -/
theorem firstMatch (h : IsIdentifier text) (hrest : ∀ c ∈ rest.head?, Text.isWordChar c = false) :
    Token.firstMatch Kind.written (text.toList ++ rest) = some (.identifier, text.toList.length) := by
  obtain ⟨c, cs, htext, hc, hcs⟩ := h.start
  have hreach : Kind.identifier.reach (text.toList ++ rest) = text.toList.length := by
    have htake := (Piece.word_ends hcs hrest).1
    rw [htext, List.cons_append]
    simp only [Kind.reach, Lexeme.identifier, hc, if_true, htake, List.length_cons]
    omega
  have hpos : 0 < Kind.identifier.reach (text.toList ++ rest) := by
    rw [hreach, htext]
    exact Nat.succ_pos _
  rw [← hreach]
  refine Token.firstMatch_of_split Kind.written_identifier (fun kind hkind => ?_) hpos
  rcases List.mem_append.1 hkind with hkind | hkind
  · have hbegins : kind.begins c = false := Kind.not_begins_of_isWordStart hc hkind
    rw [htext, List.cons_append, Kind.reach_of_not_begins hbegins]
  · obtain ⟨word, -, rfl⟩ := List.mem_map.1 hkind
    refine Nat.eq_zero_of_not_pos fun hpos => ?_
    obtain ⟨rest', heq, hrest'⟩ := Lexeme.keyword_eq_some hpos
    exact h.free word (Ty.word_inj word.isWord h.isWord hrest' hrest heq.symm).1

end IsIdentifier

/-- What a token was cut from, and by which kind. -/
theorem Token.scanFrom_matches {kinds : List Kind} {loc : Loc} {cs : List Char} {tokens : List Token}
    (h : scanFrom kinds loc cs = .ok tokens) : ∀ t ∈ tokens, t.kind = .endOfFile ∨
      ∃ lexeme rest, firstMatch kinds (lexeme ++ rest) = some (t.kind, lexeme.length) ∧
        t.text = textOf t.kind lexeme := by
  fun_induction scanFrom kinds loc cs generalizing tokens with
  | case1 loc =>
    cases h
    intro t ht
    rw [List.mem_singleton.1 ht]
    exact .inl rfl
  | case2 => cases h
  | case3 loc c rest kind n hmatch lexeme stop tail htail =>
    rename_i ih
    cases h
    intro t ht
    rcases List.mem_cons.1 ht with rfl | ht
    · refine .inr ⟨lexeme, (c :: rest).drop n, ?_, rfl⟩
      have hle : n ≤ (c :: rest).length := by
        rw [(firstMatch_eq_some hmatch).2]
        exact kind.reach_le _
      rw [List.take_append_drop, hmatch, List.length_take_of_le hle]
    · exact ih htail t ht
  | case4 => cases h

/-- A longest stretch of a property ends where the property does. -/
theorem ends_of_takeWhile {α : Type} {p : α → Bool} {xs ys : List α}
    (h : ((xs ++ ys).takeWhile p).length = xs.length) :
    (∀ x ∈ xs, p x = true) ∧ ∀ y ∈ ys.head?, p y = false := by
  have heq : (xs ++ ys).takeWhile p = xs :=
    (List.prefix_of_prefix_length_le (List.takeWhile_prefix p) (List.prefix_append xs ys)
      (Nat.le_of_eq h)).eq_of_length h
  have hall : ∀ x ∈ xs, p x = true := by
    have := List.all_takeWhile (p := p) (l := xs ++ ys)
    rw [heq] at this
    exact List.all_eq_true.1 this
  refine ⟨hall, fun y hy => ?_⟩
  obtain ⟨rest, rfl⟩ := List.head?_eq_some_iff.1 hy
  rw [List.takeWhile_append_of_pos hall, List.append_right_eq_self] at heq
  cases hp : p y with
  | false => rfl
  | true =>
    rw [List.takeWhile_cons_of_pos hp] at heq
    cases heq

/-- What the scanner cuts off as an identifier is one. -/
theorem IsIdentifier.of_firstMatch {lexeme rest : List Char}
    (h : Token.firstMatch Kind.written (lexeme ++ rest) = some (.identifier, lexeme.length)) :
    IsIdentifier (String.ofList lexeme) := by
  have hpos : 0 < lexeme.length := Token.firstMatch_pos h
  obtain ⟨hfirst, hlength⟩ := Token.firstMatch_eq_some h
  obtain ⟨c, cs, rfl⟩ := List.exists_cons_of_length_pos hpos
  obtain ⟨hc, hcs, hrest⟩ : Text.isWordStart c = true ∧ (∀ d ∈ cs, Text.isWordChar d = true) ∧
      ∀ d ∈ rest.head?, Text.isWordChar d = false := by
    simp only [Kind.reach, List.cons_append, Lexeme.identifier] at hlength
    split at hlength
    · have hcs : ((cs ++ rest).takeWhile Text.isWordChar).length = cs.length := by
        rw [List.length_cons] at hlength
        omega
      exact ⟨‹_›, ends_of_takeWhile hcs⟩
    · cases hlength
  refine ⟨⟨c, cs, by simp, hc, hcs⟩, fun word hword => ?_⟩
  -- a reserved word would have been tried before
  have hkeyword : 0 < (Kind.keyword word).reach (c :: cs ++ rest) := by
    have htext : word.text.toList = c :: cs := by rw [hword, String.toList_ofList]
    have hreach : (Kind.keyword word).reach (c :: cs ++ rest) = (c :: cs).length := by
      rw [← htext]
      exact Lexeme.keyword_append _ hrest
    rwa [hreach]
  rw [Kind.written_identifier, List.find?_append] at hfirst
  cases hfind : List.find? (fun kind : Kind => 0 < kind.reach (c :: cs ++ rest))
      ([.newline, .space, .comment, .number, .text] ++ Keyword.all.map .keyword) with
  | none =>
    have hmem : Kind.keyword word ∈ [Kind.newline, .space, .comment, .number, .text] ++
        Keyword.all.map .keyword := by cases word <;> decide
    have hnone := List.find?_eq_none.1 hfind _ hmem
    exact absurd (decide_eq_true hkeyword) hnone
  | some kind =>
    rw [hfind] at hfirst
    cases hfirst
    exact absurd (List.mem_of_find?_eq_some hfind) (by decide)

/-- The identifiers among the tokens of a text. -/
theorem Token.isIdentifier_of_tokenize {source : String} {tokens : List Token}
    (h : tokenize source = .ok tokens) : ∀ t ∈ tokens, t.kind = .identifier → IsIdentifier t.text := by
  obtain ⟨raw, hraw, hmem⟩ := Layout.mem_tokenize h
  intro t ht hk
  rcases hmem t ht with ⟨ht, -⟩ | ⟨hlayout, -⟩
  · rcases scanFrom_matches hraw t ht with hend | ⟨lexeme, rest, hmatch, htext⟩
    · rw [hk] at hend
      cases hend
    · rw [hk] at hmatch htext
      rw [htext]
      exact .of_firstMatch hmatch
  · rw [hk] at hlayout
    cases hlayout

/-! ### Blanks, signs and reserved words -/

theorem Token.firstMatch_blank {rest : List Char} (h : ∀ c ∈ rest.head?, Lexeme.isSpace c = false) :
    firstMatch Kind.written (' ' :: rest) = some (.space, 1) := by
  have hreach : Kind.space.reach (' ' :: rest) = 1 := by
    have hnone : rest.takeWhile Lexeme.isSpace = [] := by
      cases rest with
      | nil => rfl
      | cons c rest => rw [List.takeWhile_cons_of_neg (by simp [h c rfl])]
    show ((' ' :: rest).takeWhile Lexeme.isSpace).length = 1
    rw [List.takeWhile_cons_of_pos rfl, hnone]
    rfl
  have hsplit : Kind.written = [.newline] ++ .space :: Kind.written.drop 2 := rfl
  have hbefore : ∀ kind ∈ [Kind.newline], kind.reach (' ' :: rest) = 0 := by
    intro kind hkind
    rw [List.mem_singleton.1 hkind, Kind.reach_of_not_begins rfl]
  have hmatch := firstMatch_of_split hsplit hbefore (by rw [hreach]; exact Nat.one_pos)
  rwa [hreach] at hmatch

/-- The signs of annotations. -/
def Symbol.inTypes : List Symbol :=
  [.arrow, .less, .greater, .pipe, .comma, .openParen, .closeParen, .openBracket, .closeBracket]

/-- The longer signs that begin like one of them. -/
def Symbol.lengthened : List (Symbol × Symbol) :=
  [(.less, .lessEquals), (.greater, .greaterEquals), (.pipe, .orOr)]

theorem Lexeme.exactly_of_pair {a b : Char} {rest : List Char} (h : ∀ c ∈ rest.head?, c ≠ b) :
    exactly [a, b] (a :: rest) = 0 := by
  refine if_neg fun hprefix => ?_
  obtain ⟨tail, htail⟩ := (List.cons_prefix_cons.1 (List.isPrefixOf_iff_prefix.1 hprefix)).2
  exact h b (by rw [← htail]; rfl) rfl

/-- A sign is cut off where no longer one begins. -/
theorem Token.firstMatch_sign {s : Symbol} (hs : s ∈ Symbol.inTypes) {rest : List Char}
    (hrest : ∀ c ∈ rest.head?, c ≠ '=' ∧ c ≠ '|') :
    firstMatch Kind.written (s.text.toList ++ rest) = some (.symbol s, s.text.toList.length) := by
  have hsplit : ∀ s ∈ Symbol.inTypes, Kind.written = Kind.written.takeWhile (· ≠ .symbol s) ++
      .symbol s :: (Kind.written.dropWhile (· ≠ .symbol s)).tail := by decide
  -- what is tried before the sign is a longer sign that begins with it, or cannot begin here
  have hfirst : ∀ s ∈ Symbol.inTypes, ∀ kind ∈ Kind.written.takeWhile (· ≠ .symbol s),
      (∃ p ∈ Symbol.lengthened, p.1 = s ∧ kind = .symbol p.2) ∨
        s.text.toList.head?.all (!kind.begins ·) := by decide
  have hreach : (Kind.symbol s).reach (s.text.toList ++ rest) = s.text.toList.length :=
    Lexeme.exactly_append _ rest
  have hpos : ∀ s ∈ Symbol.inTypes, 0 < s.text.toList.length := by decide
  have hbefore : ∀ kind ∈ Kind.written.takeWhile (· ≠ .symbol s),
      kind.reach (s.text.toList ++ rest) = 0 := by
    intro kind hkind
    rcases hfirst s hs kind hkind with ⟨p, hp, rfl, rfl⟩ | hbegins
    · simp only [Symbol.lengthened, List.mem_cons, List.not_mem_nil, or_false] at hp
      rcases hp with rfl | rfl | rfl
      · exact Lexeme.exactly_of_pair fun c hc => (hrest c hc).1
      · exact Lexeme.exactly_of_pair fun c hc => (hrest c hc).1
      · exact Lexeme.exactly_of_pair fun c hc => (hrest c hc).2
    · obtain ⟨c, cs, htext⟩ := List.exists_cons_of_length_pos (hpos s hs)
      rw [htext] at hbegins ⊢
      exact Kind.reach_of_not_begins (by simpa using hbegins) _
  have hmatch := firstMatch_of_split (hsplit s hs) hbefore (by rw [hreach]; exact hpos s hs)
  rwa [hreach] at hmatch

theorem Token.firstMatch_fn {rest : List Char} (h : ∀ c ∈ rest.head?, Text.isWordChar c = false) :
    firstMatch Kind.written (Keyword.fnWord.text.toList ++ rest) =
      some (.keyword .fnWord, Keyword.fnWord.text.toList.length) := by
  have hreach : (Kind.keyword .fnWord).reach (Keyword.fnWord.text.toList ++ rest) =
      Keyword.fnWord.text.toList.length := Lexeme.keyword_append _ h
  have hsplit : Kind.written = Kind.written.take 10 ++ .keyword .fnWord :: Kind.written.drop 11 := rfl
  have hfirst : ∀ kind ∈ Kind.written.take 10, kind = .keyword .finalWord ∨ kind.begins 'f' = false := by
    decide
  have hbefore : ∀ kind ∈ Kind.written.take 10,
      kind.reach (Keyword.fnWord.text.toList ++ rest) = 0 := by
    intro kind hkind
    rcases hfirst kind hkind with rfl | hbegins
    · refine Nat.eq_zero_of_not_pos fun hpos => ?_
      exact absurd (Lexeme.exactly_of_keyword hpos) (Nat.lt_irrefl 0)
    · exact Kind.reach_of_not_begins hbegins _
  have hmatch := firstMatch_of_split hsplit hbefore (by rw [hreach]; decide)
  rwa [hreach] at hmatch

/-! ### Texts on one line -/

/-- The kinds of tokens that may stand on a line without any meaning for the layout. -/
def Kind.isOrdinary : Kind → Bool
  | .identifier | .keyword _ => true
  | .symbol sign => sign ∉ [.colon, .openBrace]
  | _ => false

/-- The text is made of the words, each of them cut off as it stands, and of single blanks. -/
inductive Spells : List Char → List Word → Prop
  | nil : Spells [] []
  | blank {cs : List Char} {words : List Word} (solid : ∀ c ∈ cs.head?, Lexeme.isSpace c = false)
      (h : Spells cs words) : Spells (' ' :: cs) words
  | word {kind : Kind} {text : String} {cs : List Char} {words : List Word}
      (cut : Token.firstMatch Kind.written (text.toList ++ cs) = some (kind, text.toList.length))
      (ordinary : kind.isOrdinary = true) (line : '\n' ∉ text.toList) (h : Spells cs words) :
      Spells (text.toList ++ cs) ((kind, text) :: words)

namespace Layout

theorem enter_line (width : Nat) (span : Span) : enter [] width none span = .ok ([], []) := by
  unfold enter
  split
  · rfl
  · rename_i h
    rw [Nat.eq_zero_of_not_pos h]
    rfl

theorem State.pass_line {s : State} {t : Token} (hlevels : s.levels = []) (hopener : s.opener = none)
    (ht : t.kind ≠ .newline) :
    (s.pass t).1 = [t] ∧ (s.pass t).2.levels = [] ∧ (s.pass t).2.opener = none := by
  unfold State.pass
  split
  · exact absurd ‹_› ht
  · simp [closing, hlevels, hopener]
  all_goals exact ⟨rfl, hlevels, hopener⟩

/-- A line that follows no opener needs no marks, however far it is indented. -/
theorem mark_line {s : State} {tokens : List Token} (hlevels : s.levels = []) (hopener : s.opener = none)
    (h : ∀ t ∈ tokens, t.kind ≠ .newline) : mark s tokens = .ok tokens := by
  induction tokens generalizing s with
  | nil => rfl
  | cons t rest ih =>
    have ht : t.kind ≠ .newline := h t List.mem_cons_self
    have hrest : ∀ u ∈ rest, u.kind ≠ .newline := fun u hu => h u (List.mem_cons_of_mem t hu)
    have hpassed {s : State} (hl : s.levels = []) (ho : s.opener = none) :
        (mark (s.pass t).2 rest).map ((s.pass t).1 ++ ·) = .ok (t :: rest) := by
      obtain ⟨hout, hl', ho'⟩ := State.pass_line hl ho ht
      rw [hout, ih hl' ho' hrest]
      rfl
    by_cases hhead : s.fresh = false ∨ lineHead (t :: rest) = none
    · rw [mark_of_pass hhead]
      exact hpassed hlevels hopener
    · obtain ⟨hfresh, hsome⟩ := not_or.1 hhead
      obtain ⟨first, hfirst⟩ := Option.ne_none_iff_exists'.1 hsome
      rw [mark, Bool.eq_true_of_not_eq_false hfresh, if_pos rfl, hfirst]
      simp only [hlevels, hopener, enter_line]
      split
      · rw [ih rfl rfl hrest]
        rfl
      · exact hpassed rfl rfl

theorem dropOpeners_eq {tokens : List Token} (h : ∀ t ∈ tokens, t.kind ≠ .symbol .colon) :
    dropOpeners tokens = tokens := by
  induction tokens with
  | nil => rfl
  | cons t rest ih =>
    rw [dropOpeners, if_neg fun ht => h t List.mem_cons_self ht.1,
      ih fun u hu => h u (List.mem_cons_of_mem t hu)]

end Layout

theorem Loc.line_after {l : Loc} {cs : List Char} (h : '\n' ∉ cs) : (l.after cs).line = l.line := by
  induction cs generalizing l with
  | nil => rfl
  | cons c cs ih =>
    obtain ⟨hc, hcs⟩ := not_or.1 (mt List.mem_cons.2 h)
    have hnext : (l.next c).line = l.line := by rw [next, if_neg (Ne.symm hc)]
    exact (ih hcs).trans hnext

theorem Token.scanFrom_append {loc : Loc} {kind : Kind} {text : String} {cs : List Char}
    (h : firstMatch Kind.written (text.toList ++ cs) = some (kind, text.toList.length))
    (hk : kind ≠ .text) : scanFrom Kind.written loc (text.toList ++ cs) =
      (scanFrom Kind.written (loc.after text.toList) cs).map
        (⟨kind, text, ⟨loc, loc.after text.toList⟩⟩ :: ·) := by
  have hpos := firstMatch_pos h
  obtain ⟨c, tail, htext⟩ := List.exists_cons_of_length_pos hpos
  rw [htext, List.cons_append] at h ⊢
  rw [scanFrom_cons h, ← List.cons_append, List.take_left, List.drop_left, text_textOf hk, ← htext,
    String.ofList_toList]

/-- The tokens of a text, of which those that are no blanks are the words it spells. -/
theorem Spells.scanFrom {cs : List Char} {words : List Word} (h : Spells cs words) (loc : Loc) :
    ∃ body stop, Token.scanFrom Kind.written loc cs = .ok (body ++ [Token.endAt stop]) ∧
      (body.filter (!·.kind.isTrivia)).map Token.word = words ∧
      ∀ t ∈ body, (t.kind = .space ∨ t.kind.isOrdinary = true) ∧
        t.span.start.line = loc.line ∧ t.span.stop.line = loc.line := by
  induction h generalizing loc with
  | nil => exact ⟨[], loc, by rw [Token.scanFrom]; rfl, rfl, by simp⟩
  | @blank cs words solid h ih =>
    have hmatch := Token.firstMatch_blank solid
    obtain ⟨body, stop, hscan, hwords, hbody⟩ := ih (loc.after [' '])
    refine ⟨⟨.space, " ", ⟨loc, loc.after [' ']⟩⟩ :: body, stop, ?_, hwords, ?_⟩
    · rw [Token.scanFrom_cons hmatch, List.take_succ_cons, List.drop_succ_cons, List.take_zero,
        List.drop_zero, hscan]
      rfl
    · exact List.forall_mem_cons.2 ⟨⟨.inl rfl, rfl, rfl⟩, hbody⟩
  | @word kind text cs words cut ordinary line h ih =>
    have hk : kind ≠ .text := by
      rintro rfl
      cases ordinary
    have htrivia : kind.isTrivia = false := by
      cases kind <;> first | rfl | cases ordinary
    obtain ⟨body, stop, hscan, hwords, hbody⟩ := ih (loc.after text.toList)
    rw [Loc.line_after line] at hbody
    refine ⟨⟨kind, text, ⟨loc, loc.after text.toList⟩⟩ :: body, stop, ?_, ?_, ?_⟩
    · rw [Token.scanFrom_append cut hk, hscan]
      rfl
    · simp [htrivia, hwords, Token.word]
    · exact List.forall_mem_cons.2 ⟨⟨.inr ordinary, rfl, Loc.line_after line⟩, hbody⟩

/-- The tokens of a text on one line are the words that it spells. -/
theorem Spells.tokenize {source : String} {words : List Word} (h : Spells source.toList words) :
    ∃ tokens stop, Token.tokenize source = .ok (tokens ++ [Token.endAt stop]) ∧
      Faces 1 words [Token.endAt stop] (Cursor.ofTokens (tokens ++ [Token.endAt stop])) := by
  obtain ⟨body, stop, hscan, hwords, hbody⟩ := h.scanFrom .start
  -- no line ends and none opens a block, so marking and tidying leave the words alone
  have hkinds : ∀ t ∈ body ++ [Token.endAt stop],
      t.kind ∉ [.newline, .symbol .colon, .symbol .openBrace] := by
    refine List.forall_mem_append.2 ⟨fun t ht => ?_, by simp [Token.endAt, Token.endOfFile]⟩
    rcases (hbody t ht).1 with hk | hk
    · rw [hk]
      decide
    · intro hmem
      have hnone : ∀ k ∈ [Kind.newline, .symbol .colon, .symbol .openBrace], k.isOrdinary = false := by
        decide
      rw [hnone _ hmem] at hk
      cases hk
  have hvisible : (body ++ [Token.endAt stop]).filter (!·.kind.isTrivia) =
      body.filter (!·.kind.isTrivia) ++ [Token.endAt stop] := by
    rw [List.filter_append]
    rfl
  have hsub : ∀ t ∈ body.filter (!·.kind.isTrivia) ++ [Token.endAt stop],
      t ∈ body ++ [Token.endAt stop] := by
    rw [← hvisible]
    exact fun t ht => (List.mem_filter.1 ht).1
  refine ⟨body.filter (!·.kind.isTrivia), stop, ?_, ⟨_, ?_, hwords, ?_⟩, ?_⟩
  · have hmark : Layout.mark {} (body ++ [Token.endAt stop]) = .ok (body ++ [Token.endAt stop]) :=
      Layout.mark_line rfl rfl fun t ht hk => hkinds t ht (by simp [hk])
    have hdrop := Layout.dropOpeners_eq fun t ht hk => hkinds t (hsub t ht) (by simp [hk])
    rw [Token.tokenize, Token.tokenizeWith, Token.scan, hscan]
    simp only [hmark, Except.map, Layout.tidy, hvisible, hdrop]
  · simp [Cursor.ofTokens, Token.endAt, Token.endOfFile]
  · exact fun t ht => (hbody t (List.mem_filter.1 ht).1).2
  · intro t ht hk
    refine hkinds t (hsub t ?_) (by simp [hk])
    simpa [Cursor.ofTokens, Token.endAt, Token.endOfFile] using ht

end Sable
