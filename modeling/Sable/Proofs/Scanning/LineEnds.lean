import Sable.Proofs.Diagnostics.Sources
import Sable.Proofs.Layout.Trivia

/-!
# Sources with and without carriage returns

`crlf` puts a carriage return before every newline. The tokens of a source stay the same but for byte
offsets (`Token.sight`): a token of a kind with `Kind.withinLine` does not depend on what follows its
line, and the carriage return becomes part of the line end.
-/

namespace Sable

/-! ### Tokens of a line -/

/-- The kinds whose tokens stand on one line, its end not included. -/
def Kind.withinLine : Kind → Bool
  | .newline | .text => false
  | _ => true

section

variable {line rest : List Char}

theorem takeWhile_line {p : Char → Bool} (h : ∀ c ∈ rest.head?, p c = false) :
    (line ++ rest).takeWhile p = line.takeWhile p := by
  induction line with
  | nil =>
    cases rest with
    | nil => rfl
    | cons c rest => exact List.takeWhile_cons_of_neg (by simp [h c rfl])
  | cons c line ih => rw [List.cons_append, List.takeWhile_cons, List.takeWhile_cons, ih]

namespace Lexeme

theorem exactly_line {word : List Char} (hword : ∀ c ∈ word, isLineEnd c = false)
    (h : ∀ c ∈ rest.head?, isLineEnd c = true) : exactly word (line ++ rest) = exactly word line := by
  have hstarts : word <+: line ++ rest ↔ word <+: line := by
    refine ⟨fun hp => ?_, fun hp => hp.trans (List.prefix_append line rest)⟩
    rcases Nat.le_total word.length line.length with hle | hle
    · exact List.prefix_of_prefix_length_le hp (List.prefix_append line rest) hle
    · -- a longer word would go on with the end of the line
      obtain ⟨more, rfl⟩ := List.prefix_of_prefix_length_le (List.prefix_append line rest) hp hle
      have hmore : more <+: rest := (List.prefix_append_right_inj line).1 hp
      cases more with
      | nil => exact (List.append_nil line).symm ▸ List.prefix_refl line
      | cons c more =>
        obtain ⟨tail, rfl⟩ := hmore
        have hc := h c rfl
        rw [hword c (by simp)] at hc
        cases hc
  simp only [exactly, List.isPrefixOf_iff_prefix, hstarts]

theorem keyword_line {word : List Char} (hword : ∀ c ∈ word, isLineEnd c = false)
    (h : ∀ c ∈ rest.head?, isLineEnd c = true ∧ Text.isWordChar c = false) :
    keyword word (line ++ rest) = keyword word line := by
  have hexactly : exactly word (line ++ rest) = exactly word line :=
    exactly_line hword fun c hc => (h c hc).1
  unfold keyword
  rcases Nat.lt_or_ge word.length line.length with hlt | hge
  · obtain ⟨c, tail, htail⟩ : ∃ c tail, line.drop word.length = c :: tail :=
      List.exists_cons_of_length_pos (by rw [List.length_drop]; omega)
    rw [List.drop_append_of_le_length (Nat.le_of_lt hlt), htail, List.cons_append, hexactly]
  · -- the word takes the whole line or more, and no character of a word follows
    have hnone : line.drop word.length = [] := List.drop_eq_nil_of_le hge
    rw [hnone, hexactly]
    rcases Nat.eq_or_lt_of_le hge with heq | hlt
    · rw [← heq, List.drop_left]
      cases rest with
      | nil => rfl
      | cons c rest => simp only [(h c rfl).2, Bool.false_eq_true, if_false]
    · have hzero : exactly word line = 0 :=
        if_neg fun hp => absurd (List.isPrefixOf_iff_prefix.1 hp).length_le (Nat.not_le.2 hlt)
      rw [hzero]
      split
      · exact ite_self 0
      · rfl

theorem fraction_line (h : ∀ c ∈ rest.head?, c ≠ '.' ∧ c.isDigit = false) :
    fraction (line ++ rest) = fraction line := by
  cases line with
  | nil =>
    cases rest with
    | nil => rfl
    | cons c rest =>
      have hpoint := (h c rfl).1
      unfold fraction
      split
      · rename_i heq
        exact absurd (List.cons.inj heq).1 hpoint
      · rfl
  | cons c line =>
    have hdigits : digits (line ++ rest) = digits line := by
      rw [digits, digits, takeWhile_line fun d hd => (h d hd).2]
    by_cases hc : c = '.'
    · rw [hc]
      simp only [List.cons_append, fraction, hdigits]
    · simp [fraction, hc]

theorem number_line (h : ∀ c ∈ rest.head?, c ≠ '.' ∧ c.isDigit = false) :
    number (line ++ rest) = number line := by
  have hdigits : digits (line ++ rest) = digits line := by
    rw [digits, digits, takeWhile_line fun d hd => (h d hd).2]
  rw [number, number, hdigits, List.drop_append_of_le_length (digits_le line), fraction_line h]

theorem comment_line (h : ∀ c ∈ rest.head?, c ≠ '/' ∧ isLineEnd c = true) :
    comment (line ++ rest) = comment line := by
  have htail (tail : List Char) :
      (tail ++ rest).takeWhile (!isLineEnd ·) = tail.takeWhile (!isLineEnd ·) :=
    takeWhile_line fun c hc => by simp [(h c hc).2]
  cases line with
  | nil =>
    cases rest with
    | nil => rfl
    | cons c rest => simp [comment, (h c rfl).1]
  | cons a line =>
    cases line with
    | nil =>
      cases rest with
      | nil => rfl
      | cons c rest => simp [comment, (h c rfl).1]
    | cons b line =>
      by_cases hab : a = '/' ∧ b = '/'
      · obtain ⟨rfl, rfl⟩ := hab
        simp only [List.cons_append, comment, htail]
      · unfold comment
        split
        · rename_i heq
          exact absurd ⟨(List.cons.inj heq).1, (List.cons.inj (List.cons.inj heq).2).1⟩ hab
        · split
          · rename_i heq
            exact absurd ⟨(List.cons.inj heq).1, (List.cons.inj (List.cons.inj heq).2).1⟩ hab
          · rfl

theorem identifier_line (h : ∀ c ∈ rest.head?, Text.isWordChar c = false) :
    identifier (line ++ rest) = identifier line := by
  cases line with
  | nil =>
    cases rest with
    | nil => rfl
    | cons c rest =>
      have hstart : ¬ Text.isWordStart c = true := fun hc => by
        have hword := Text.isWordChar_of_isWordStart hc
        rw [h c rfl] at hword
        cases hword
      simp only [List.nil_append, identifier, if_neg hstart]
  | cons c line => simp only [List.cons_append, identifier, takeWhile_line h]

end Lexeme

/-- The length of a token of a line does not depend on what comes after the line. -/
theorem Kind.reach_line {kind : Kind} (hkind : kind.withinLine = true)
    (h : ∀ c ∈ rest.head?, Lexeme.isLineEnd c = true) : kind.reach (line ++ rest) = kind.reach line := by
  have hends : ∀ c ∈ rest.head?, c = '\n' ∨ c = '\r' := fun c hc => by
    simpa [Lexeme.isLineEnd] using h c hc
  have hword : ∀ c ∈ rest.head?, Text.isWordChar c = false := fun c hc => by
    rcases hends c hc with rfl | rfl <;> decide
  have hdigit : ∀ c ∈ rest.head?, c ≠ '.' ∧ c.isDigit = false := fun c hc => by
    rcases hends c hc with rfl | rfl <;> decide
  cases kind with
  | number => exact Lexeme.number_line hdigit
  | identifier => exact Lexeme.identifier_line hword
  | keyword word =>
    have hplain : word.text.toList.all (!Lexeme.isLineEnd ·) := by cases word <;> rfl
    exact Lexeme.keyword_line (fun c hc => by simpa using List.all_eq_true.1 hplain c hc)
      fun c hc => ⟨h c hc, hword c hc⟩
  | symbol sign =>
    have hplain : sign.text.toList.all (!Lexeme.isLineEnd ·) := by cases sign <;> rfl
    exact Lexeme.exactly_line (fun c hc => by simpa using List.all_eq_true.1 hplain c hc) h
  | space =>
    refine congrArg List.length (takeWhile_line fun c hc => ?_)
    rcases hends c hc with rfl | rfl <;> rfl
  | comment =>
    refine Lexeme.comment_line fun c hc => ⟨?_, h c hc⟩
    rcases hends c hc with rfl | rfl <;> decide
  | indent | dedent | endOfFile => rfl
  | newline | text => cases hkind

end

/-! ### Carriage returns -/

/-- The text with a carriage return before every newline. -/
def withReturns (cs : List Char) : List Char :=
  cs.flatMap fun c => if c = '\n' then ['\r', '\n'] else [c]

section

variable {cs : List Char} {n : Nat}

theorem withReturns_append (cs cs' : List Char) :
    withReturns (cs ++ cs') = withReturns cs ++ withReturns cs' :=
  List.flatMap_append

theorem withReturns_cons {c : Char} (hc : c ≠ '\n') (cs : List Char) :
    withReturns (c :: cs) = c :: withReturns cs := by
  rw [withReturns, List.flatMap_cons, if_neg hc]
  rfl

theorem withReturns_of_line (h : '\n' ∉ cs) : withReturns cs = cs := by
  induction cs with
  | nil => rfl
  | cons c cs ih =>
    obtain ⟨hc, hcs⟩ := not_or.1 (mt List.mem_cons.2 h)
    rw [withReturns_cons (Ne.symm hc), ih hcs]

theorem length_withReturns_pos (cs : List Char) : 0 < (withReturns cs).length ↔ 0 < cs.length := by
  cases cs with
  | nil => rfl
  | cons c cs =>
    rw [withReturns, List.flatMap_cons]
    split <;> simp

/-- The part of the text up to a point, and the part behind it. -/
theorem withReturns_split (cs : List Char) (n : Nat) :
    (withReturns cs).take (withReturns (cs.take n)).length = withReturns (cs.take n) ∧
      (withReturns cs).drop (withReturns (cs.take n)).length = withReturns (cs.drop n) := by
  have hsplit : withReturns cs = withReturns (cs.take n) ++ withReturns (cs.drop n) := by
    rw [← withReturns_append, List.take_append_drop]
  constructor
  · rw [hsplit, List.take_left]
  · rw [hsplit, List.drop_left]

namespace Lexeme

theorem quoteEnd_withReturns (cs : List Char) :
    quoteEnd (withReturns cs) = (quoteEnd cs).map fun n => (withReturns (cs.take n)).length := by
  fun_induction quoteEnd cs with
  | case1 => rfl
  | case2 rest => rfl
  | case3 c rest ih =>
    rw [Option.map_map]
    by_cases hc : c = '\n'
    -- the backslash takes the return with it, and the line end is a character of its own
    · subst hc
      show quoteEnd ('\\' :: '\r' :: '\n' :: withReturns rest) = _
      rw [quoteEnd, quoteEnd, ih, Option.map_map, Option.map_map]
      · refine congrArg (Option.map · _) (funext fun n => ?_)
        show 2 + (1 + (withReturns (rest.take n)).length) =
          (withReturns (('\\' :: '\n' :: rest).take (2 + n))).length
        rw [Nat.add_comm 2 n, List.take_succ_cons, List.take_succ_cons]
        show _ = (withReturns (rest.take n)).length + 3
        omega
      all_goals exact nofun
    · rw [withReturns_cons (by decide), withReturns_cons hc, quoteEnd, ih, Option.map_map]
      refine congrArg (Option.map · _) (funext fun n => ?_)
      show 2 + (withReturns (rest.take n)).length =
        (withReturns (('\\' :: c :: rest).take (2 + n))).length
      rw [Nat.add_comm 2 n, List.take_succ_cons, List.take_succ_cons, withReturns_cons (by decide),
        withReturns_cons hc, List.length_cons, List.length_cons]
      omega
  | case4 => rfl
  | case5 c rest hquote hpair hlone ih =>
    rw [Option.map_map]
    by_cases hc : c = '\n'
    · subst hc
      show quoteEnd ('\r' :: '\n' :: withReturns rest) = _
      rw [quoteEnd, quoteEnd, ih, Option.map_map, Option.map_map]
      · refine congrArg (Option.map · _) (funext fun n => ?_)
        show 1 + (1 + (withReturns (rest.take n)).length) =
          (withReturns (('\n' :: rest).take (1 + n))).length
        rw [Nat.add_comm 1 n, List.take_succ_cons]
        show _ = (withReturns (rest.take n)).length + 2
        omega
      all_goals exact nofun
    · have hslash : c ≠ '\\' := by
        rintro rfl
        cases rest with
        | nil => exact hlone rfl rfl
        | cons d rest => exact hpair d rest rfl rfl
      rw [withReturns_cons hc, quoteEnd, ih, Option.map_map]
      · refine congrArg (Option.map · _) (funext fun n => ?_)
        show 1 + (withReturns (rest.take n)).length = (withReturns ((c :: rest).take (1 + n))).length
        rw [Nat.add_comm 1 n, List.take_succ_cons, withReturns_cons hc, List.length_cons]
        omega
      · exact hquote
      · exact fun _ _ hc _ => hslash hc
      · exact fun hc _ => hslash hc

theorem text_withReturns (cs : List Char) :
    text (withReturns cs) = (withReturns (cs.take (text cs))).length := by
  cases cs with
  | nil => rfl
  | cons c cs =>
    by_cases hc : c = '"'
    · subst hc
      rw [withReturns_cons (by decide)]
      simp only [text, quoteEnd_withReturns]
      cases quoteEnd cs with
      | none => rfl
      | some n =>
        simp only [Option.map_some]
        rw [Nat.add_comm 1 n, List.take_succ_cons, withReturns_cons (by decide), List.length_cons]
        omega
    · have hnone (d : Char) (hd : d ≠ '"') (ds : List Char) : text (d :: ds) = 0 := by
        unfold text
        split
        · rename_i heq
          exact absurd (List.cons.inj heq).1 hd
        · rfl
      rw [hnone c hc]
      by_cases hn : c = '\n'
      · subst hn
        exact hnone '\r' (by decide) _
      · rw [withReturns_cons hn, hnone c hc]
        rfl

theorem newline_withReturns (h : '\r' ∉ cs) :
    newline (withReturns cs) = (withReturns (cs.take (newline cs))).length := by
  cases cs with
  | nil => rfl
  | cons c cs =>
    have hreturn : c ≠ '\r' := fun hc => h (hc ▸ List.mem_cons_self)
    by_cases hc : c = '\n'
    · subst hc
      rfl
    · have hnone (ds : List Char) : newline (c :: ds) = 0 := by
        unfold newline
        split
        · rename_i heq
          exact absurd (List.cons.inj heq).1 hreturn
        · rename_i heq
          exact absurd (List.cons.inj heq).1 hc
        · rfl
      rw [withReturns_cons hc, hnone, hnone]
      rfl

end Lexeme

/-- A token of a line is the same with and without carriage returns. -/
theorem Kind.reach_withinLine {kind : Kind} (hkind : kind.withinLine = true) (cs : List Char) :
    kind.reach (withReturns cs) = kind.reach cs ∧ '\n' ∉ cs.take (kind.reach cs) := by
  have hsplit := List.takeWhile_append_dropWhile (p := (· ≠ '\n')) (l := cs)
  have hline : '\n' ∉ cs.takeWhile (· ≠ '\n') := fun hmem => by
    simpa using List.all_eq_true.1 List.all_takeWhile _ hmem
  generalize cs.takeWhile (· ≠ '\n') = line at hsplit hline
  have hrest : ∀ c ∈ (cs.dropWhile (· ≠ '\n')).head?, c = '\n' := fun c hc => by
    have hhead := List.head?_dropWhile_not (· ≠ '\n') cs
    rw [Option.mem_def.1 hc] at hhead
    simpa using hhead
  generalize cs.dropWhile (· ≠ '\n') = rest at hsplit hrest
  subst hsplit
  -- with a return before it, a line still ends where it did
  have hreturns : ∀ c ∈ (withReturns rest).head?, Lexeme.isLineEnd c = true := by
    cases rest with
    | nil => exact nofun
    | cons d rest =>
      obtain rfl : d = '\n' := hrest d rfl
      rintro c ⟨⟩
      rfl
  have hreach : kind.reach (line ++ rest) = kind.reach line := by
    refine reach_line hkind fun c hc => ?_
    rw [hrest c hc]
    rfl
  constructor
  · rw [withReturns_append, withReturns_of_line hline, reach_line hkind hreturns, hreach]
  · rw [hreach, List.take_append_of_le_length (kind.reach_le line)]
    exact fun hmem => hline (List.mem_of_mem_take hmem)

/-- With carriage returns a token reaches as far as it did, these counted. -/
theorem Kind.reach_withReturns (kind : Kind) (h : '\r' ∉ cs) :
    kind.reach (withReturns cs) = (withReturns (cs.take (kind.reach cs))).length := by
  cases hkind : kind.withinLine with
  | true =>
    obtain ⟨hreach, hline⟩ := reach_withinLine hkind cs
    rw [hreach, withReturns_of_line hline, List.length_take_of_le (kind.reach_le cs)]
  | false =>
    cases kind with
    | newline => exact Lexeme.newline_withReturns h
    | text => exact Lexeme.text_withReturns cs
    | _ => cases hkind

namespace Token

theorem firstMatch_withReturns (kinds : List Kind) (h : '\r' ∉ cs) :
    firstMatch kinds (withReturns cs) =
      (firstMatch kinds cs).map fun x => (x.1, (withReturns (cs.take x.2)).length) := by
  have hpos (kind : Kind) : 0 < kind.reach (withReturns cs) ↔ 0 < kind.reach cs := by
    rw [kind.reach_withReturns h, length_withReturns_pos, List.length_take_of_le (kind.reach_le cs)]
  unfold firstMatch
  simp only [hpos, Option.map_map]
  refine congrArg (Option.map · _) (funext fun kind => ?_)
  exact congrArg (Prod.mk kind) (kind.reach_withReturns h)

end Token

end

/-! ### Places without offsets -/

/-- Line and column of a location. -/
def Loc.sight (l : Loc) : Loc :=
  ⟨l.line, l.column, 0⟩

/-- The token with lines and columns only. -/
def Token.sight (t : Token) : Token :=
  ⟨t.kind, t.text, ⟨t.span.start.sight, t.span.stop.sight⟩⟩

theorem Token.recast_sight {t : Token} (h : t.kind ≠ .newline) : t.recast Loc.sight = t.sight := by
  rw [recast, if_neg h]
  rfl

section

variable {l l' : Loc}

theorem Loc.sight_eq_iff : l'.sight = l.sight ↔ l'.line = l.line ∧ l'.column = l.column := by
  simp [sight]

theorem Loc.sight_next (h : l'.sight = l.sight) (c : Char) : (l'.next c).sight = (l.next c).sight := by
  obtain ⟨hline, hcolumn⟩ := sight_eq_iff.1 h
  unfold next
  split <;> simp [sight, hline, hcolumn]

/-- A carriage return before a newline leads to the same line and column. -/
theorem Loc.sight_after (h : l'.sight = l.sight) (cs : List Char) :
    (l'.after (withReturns cs)).sight = (l.after cs).sight := by
  induction cs generalizing l l' with
  | nil => exact h
  | cons c cs ih =>
    by_cases hc : c = '\n'
    · subst hc
      refine ih ?_
      simp [sight, next, (sight_eq_iff.1 h).1]
    · rw [withReturns_cons hc]
      exact ih (sight_next h c)

theorem Loc.line_after_eq (l : Loc) (cs : List Char) : (l.after cs).line = l.line + cs.count '\n' := by
  induction cs generalizing l with
  | nil => rfl
  | cons c cs ih =>
    refine (ih (l.next c)).trans ?_
    by_cases hc : c = '\n'
    · simp [next, hc]
      omega
    · simp [next, hc]

end

namespace Token

/-- The token that is cut off with carriage returns, at a place with the same line and column. -/
theorem recast_withReturns {kinds : List Kind} {cs : List Char} {kind : Kind} {n : Nat} {loc loc' : Loc}
    (hloc : loc'.sight = loc.sight) (hmatch : firstMatch kinds cs = some (kind, n))
    (htext : kind = .text → (loc.after (cs.take n)).line = loc.line) :
    Token.recast Loc.sight ⟨kind, textOf kind (withReturns (cs.take n)),
        ⟨loc', loc'.after (withReturns (cs.take n))⟩⟩ =
      Token.recast Loc.sight ⟨kind, textOf kind (cs.take n), ⟨loc, loc.after (cs.take n)⟩⟩ := by
  have hspan := Loc.sight_after hloc (cs.take n)
  have hlexeme (hk : kind ≠ .newline) : withReturns (cs.take n) = cs.take n := by
    refine withReturns_of_line ?_
    cases hkind : kind.withinLine with
    | true =>
      obtain ⟨-, rfl⟩ := firstMatch_eq_some hmatch
      exact (Kind.reach_withinLine hkind cs).2
    | false =>
      have hquoted : kind = .text := by
        cases kind with
        | text => rfl
        | newline => exact absurd rfl hk
        | _ => cases hkind
      have hline := htext hquoted
      rw [Loc.line_after_eq] at hline
      exact List.count_eq_zero.1 (by omega)
  simp only [recast, hloc, hspan]
  by_cases hk : kind = .newline
  · simp only [if_pos hk]
  · simp only [if_neg hk, hlexeme hk]

/-- With carriage returns the same tokens are cut off, places without offsets and line ends aside. -/
theorem scanFrom_withReturns {kinds : List Kind} {loc loc' : Loc} {cs : List Char} {tokens : List Token}
    (hloc : loc'.sight = loc.sight) (hcs : '\r' ∉ cs) (h : scanFrom kinds loc cs = .ok tokens)
    (htexts : ∀ t ∈ tokens, t.kind = .text → t.span.stop.line = t.span.start.line) :
    ∃ tokens', scanFrom kinds loc' (withReturns cs) = .ok tokens' ∧
      tokens'.map (·.recast Loc.sight) = tokens.map (·.recast Loc.sight) := by
  fun_induction scanFrom kinds loc cs generalizing tokens loc' with
  | case1 loc =>
    cases h
    refine ⟨[endAt loc'], by rw [withReturns, List.flatMap_nil, scanFrom]; rfl, ?_⟩
    simp [endAt, endOfFile, recast, Loc.sight, (Loc.sight_eq_iff.1 hloc).1]
  | case2 => cases h
  | case3 loc c rest kind n hmatch lexeme stop tail =>
    rename_i htail ih
    cases h
    obtain ⟨htext, hrest⟩ := List.forall_mem_cons.1 htexts
    have hdrop : '\r' ∉ (c :: rest).drop n := fun hmem => hcs (List.mem_of_mem_drop hmem)
    obtain ⟨tail', htail', hsame⟩ := ih (Loc.sight_after hloc lexeme) hdrop htail hrest
    have hmatch' := firstMatch_withReturns kinds hcs
    rw [hmatch, Option.map_some] at hmatch'
    obtain ⟨htake, hdrop'⟩ := withReturns_split (c :: rest) n
    have hhead := recast_withReturns hloc hmatch htext
    refine ⟨_ :: tail', ?_, List.cons_eq_cons.2 ⟨hhead, hsame⟩⟩
    -- the text with returns is not empty, but need not begin with the same character
    obtain ⟨d, ds, hds⟩ : ∃ d ds, withReturns (c :: rest) = d :: ds := by
      refine List.exists_cons_of_length_pos ?_
      rw [length_withReturns_pos]
      exact Nat.succ_pos _
    rw [hds] at hmatch' htake hdrop' ⊢
    rw [scanFrom_cons hmatch', htake, hdrop', htail']
    rfl
  | case4 => cases h

end Token

section

variable {f : Loc → Loc} {x' : Except LexError (List Token)}

theorem recastAll_eq_ok {out : List Token} (h : recastAll f x' = recastAll f (.ok out)) :
    ∃ out', x' = .ok out' ∧ out'.map (·.recast f) = out.map (·.recast f) := by
  cases x' with
  | ok out' => exact ⟨out', rfl, Except.ok.inj h⟩
  | error e => cases h

theorem recastAll_eq_indentation {width : Nat} {loc : Loc}
    (h : recastAll f x' = recastAll f (.error (.indentation width loc))) :
    ∃ loc', x' = .error (.indentation width loc') ∧ f loc' = f loc := by
  cases x' with
  | ok out' => cases h
  | error e =>
    have he : e.recast f = .indentation width (f loc) := Except.error.inj h
    cases e with
    | unexpected c loc' => cases he
    | indentation width' loc' =>
      obtain ⟨rfl, hloc⟩ := LexError.indentation.inj he
      exact ⟨loc', rfl, hloc⟩

/-- What the grammar sees has no line ends, so no token of it was written in two ways. -/
theorem Layout.sight_tidy (tokens : List Token) :
    (tidy tokens).map Token.sight = tidy (tokens.map (·.recast Loc.sight)) := by
  rw [tidy_recast]
  refine List.map_congr_left fun t ht => ?_
  exact (Token.recast_sight (not_newline_of_mem_tidy t ht)).symm

end

/-- The source with a carriage return before every newline. -/
def crlf (source : String) : String :=
  String.ofList (withReturns source.toList)

/-- A source without carriage returns, which is cut into tokens, comes to the same tokens with a carriage
return before every newline, offsets aside; or to the same fault at the same line and column. Only a
text that goes on over a newline would change. -/
theorem Token.tokenize_crlf {source : String} {raw : List Token} (hreturns : '\r' ∉ source.toList)
    (hscan : scan Kind.written source = .ok raw)
    (htexts : ∀ t ∈ raw, t.kind = .text → t.span.stop.line = t.span.start.line) :
    (∀ tokens, tokenize source = .ok tokens → ∃ tokens',
      tokenize (crlf source) = .ok tokens' ∧
        tokens'.map Token.sight = tokens.map Token.sight) ∧
    ∀ e, tokenize source = .error e → ∃ width loc loc', e = .indentation width loc ∧
      tokenize (crlf source) = .error (.indentation width loc') ∧ loc'.sight = loc.sight := by
  obtain ⟨raw', hscan', hsame⟩ := scanFrom_withReturns rfl hreturns hscan htexts
  have htokens : tokenize source = (Layout.mark {} raw).map Layout.tidy := by
    rw [tokenize, tokenizeWith, hscan]
  have htokens' : tokenize (crlf source) = (Layout.mark {} raw').map Layout.tidy := by
    rw [tokenize, tokenizeWith, scan, crlf, String.toList_ofList, hscan']
  have hrecast : recastAll Loc.sight (Layout.mark {} raw') = recastAll Loc.sight (Layout.mark {} raw) := by
    rw [← Layout.mark_recast, ← Layout.mark_recast, hsame]
  rw [htokens, htokens']
  cases hmark : Layout.mark {} raw with
  | ok out =>
    rw [hmark] at hrecast
    obtain ⟨out', hmark', hout⟩ := recastAll_eq_ok hrecast
    rw [hmark']
    refine ⟨?_, by rintro _ ⟨⟩⟩
    rintro tokens ⟨⟩
    refine ⟨_, rfl, ?_⟩
    rw [Layout.sight_tidy, Layout.sight_tidy, hout]
  | error e =>
    -- with tokens from a scan there is nothing but a width to fail for
    have hscans : Scans Kind.written [] source.toList raw := scanFrom_scans hscan
    obtain ⟨_, _, _, -, rfl⟩ := Layout.mark_error hscans (fun _ => .inl rfl) hmark
    rw [hmark] at hrecast
    obtain ⟨loc', hmark', hloc⟩ := recastAll_eq_indentation hrecast
    rw [hmark']
    refine ⟨by rintro _ ⟨⟩, ?_⟩
    rintro e ⟨⟩
    exact ⟨_, _, loc', rfl, rfl, hloc⟩

namespace Token

/-- Whether a source is cut into tokens, with no text that goes on over a newline. -/
def scansInLines (source : String) : Bool :=
  match scan Kind.written source with
  | .ok raw => raw.all fun t => t.kind ≠ .text ∨ t.span.stop.line = t.span.start.line
  | .error _ => false

theorem exists_scan_of_scansInLines {source : String} (h : scansInLines source = true) :
    ∃ raw, scan Kind.written source = .ok raw ∧
      ∀ t ∈ raw, t.kind = .text → t.span.stop.line = t.span.start.line := by
  unfold scansInLines at h
  split at h
  · rename_i raw hraw
    refine ⟨raw, hraw, fun t ht hkind => ?_⟩
    have hline := of_decide_eq_true (List.all_eq_true.1 h t ht)
    exact hline.resolve_left (not_not_intro hkind)
  · cases h

/-- The width that a source is refused for. -/
def strayWidth? (source : String) : Option Nat :=
  match tokenize source with
  | .error (.indentation width _) => some width
  | _ => none

/-- A block with a text, a note and an empty line. -/
def notedBlock : String :=
  "if a:\n  say(\"b\") // c\n\n  d\ne"

/-- A block left for a depth between the two there were. -/
def strayBlock : String :=
  "if a:\n    b\n  c\n"

theorem notedBlock_crlf :
    (∃ tokens tokens', tokenize notedBlock = .ok tokens ∧ tokenize (crlf notedBlock) = .ok tokens' ∧
      tokens'.map Token.sight = tokens.map Token.sight) ∧
    ∃ loc loc', tokenize strayBlock = .error (.indentation 2 loc) ∧
      tokenize (crlf strayBlock) = .error (.indentation 2 loc') ∧ loc'.sight = loc.sight := by
  constructor
  · obtain ⟨raw, hraw, htexts⟩ : ∃ raw, scan Kind.written notedBlock = .ok raw ∧
        ∀ t ∈ raw, t.kind = .text → t.span.stop.line = t.span.start.line :=
      exists_scan_of_scansInLines (by decide +kernel)
    have hlaw := tokenize_crlf (by decide +kernel) hraw htexts
    have hgood : (tokenize notedBlock).toBool = true := by decide +kernel
    cases htokens : tokenize notedBlock with
    | error e =>
      rw [htokens] at hgood
      cases hgood
    | ok tokens =>
      obtain ⟨tokens', htokens', hsame⟩ := hlaw.1 tokens htokens
      exact ⟨tokens, tokens', rfl, htokens', hsame⟩
  · obtain ⟨raw, hraw, htexts⟩ : ∃ raw, scan Kind.written strayBlock = .ok raw ∧
        ∀ t ∈ raw, t.kind = .text → t.span.stop.line = t.span.start.line :=
      exists_scan_of_scansInLines (by decide +kernel)
    have hlaw := tokenize_crlf (by decide +kernel) hraw htexts
    have hwidth : strayWidth? strayBlock = some 2 := by decide +kernel
    unfold strayWidth? at hwidth
    split at hwidth
    · rename_i width loc htokens
      cases hwidth
      obtain ⟨_, _, loc', ⟨⟩, hcrlf, hsight⟩ := hlaw.2 _ htokens
      exact ⟨loc, loc', htokens, hcrlf, hsight⟩
    · cases hwidth

end Token

end Sable
